import TidySpace.Text.Blank

/-! # Decimal digits and whole numbers

A decimal digit is one of Unicode 14's, in any script; the digits of a script are ten consecutive
characters, so the table lists the zeros. A whole number is written in digits of any script, with an
optional sign, single underscores between digits, and white space around it, of which the
information separators are no part here. Its digits are at most `maxDigits`.
-/

namespace TidySpace.Text

/-- The zeros of the scripts other than the ASCII digits. -/
def digitZeros : List Nat :=
  [
    0x660, 0x6F0, 0x7C0, 0x966, 0x9E6, 0xA66, 0xAE6, 0xB66, 0xBE6, 0xC66, 0xCE6, 0xD66, 0xDE6,
    0xE50, 0xED0, 0xF20, 0x1040, 0x1090, 0x17E0, 0x1810, 0x1946, 0x19D0, 0x1A80, 0x1A90, 0x1B50,
    0x1BB0, 0x1C40, 0x1C50, 0xA620, 0xA8D0, 0xA900, 0xA9D0, 0xA9F0, 0xAA50, 0xABF0, 0xFF10,
    0x104A0, 0x10D30, 0x11066, 0x110F0, 0x11136, 0x111D0, 0x112F0, 0x11450, 0x114D0, 0x11650,
    0x116C0, 0x11730, 0x118E0, 0x11950, 0x11C50, 0x11D50, 0x11DA0, 0x16A60, 0x16AC0, 0x16B50,
    0x1D7CE, 0x1D7D8, 0x1D7E2, 0x1D7EC, 0x1D7F6, 0x1E140, 0x1E2F0, 0x1E950, 0x1FBF0
  ]

def digitValue? (c : Char) : Option Nat :=
  let n := c.toNat
  if n < 0x80 then if c.isDigit then some (n - 0x30) else none
  else (digitZeros.find? fun z => z ≤ n && n < z + 10).map (n - ·)

def readDigits (value : Nat) : List Char → Option Nat
  | [] => some value
  | ['_'] => none
  | '_' :: c :: cs => (digitValue? c).bind fun d => readDigits (value * 10 + d) cs
  | c :: cs => (digitValue? c).bind fun d => readDigits (value * 10 + d) cs

def maxDigits : Nat := 4300

def readNatural? (cs : List Char) : Option Nat :=
  if maxDigits < cs.countP (· != '_') then none
  else
    match cs with
    | [] => none
    | c :: cs => (digitValue? c).bind fun d => readDigits d cs

/-- White space that may stand around a number: that of Unicode, without the information
separators. -/
def isNumberBlank (c : Char) : Bool := isBlank c && !(0x1C ≤ c.toNat && c.toNat ≤ 0x1F)

def readInteger? (cs : List Char) : Option Int :=
  match dropTrailing isNumberBlank (cs.dropWhile isNumberBlank) with
  | '-' :: digits => (readNatural? digits).map fun n => -(n : Int)
  | '+' :: digits => (readNatural? digits).map fun n => (n : Int)
  | digits => (readNatural? digits).map fun n => (n : Int)

/-- Whether a text looks like a negative number: a minus sign, digits, and perhaps a point with
digits after it, where digits may then be missing before it. A line feed may follow. -/
def isNegativeNumber : List Char → Bool
  | '-' :: cs =>
    let isDigit := fun c => (digitValue? c).isSome
    match cs.dropWhile isDigit with
    | [] => !cs.isEmpty
    | ['\n'] => cs != ['\n']
    | '.' :: places =>
      let rest := places.dropWhile isDigit
      places.head?.any isDigit && (rest == [] || rest == ['\n'])
    | _ => false
  | _ => false

end TidySpace.Text
