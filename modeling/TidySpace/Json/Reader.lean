import TidySpace.Value

/-! # Reading JSON

`read?` reads one JSON value that fills its text. A number with neither point nor exponent is whole;
any other is the nearest binary number. Of members with one key the last counts, in the place of
the first. The readers below take a text and give what they read with the rest of the text; their
`fuel` bounds the number of calls, of which each character pays for two.
-/

namespace TidySpace.Json

open Decimal (Binary64)

def isSpace (c : Char) : Bool := c == ' ' || c == '\n' || c == '\r' || c == '\t'

def skipSpaces (cs : List Char) : List Char := cs.dropWhile isSpace

def hexValue? (c : Char) : Option Nat :=
  let n := c.toNat
  if 0x30 ≤ n ∧ n ≤ 0x39 then some (n - 0x30)
  else if 0x41 ≤ n ∧ n ≤ 0x46 then some (n - 0x37)
  else if 0x61 ≤ n ∧ n ≤ 0x66 then some (n - 0x57)
  else none

def unit? (a b c d : Char) : Option Nat := do
  let a ← hexValue? a
  let b ← hexValue? b
  let c ← hexValue? c
  let d ← hexValue? d
  return ((a * 16 + b) * 16 + c) * 16 + d

def shortEscape? (c : Char) : Option Char :=
  match c with
  | '"' => some '"'
  | '\\' => some '\\'
  | '/' => some '/'
  | 'b' => some (Char.ofNat 0x8)
  | 'f' => some (Char.ofNat 0xC)
  | 'n' => some '\n'
  | 'r' => some '\r'
  | 't' => some '\t'
  | _ => none

/-- Reads a string after its opening mark; `done` holds its characters so far, last first. Two units
that form a pair are one character. -/
def readString (done : List Char) : List Char → Option (String × List Char)
  | [] => none
  | '"' :: rest => some (String.ofList done.reverse, rest)
  | '\\' :: 'u' :: a :: b :: c :: d :: '\\' :: 'u' :: e :: f :: g :: h :: rest =>
    match unit? a b c d, unit? e f g h with
    | some high, some low =>
      if 0xD800 ≤ high ∧ high < 0xDC00 ∧ 0xDC00 ≤ low ∧ low < 0xE000 then
        readString (Char.ofNat (0x10000 + (high - 0xD800) * 0x400 + (low - 0xDC00)) :: done) rest
      else readString (Char.ofNat high :: done) ('\\' :: 'u' :: e :: f :: g :: h :: rest)
    | _, _ => none
  | '\\' :: 'u' :: a :: b :: c :: d :: rest =>
    match unit? a b c d with
    | some n => readString (Char.ofNat n :: done) rest
    | none => none
  | '\\' :: c :: rest =>
    match shortEscape? c with
    | some e => readString (e :: done) rest
    | none => none
  | c :: rest => readString (c :: done) rest
termination_by cs => cs.length

def natOf (digits : List Char) : Nat :=
  digits.foldl (fun n c => n * 10 + (c.toNat - '0'.toNat)) 0

def readFraction : List Char → List Char × List Char
  | '.' :: cs => (cs.takeWhile Char.isDigit, cs.dropWhile Char.isDigit)
  | cs => ([], cs)

def readExponent (cs : List Char) : Option Int × List Char :=
  let digits (negative : Bool) (cs : List Char) : Option Int × List Char :=
    let n : Int := natOf (cs.takeWhile Char.isDigit)
    (some (if negative then -n else n), cs.dropWhile Char.isDigit)
  let signed : List Char → Option Int × List Char
    | '-' :: cs => digits true cs
    | '+' :: cs => digits false cs
    | cs => digits false cs
  match cs with
  | 'e' :: cs => signed cs
  | 'E' :: cs => signed cs
  | cs => (none, cs)

def readNumber (negative : Bool) (cs : List Char) : Option (Value × List Char) :=
  let whole := cs.takeWhile Char.isDigit
  let (fraction, afterFraction) := readFraction (cs.dropWhile Char.isDigit)
  let (exponent, rest) := readExponent afterFraction
  if whole.isEmpty then none
  else if fraction.isEmpty ∧ exponent.isNone then
    let n : Int := natOf whole
    some (.int (if negative then -n else n), rest)
  else
    (Binary64.ofDecimal? negative (natOf (whole ++ fraction))
      (exponent.getD 0 - fraction.length)).map fun x => (.real x, rest)

def afterWord? (word : String) (cs : List Char) : Option (List Char) :=
  if word.toList.isPrefixOf cs then some (cs.drop word.length) else none

mutual

def readValue : Nat → List Char → Option (Value × List Char)
  | 0, _ => none
  | fuel + 1, cs =>
    match skipSpaces cs with
    | '"' :: rest => (readString [] rest).map fun r => (.text r.1, r.2)
    | '[' :: rest =>
      match skipSpaces rest with
      | ']' :: rest => some (.list [], rest)
      | rest => readItems fuel [] rest
    | '\x7b' :: rest =>
      match skipSpaces rest with
      | '\x7d' :: rest => some (.object [], rest)
      | rest => readMembers fuel [] rest
    | '-' :: rest => readNumber true rest
    | 'n' :: rest => (afterWord? "ull" rest).map fun r => (.null, r)
    | 't' :: rest => (afterWord? "rue" rest).map fun r => (.bool true, r)
    | 'f' :: rest => (afterWord? "alse" rest).map fun r => (.bool false, r)
    | rest => readNumber false rest

def readItems : Nat → List Value → List Char → Option (Value × List Char)
  | 0, _, _ => none
  | fuel + 1, done, cs =>
    match readValue fuel cs with
    | none => none
    | some (v, rest) =>
      match skipSpaces rest with
      | ',' :: rest => readItems fuel (v :: done) rest
      | ']' :: rest => some (.list (v :: done).reverse, rest)
      | _ => none

/-- Reads the members of an object up to its closing brace; `done` holds those before. -/
def readMembers : Nat → Members → List Char → Option (Value × List Char)
  | 0, _, _ => none
  | fuel + 1, done, cs =>
    match skipSpaces cs with
    | '"' :: rest =>
      match readString [] rest with
      | none => none
      | some (key, rest) =>
        match skipSpaces rest with
        | ':' :: rest =>
          match readValue fuel rest with
          | none => none
          | some (v, rest) =>
            match skipSpaces rest with
            | ',' :: rest => readMembers fuel (done.put key v) rest
            | '\x7d' :: rest => some (.object (done.put key v), rest)
            | _ => none
        | _ => none
    | _ => none

end

def read? (s : String) : Option Value :=
  let cs := s.toList
  match readValue (2 * cs.length + 2) cs with
  | some (v, rest) => if (skipSpaces rest).isEmpty then some v else none
  | none => none

end TidySpace.Json
