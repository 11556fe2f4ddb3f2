import TidySpace.Text.Utf8

/-! # Physical lines

A line ends with a carriage return and line feed, a carriage return, or a line feed; the pair is
one end. The last line has no end and is always there, empty when the text ends with a line end.
`pieces` cuts a text, and `split` numbers the lines and says at which byte each begins.
-/

namespace TidySpace.Text

inductive LineEnd where
  | crlf
  | cr
  | lf
  | absent
  deriving DecidableEq, Repr

def LineEnd.chars : LineEnd → List Char
  | .crlf => ['\r', '\n']
  | .cr => ['\r']
  | .lf => ['\n']
  | .absent => []

/-- Puts a character in front of the first of the pieces. -/
def consPiece (c : Char) : List (List Char × LineEnd) → List (List Char × LineEnd)
  | [] => [([c], .absent)]
  | (content, ending) :: rest => (c :: content, ending) :: rest

/-- The contents of the lines of a text, each with its end. -/
def pieces : List Char → List (List Char × LineEnd)
  | [] => [([], .absent)]
  | '\r' :: '\n' :: cs => ([], .crlf) :: pieces cs
  | c :: cs =>
    if c = '\r' then ([], .cr) :: pieces cs
    else if c = '\n' then ([], .lf) :: pieces cs
    else consPiece c (pieces cs)

/-- A physical line: its number from 1, its content, the byte at which it begins, and its end. -/
structure Line where
  number : Nat
  content : List Char
  start : Nat
  ending : LineEnd
  deriving DecidableEq, Repr

/-- Numbers lines from `number`, the first of which begins at byte `start`. -/
def place (number start : Nat) : List (List Char × LineEnd) → List Line
  | [] => []
  | (content, ending) :: rest =>
    ⟨number, content, start, ending⟩ ::
      place (number + 1) (start + Utf8.width content + ending.chars.length) rest

def split (cs : List Char) : List Line := place 1 0 (pieces cs)

/-! ### Lines of a buffer -/

/-- The bytes at which a buffer's line ends stop, where the buffer begins at byte `pos`. -/
def breakEnds (pos : Nat) : List UInt8 → List Nat
  | [] => []
  | 0x0D :: 0x0A :: bytes => (pos + 2) :: breakEnds (pos + 2) bytes
  | b :: bytes =>
    if b = 0x0D ∨ b = 0x0A then (pos + 1) :: breakEnds (pos + 1) bytes
    else breakEnds (pos + 1) bytes

def lineStarts (bytes : List UInt8) : List Nat := 0 :: breakEnds 0 bytes

/-! ### The lines give the text back -/

theorem consPiece_chars (c : Char) (ps : List (List Char × LineEnd)) :
    (consPiece c ps).flatMap (fun p => p.1 ++ p.2.chars) =
      c :: ps.flatMap (fun p => p.1 ++ p.2.chars) := by
  cases ps with
  | nil => rfl
  | cons p ps => rfl

theorem pieces_chars (cs : List Char) :
    (pieces cs).flatMap (fun p => p.1 ++ p.2.chars) = cs := by
  fun_induction pieces cs with
  | case1 => rfl
  | case2 cs ih => rw [List.flatMap_cons, ih]; rfl
  | case3 cs _ ih => rw [List.flatMap_cons, ih]; rfl
  | case4 cs _ _ ih => rw [List.flatMap_cons, ih]; rfl
  | case5 c cs _ _ _ ih => rw [consPiece_chars, ih]

end TidySpace.Text
