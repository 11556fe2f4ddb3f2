/-! # Patterns

A pattern selects names. A star stands for any text, a question mark for any character, and brackets
for one character out of a set, or, after an exclamation mark, for one not in it; a bracket that is
not closed stands for itself, and so does every other character. `parse` reads a pattern into pieces
and `accepts` says which texts the pieces match.

Inside brackets a hyphen between two characters makes a range. A hyphen directly after the opening
or before the closing bracket stands for itself, as does one right after a range. A range whose
ends are in the wrong order is dropped with both its ends.
-/

namespace TidySpace

structure CharRange where
  first : Char
  last : Char
  deriving DecidableEq, Repr

inductive Piece where
  | anyText
  | anyChar
  | char (c : Char)
  | oneOf (negated : Bool) (ranges : List CharRange)
  deriving DecidableEq, Repr

namespace Pattern

/-! ### Sets in brackets -/

/-- Cuts the inside of brackets at the hyphens that make ranges: at the first one that comes after
`skip` characters or more, and so on with two characters. -/
def chunks (skip : Nat) (cs : List Char) : List (List Char) :=
  match _h : (cs.drop skip).dropWhile (· != '-') with
  | [] => [cs]
  | _ :: rest =>
    (cs.take skip ++ (cs.drop skip).takeWhile (· != '-')) :: chunks 2 rest
termination_by cs.length
decreasing_by
  have hLength := congrArg List.length (List.takeWhile_append_dropWhile
    (p := (· != '-')) (l := cs.drop skip))
  rw [_h, List.length_append, List.length_cons, List.length_drop] at hLength
  omega

/-- A hyphen before the closing bracket belongs to the characters before it. -/
def keepLastHyphen : List (List Char) → List (List Char)
  | [] => []
  | [c, []] => [c ++ ['-']]
  | c :: cs => c :: keepLastHyphen cs

/-- Puts a chunk before others; a range that they would make in the wrong order is dropped. -/
def joinChunk (chunk : List Char) : List (List Char) → List (List Char)
  | [] => [chunk]
  | next :: rest =>
    match chunk.getLast?, next.head? with
    | some a, some b =>
      if b < a then (chunk.dropLast ++ next.tail) :: rest else chunk :: next :: rest
    | _, _ => chunk :: next :: rest

/-- The characters of a set, `none` for each hyphen that makes a range. -/
def setTokens (cs : List Char) : List (Option Char) :=
  let cut := keepLastHyphen (chunks (if cs.head? = some '!' then 2 else 1) cs)
  [none].intercalate ((cut.foldr joinChunk []).map (·.map some))

/-- The ranges of a set; a single character is a range of one, and a range hyphen without a start
stands for itself. -/
def setRanges : List (Option Char) → List CharRange
  | [] => []
  | some a :: none :: some b :: rest => ⟨a, b⟩ :: setRanges rest
  | some a :: rest => ⟨a, a⟩ :: setRanges rest
  | none :: rest => ⟨'-', '-'⟩ :: setRanges rest

def setPiece (cs : List Char) : Piece :=
  match setTokens cs with
  | some '!' :: rest => .oneOf true (setRanges rest)
  | tokens => .oneOf false (setRanges tokens)

/-- How many characters after an opening bracket cannot close it: an exclamation mark, and a closing
bracket at the first place of the set. -/
def openingWidth : List Char → Nat
  | '!' :: ']' :: _ => 2
  | '!' :: _ => 1
  | ']' :: _ => 1
  | _ => 0

/-- The inside of brackets, and what follows them, given the text after the opening bracket. -/
def inside? (cs : List Char) : Option (List Char × List Char) :=
  let width := openingWidth cs
  match (cs.drop width).dropWhile (· != ']') with
  | [] => none
  | _ :: rest => some (cs.take width ++ (cs.drop width).takeWhile (· != ']'), rest)

theorem length_of_inside? {cs inner rest : List Char} (h : inside? cs = some (inner, rest)) :
    rest.length < cs.length := by
  unfold inside? at h
  dsimp only at h
  split at h
  · simp at h
  next hDrop =>
    have hLength := congrArg List.length (List.takeWhile_append_dropWhile
      (p := (· != ']')) (l := cs.drop (openingWidth cs)))
    rw [hDrop, List.length_append, List.length_cons, List.length_drop] at hLength
    cases h
    omega

/-! ### Reading and matching -/

def parse : List Char → List Piece
  | [] => []
  | c :: cs =>
    if c = '*' then .anyText :: parse (cs.dropWhile (· == '*'))
    else if c = '?' then .anyChar :: parse cs
    else if c = '[' then
      match _h : inside? cs with
      | some (inner, rest) => setPiece inner :: parse rest
      | none => .char c :: parse cs
    else .char c :: parse cs
termination_by cs => cs.length
decreasing_by
  · have := (List.dropWhile_sublist (l := cs) (· == '*')).length_le
    simp only [List.length_cons]
    omega
  · simp
  · have := length_of_inside? _h
    simp only [List.length_cons]
    omega
  · simp
  · simp

end Pattern

def CharRange.contains (r : CharRange) (c : Char) : Bool := r.first ≤ c && c ≤ r.last

def Piece.accepts : Piece → Char → Bool
  | .anyText, _ => false
  | .anyChar, _ => true
  | .char d, c => c == d
  | .oneOf negated ranges, c => ranges.any (·.contains c) != negated

namespace Pattern

def accepts : List Piece → List Char → Bool
  | [], cs => cs.isEmpty
  | .anyText :: ps, [] => accepts ps []
  | .anyText :: ps, c :: cs => accepts ps (c :: cs) || accepts (.anyText :: ps) cs
  | _ :: _, [] => false
  | p :: ps, c :: cs => p.accepts c && accepts ps cs
termination_by ps cs => ps.length + cs.length

def selects (pattern name : String) : Bool := accepts (parse pattern.toList) name.toList

end Pattern

end TidySpace
