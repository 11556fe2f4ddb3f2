import TidySpace.Pattern
import TidySpace.Text.Ascending
import TidySpace.Text.Blank
import TidySpace.Text.Line

/-! # Suppression

A comment in a text can suppress the findings that start on its line. It holds, in any case of
letters, `spacelint: ignore[…]`, with rule ids or patterns between the brackets, set apart by
commas.
-/

namespace TidySpace.Suppression

/-! ### Finding the comments of a line -/

/-- The lower case of an ASCII letter, and of the few other characters that have an ASCII letter as
another case of theirs. -/
def foldLetter (c : Char) : Char :=
  let n := c.toNat
  if n = 0x17F then 's'
  else if n = 0x130 ∨ n = 0x131 then 'i'
  else if n = 0x212A then 'k'
  else c.toLower

/-- The text after a word in lower case, if the text starts with it in any case. -/
def afterWord? : List Char → List Char → Option (List Char)
  | [], cs => some cs
  | _ :: _, [] => none
  | w :: ws, c :: cs => if foldLetter c = w then afterWord? ws cs else none

/-- The text after white space and a word. -/
def afterBlanksAndWord? (word : String) (cs : List Char) : Option (List Char) :=
  afterWord? word.toList (cs.dropWhile Text.isBlank)

/-- The text after the start of a comment. -/
def afterCommentStart? : List Char → Option (List Char)
  | '/' :: '/' :: cs => some cs
  | '/' :: '*' :: cs => some cs
  | _ => none

/-- What the brackets hold if a suppression comment starts here, and the text after them. Empty
brackets suppress nothing and are no suppression. -/
def brackets? (cs : List Char) : Option (List Char × List Char) := do
  let cs ← afterCommentStart? cs
  let cs ← afterBlanksAndWord? "spacelint:" cs
  let cs ← afterBlanksAndWord? "ignore" cs
  let cs ← afterBlanksAndWord? "[" cs
  match cs.takeWhile (· != ']'), cs.dropWhile (· != ']') with
  | c :: content, _ :: rest => some (c :: content, rest)
  | _, _ => none

theorem length_afterWord? {ws cs rest : List Char} (h : afterWord? ws cs = some rest) :
    rest.length ≤ cs.length := by
  fun_induction afterWord? ws cs with
  | case1 => cases h; exact Nat.le_refl _
  | case2 => simp at h
  | case3 c cs ws ih =>
    have := ih h
    simp only [List.length_cons]
    omega
  | case4 => simp at h

theorem length_afterBlanksAndWord? {word : String} {cs rest : List Char}
    (h : afterBlanksAndWord? word cs = some rest) : rest.length ≤ cs.length :=
  Nat.le_trans (length_afterWord? h) (List.dropWhile_sublist _).length_le

theorem length_afterCommentStart? {cs rest : List Char} (h : afterCommentStart? cs = some rest) :
    rest.length < cs.length := by
  unfold afterCommentStart? at h
  split at h
  · cases h
    simp only [List.length_cons]
    omega
  · cases h
    simp only [List.length_cons]
    omega
  · simp at h

theorem length_brackets? {cs content rest : List Char}
    (h : brackets? cs = some (content, rest)) : rest.length < cs.length := by
  simp only [brackets?, Option.bind_eq_bind, Option.bind_eq_some_iff] at h
  obtain ⟨a, hStart, b, hFirst, c, hSecond, d, hBracket, hEnd⟩ := h
  have hStart := length_afterCommentStart? hStart
  have hFirst := length_afterBlanksAndWord? hFirst
  have hSecond := length_afterBlanksAndWord? hSecond
  have hBracket := length_afterBlanksAndWord? hBracket
  split at hEnd
  next hDrop =>
    have hLength := (List.dropWhile_sublist (l := d) (· != ']')).length_le
    rw [hDrop, List.length_cons] at hLength
    cases hEnd
    omega
  · simp at hEnd

/-- What the brackets of the suppression comments of a line hold. -/
def contents : List Char → List (List Char)
  | [] => []
  | c :: cs =>
    match _h : brackets? (c :: cs) with
    | some (content, rest) => content :: contents rest
    | none => contents cs
termination_by cs => cs.length
decreasing_by
  · exact length_brackets? _h
  · simp

def patternsIn (content : List Char) : List String :=
  (((Text.splitOn ',' content).map Text.trim).filter (!·.isEmpty)).map String.ofList

def patterns (line : List Char) : List String :=
  Text.ascending ((contents line).flatMap patternsIn)

end TidySpace.Suppression

namespace TidySpace

/-! ### Suppressed findings -/

/-- The suppressions of a text: the bytes at which its lines begin, and the patterns of each line
that has some. -/
structure Suppressions where
  lineStarts : List Nat
  byLine : List (Nat × List String)

namespace Suppressions

def ofText (text : List Char) : Suppressions :=
  let lines := Text.split text
  ⟨lines.map Text.Line.start,
    (lines.map fun line => (line.number, Suppression.patterns line.content)).filter
      fun entry => !entry.2.isEmpty⟩

/-- The number of the line that holds a byte offset; offsets before the text are on its first
line. -/
def lineOf (s : Suppressions) (offset : Int) : Nat :=
  max 1 (s.lineStarts.takeWhile fun (start : Nat) => (start : Int) ≤ offset).length

def names (pattern rule : String) : Bool := rule == pattern || Pattern.selects pattern rule

/-- Whether the findings of a rule that start at an offset are suppressed. -/
def covers (s : Suppressions) (rule : String) (offset : Int) : Bool :=
  match s.byLine.lookup (s.lineOf offset) with
  | some patterns => patterns.any fun pattern => names pattern rule
  | none => false

end Suppressions

end TidySpace
