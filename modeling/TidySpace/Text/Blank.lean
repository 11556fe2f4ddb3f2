/-! # White space

The characters that count as white space wherever this library trims or skips text: the
Unicode property White_Space together with the four information separators. A *gap* character
is the narrower class, a space or a tab, which the spacing rules look for.
-/

namespace TidySpace.Text

/-- White space: the Unicode property White_Space and the separators U+001C to U+001F. -/
def isBlank (c : Char) : Bool :=
  let n := c.toNat
  (0x9 ≤ n && n ≤ 0xD) || (0x1C ≤ n && n ≤ 0x20) || n == 0x85 || n == 0xA0 || n == 0x1680 ||
    (0x2000 ≤ n && n ≤ 0x200A) || n == 0x2028 || n == 0x2029 || n == 0x202F || n == 0x205F ||
    n == 0x3000

def isGap (c : Char) : Bool := c == ' ' || c == '\t'

theorem isBlank_of_isGap {c : Char} (h : isGap c = true) : isBlank c = true := by
  simp only [isGap, Bool.or_eq_true, beq_iff_eq] at h
  rcases h with rfl | rfl <;> decide

/-! ### Cutting a class of characters off the ends -/

/-- The text without its longest final stretch of characters that satisfy `p`. -/
def dropTrailing (p : Char → Bool) : List Char → List Char
  | [] => []
  | c :: cs =>
    match dropTrailing p cs with
    | [] => if p c then [] else [c]
    | kept => c :: kept

def trim (cs : List Char) : List Char := dropTrailing isBlank (cs.dropWhile isBlank)

def allBlank (cs : List Char) : Bool := cs.all isBlank

theorem dropTrailing_append (p : Char → Bool) (cs : List Char) :
    ∃ run, cs = dropTrailing p cs ++ run ∧ run.all p = true := by
  induction cs with
  | nil => exact ⟨[], rfl, rfl⟩
  | cons c cs ih =>
    obtain ⟨run, hEq, hRun⟩ := ih
    unfold dropTrailing
    split
    next h =>
      rw [h] at hEq
      split
      next hc => exact ⟨c :: cs, rfl, by simp_all⟩
      next => exact ⟨run, by simp [hEq], hRun⟩
    next kept h => exact ⟨run, by simp [← hEq], hRun⟩

/-! ### Splitting at a separator -/

/-- The pieces between the separators; there is one more of them than there are separators. -/
def splitOn (sep : Char) : List Char → List (List Char)
  | [] => [[]]
  | c :: cs =>
    if c = sep then [] :: splitOn sep cs
    else
      match splitOn sep cs with
      | [] => [[c]]
      | piece :: pieces => (c :: piece) :: pieces

def splitString (sep : Char) (s : String) : List String :=
  (splitOn sep s.toList).map String.ofList

def trimString (s : String) : String := String.ofList (trim s.toList)

end TidySpace.Text
