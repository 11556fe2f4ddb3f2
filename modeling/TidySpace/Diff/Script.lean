/-! # Edit scripts

How to turn one list of lines into another: stretches that are kept, and stretches that are
replaced. A script is found by taking the longest stretch that both lists share and going on
before and after it. Of equally long stretches the first counts, by its place in the left list and
then in the right.

In long lists, lines that occur often on the right do not start a stretch; they only extend one.
-/

namespace TidySpace.Diff

/-- A stretch of lines that is kept, or one that is replaced by another. -/
inductive Segment where
  | keep (lines : List String)
  | change (removed added : List String)
  deriving DecidableEq, Repr

namespace Segment

def left : Segment → List String
  | .keep lines => lines
  | .change removed _ => removed

def right : Segment → List String
  | .keep lines => lines
  | .change _ added => added

def isChange : Segment → Bool
  | .keep _ => false
  | .change _ _ => true

end Segment

/-- A stretch that two lists share: where it starts in each, and how long it is. -/
structure Block where
  left : Nat
  right : Nat
  size : Nat
  deriving DecidableEq, Repr

namespace Block

/-- Whether two lists share the stretch, and it is not empty. -/
def fits (m : Block) (a b : List String) : Bool :=
  0 < m.size && m.left + m.size ≤ a.length &&
    (a.drop m.left).take m.size == (b.drop m.right).take m.size

end Block

/-! ### The longest shared stretch -/

/-- For each line on the right, how long the shared stretch is that ends there and at a line on the
left, given those that end at the line before it. -/
def runsAt (anchors : String → Bool) (line : String) (previous : List Nat) (b : List String) :
    List Nat :=
  List.zipWith (fun other run => if line == other && anchors other then run + 1 else 0) b
    (0 :: previous)

/-- The longest of the stretches that end at line `i` on the left and at line `j` or later on the
right, if one is longer than the best so far. -/
def better (i : Nat) (best : Block) (j : Nat) : List Nat → Block
  | [] => best
  | run :: runs =>
    better i (if best.size < run then ⟨i + 1 - run, j + 1 - run, run⟩ else best) (j + 1) runs

/-- The longest stretch of anchored lines from line `i` on the left on. -/
def longestFrom (anchors : String → Bool) (b : List String) (i : Nat) (runs : List Nat)
    (best : Block) : List String → Block
  | [] => best
  | line :: rest =>
    let here := runsAt anchors line runs b
    longestFrom anchors b (i + 1) here (better i best 0 here) rest

def sharedStart : List String → List String → Nat
  | line :: a, other :: b => if line == other then sharedStart a b + 1 else 0
  | _, _ => 0

def extend (a b : List String) (m : Block) : Block :=
  let before := sharedStart (a.take m.left).reverse (b.take m.right).reverse
  let after := sharedStart (a.drop (m.left + m.size)) (b.drop (m.right + m.size))
  ⟨m.left - before, m.right - before, before + m.size + after⟩

def longest (anchors : String → Bool) (a b : List String) : Block :=
  extend a b (longestFrom anchors b 0 (List.replicate b.length 0) ⟨0, 0, 0⟩ a)

/-! ### Scripts -/

def replaceAll (a b : List String) : List Segment :=
  if a.isEmpty && b.isEmpty then [] else [.change a b]

def scriptFrom (anchors : String → Bool) (a b : List String) : List Segment :=
  let m := longest anchors a b
  if _h : m.fits a b = true then
    scriptFrom anchors (a.take m.left) (b.take m.right) ++
      .keep ((a.drop m.left).take m.size) ::
        scriptFrom anchors (a.drop (m.left + m.size)) (b.drop (m.right + m.size))
  else replaceAll a b
termination_by a.length
decreasing_by
  all_goals
    simp only [m, Block.fits, Bool.and_eq_true, decide_eq_true_eq] at _h
    simp only [List.length_take, List.length_drop]
    omega

/-- The lines that cannot start a shared stretch: in a list of two hundred lines or more, those that
occur more often than about once in a hundred lines. -/
def frequent (b : List String) : List String :=
  if b.length < 200 then []
  else (b.filter fun line => b.length / 100 + 1 < b.count line).eraseDups

def script (a b : List String) : List Segment :=
  let excluded := frequent b
  scriptFrom (fun line => !excluded.contains line) a b

/-- **The left sides of a script are the list it starts from.** -/
theorem scriptFrom_left (anchors : String → Bool) (a b : List String) :
    (scriptFrom anchors a b).flatMap Segment.left = a := by
  fun_induction scriptFrom anchors a b with
  | case1 a b m h hFirst hSecond =>
    rw [List.flatMap_append, List.flatMap_cons, hFirst, hSecond]
    simp only [Segment.left]
    rw [← List.append_assoc, ← List.drop_drop, List.append_assoc, List.take_append_drop,
      List.take_append_drop]
  | case2 a b m h =>
    unfold replaceAll
    split
    next hEmpty => simp_all
    · simp [Segment.left]

/-- **The right sides of a script are the list it leads to.** -/
theorem scriptFrom_right (anchors : String → Bool) (a b : List String) :
    (scriptFrom anchors a b).flatMap Segment.right = b := by
  fun_induction scriptFrom anchors a b with
  | case1 a b m h hFirst hSecond =>
    have hShared : (a.drop m.left).take m.size = (b.drop m.right).take m.size := by
      simp only [Block.fits, Bool.and_eq_true, beq_iff_eq] at h
      exact h.2
    rw [List.flatMap_append, List.flatMap_cons, hFirst, hSecond]
    simp only [Segment.right]
    rw [hShared, ← List.append_assoc, ← List.drop_drop, List.append_assoc, List.take_append_drop,
      List.take_append_drop]
  | case2 a b m h =>
    unfold replaceAll
    split
    next hEmpty => simp_all
    · simp [Segment.right]

end TidySpace.Diff
