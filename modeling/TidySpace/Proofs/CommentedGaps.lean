import Mathlib
import TidySpace.Proofs.Gaps

/-! # Gaps with block comments

A gap that is woven of runs without a slash, with block comments between them, loses just its comments
(`dropComments_woven`): no run begins a comment, and a comment ends where its end first stands, which a
body that does not hold it cannot bring forward, whatever it begins or ends with
(`commented_of_body`). So whether such a gap is spaced is a matter of its runs, and of whether each
holds a space or a tab at all (`isSpacedPair_woven`).
-/

namespace TidySpace.Gap

/-- A text woven of runs without a slash, with a block comment between each two. -/
inductive Woven : List Char → List (List Char) → Prop where
  | run {run : List Char} : '/' ∉ run → Woven run [run]
  | comment {run body cs : List Char} {runs : List (List Char)} : '/' ∉ run →
      ¬ ['*', '/'] <:+: body → Woven cs runs →
      Woven (run ++ '/' :: '*' :: (body ++ '*' :: '/' :: cs)) (run :: runs)

def HasGap (cs : List Char) : Prop := ' ' ∈ cs ∨ '\t' ∈ cs

instance (cs : List Char) : Decidable (HasGap cs) := inferInstanceAs (Decidable (_ ∨ _))

theorem any_isGap_iff {cs : List Char} : cs.any Text.isGap = true ↔ HasGap cs := by
  simp only [List.any_eq_true, Text.isGap, Bool.or_eq_true, beq_iff_eq, and_or_left, exists_or,
    exists_eq_right, HasGap]

/-! ### Dropping the comments -/

theorem dropComments_append {run : List Char} (h : '/' ∉ run) (cs : List Char) :
    dropComments (run ++ cs) = run ++ dropComments cs := by
  induction run with
  | nil => rfl
  | cons c run ih =>
    rw [List.mem_cons, not_or] at h
    rw [List.cons_append, dropComments, ih h.2, List.cons_append]
    intro _ hSlash
    exact absurd hSlash.symm h.1

theorem dropComments_of_commented {cs rest : List Char} (h : Commented cs rest) :
    dropComments cs = dropComments rest := by
  obtain ⟨tail, rfl, hAfter⟩ := commented_iff.1 h
  rw [dropComments]
  split
  next hFound => rw [Option.some.inj (hFound.symm.trans hAfter)]
  next hNone => cases hNone.symm.trans hAfter

/-- **A body without the end of a comment** is the body of one, also if a star stands at its end. -/
theorem commented_of_body {body : List Char} (h : ¬ ['*', '/'] <:+: body) (rest : List Char) :
    Commented ('/' :: '*' :: (body ++ '*' :: '/' :: rest)) rest := by
  refine ⟨body, rfl, fun hEnd => ?_⟩
  rcases List.infix_concat_iff.1 hEnd with ⟨front, hFront⟩ | hBody
  · have hLast := congrArg List.getLast? hFront
    rw [List.getLast?_append, List.getLast?_append] at hLast
    cases hLast
  · exact h hBody

variable {cs cs' : List Char} {runs runs' : List (List Char)}

/-- **Of a woven text just the comments are dropped.** -/
theorem dropComments_woven (h : Woven cs runs) : dropComments cs = runs.flatten := by
  induction h with
  | @run run hRun =>
    rw [← List.append_nil run, dropComments_append hRun, dropComments]
    simp
  | comment hRun hBody _ ih =>
    rw [dropComments_append hRun, dropComments_of_commented (commented_of_body hBody _), ih,
      List.flatten_cons]

theorem isSpaced_woven (h : Woven cs runs) : isSpaced cs = true ↔ ∃ run ∈ runs, HasGap run := by
  rw [isSpaced, dropComments_woven h, List.any_flatten, List.any_eq_true]
  simp only [any_isGap_iff]

/-- Runs that hold a space or a tab in the same places are spaced alike. -/
theorem exists_hasGap_congr (h : List.Forall₂ (fun run run' => HasGap run ↔ HasGap run') runs runs') :
    (∃ run ∈ runs, HasGap run) ↔ ∃ run ∈ runs', HasGap run := by
  induction h with
  | nil => exact Iff.rfl
  | cons hRun _ ih =>
    simp only [List.exists_mem_cons_iff]
    exact or_congr hRun ih

/-- **A gap between two tokens is spaced by its runs.** Where the text between them is woven of runs and
block comments, it is spaced just when a run holds a space or a tab. Another gap is spaced alike if its
runs hold one in the same places, whatever its comments say and however long its runs are. -/
theorem isSpacedPair_woven (b : Buffer) (left right : Token) (h : Woven (b.gap left right) runs) :
    (b.isSpacedPair left right = true ↔ ∃ run ∈ runs, HasGap run) ∧
      ∀ (b' : Buffer) (left' right' : Token) (runs' : List (List Char)),
        Woven (b'.gap left' right') runs' →
        List.Forall₂ (fun run run' => HasGap run ↔ HasGap run') runs runs' →
        b.isSpacedPair left right = b'.isSpacedPair left' right' := by
  refine ⟨isSpaced_woven h, fun b' left' right' runs' h' hSame => Bool.eq_iff_iff.2 ?_⟩
  exact (isSpaced_woven h).trans ((exists_hasGap_congr hSame).trans (isSpaced_woven h').symm)

/-- Braces with two comments between them. The first begins with a slash and ends with a star, the second
holds a tab. -/
def starred : Buffer := .ofText "\x7b/*/ **/\n/*\té */\x7d".toList

theorem woven_starred : Woven "/*/ **/\n/*\té */".toList [[], ['\n'], []] :=
  @Woven.comment [] "/ *".toList _ _ (by decide) (by decide) <|
    @Woven.comment ['\n'] "\té ".toList _ _ (by decide) (by decide) <| .run (by decide)

def slashed : Buffer := .ofText "\x7b/**/\r\n/*/*/\x7d".toList

theorem woven_slashed : Woven "/**/\r\n/*/*/".toList [[], ['\r', '\n'], []] :=
  @Woven.comment [] [] _ _ (by decide) (by decide) <|
    @Woven.comment ['\r', '\n'] ['/'] _ _ (by decide) (by decide) <| .run (by decide)

/-- No run holds a space or a tab, so neither gap is spaced. -/
theorem isSpacedPair_woven_starred :
    ¬ starred.isSpacedPair (starred.token "\x7b" 0 1) (starred.token "\x7d" 17 18) = true ∧
      starred.isSpacedPair (starred.token "\x7b" 0 1) (starred.token "\x7d" 17 18) =
        slashed.isSpacedPair (slashed.token "\x7b" 0 1) (slashed.token "\x7d" 12 13) := by
  have hGap : starred.gap (starred.token "\x7b" 0 1) (starred.token "\x7d" 17 18) =
      "/*/ **/\n/*\té */".toList := by cbv
  have hGap' : slashed.gap (slashed.token "\x7b" 0 1) (slashed.token "\x7d" 12 13) =
      "/**/\r\n/*/*/".toList := by cbv
  obtain ⟨hSpaced, hAlike⟩ := isSpacedPair_woven starred (starred.token "\x7b" 0 1)
    (starred.token "\x7d" 17 18) (hGap ▸ woven_starred)
  refine ⟨fun h => absurd (hSpaced.1 h) (by decide), hAlike _ _ _ _ (hGap' ▸ woven_slashed) ?_⟩
  exact .cons (by decide) (.cons (by decide) (.cons (by decide) .nil))

end TidySpace.Gap
