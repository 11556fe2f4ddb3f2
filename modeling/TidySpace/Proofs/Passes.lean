import Mathlib
import TidySpace.Analysis
import TidySpace.Proofs.Analysis

/-! # Where passes end

The passes of a run lead from text to text: each one applies the edits of the findings in its text
and changes it (`Step`). However the run ends, its findings are those of its last text, it has
analysed each of its texts once and nothing else, and if it ended with passes to spare, its last text
is one that a pass leaves alone (`exists_texts`). So the run can be repeated on that text and stays
there (`settles_of_run`). Nothing of this depends on what the analysis is: rules may contradict each
other and their edits may overlap or undo each other.
-/

namespace TidySpace.Fixing

variable {analyze : List Char → Logged (List Finding)}

def Step (analyze : List Char → Logged (List Finding)) (text next : List Char) : Prop :=
  next ≠ text ∧ ∃ findings, (analyze text).result = .ok findings ∧
    Edit.applied? text (Finding.edits findings) = some next

theorem step?_eq_some {text next : List Char} {findings : List Finding}
    (h : step? text findings = .ok (some next)) :
    next ≠ text ∧ Edit.applied? text (Finding.edits findings) = some next := by
  unfold step? at h
  dsimp only at h
  split at h
  next => cases h
  next =>
    split at h
    next => cases h
    next fixed hApplied =>
      split at h
      next => cases h
      next hChanged =>
        cases h
        exact ⟨hChanged, hApplied⟩

theorem step?_eq_none {text : List Char} {findings : List Finding}
    (h : step? text findings = .ok none) :
    Finding.edits findings = [] ∨ Edit.applied? text (Finding.edits findings) = some text := by
  unfold step? at h
  dsimp only at h
  split at h
  next hNone => exact Or.inl (List.isEmpty_iff.1 hNone)
  next =>
    split at h
    next => cases h
    next fixed hApplied =>
      split at h
      next hSame =>
        rw [hSame] at hApplied
        exact Or.inr hApplied
      next => cases h

def runWith (analyze : List Char → Logged (List Finding)) (text : List Char) :
    Logged (List Char × List Finding) := do
  let findings ← analyze text
  passesFrom analyze maxPasses text findings

theorem run_eq_runWith (grammar : Grammar) (s : Settings) (rules : List Rule) (path : String) :
    run grammar s rules path = runWith (Analysis.run grammar s rules path) := rfl

/-! ### Counting analyses -/

/-- The same analysis with another log: it only says that there was one. -/
def counted (analyze : List Char → Logged (List Finding)) (text : List Char) :
    Logged (List Finding) := ⟨(analyze text).result, [], 1⟩

/-- How many times a run from a text analyses a text. -/
def analyses (analyze : List Char → Logged (List Finding)) (text : List Char) : Nat :=
  (runWith (counted analyze) text).parses

theorem passesFrom_counted (passes : Nat) (text : List Char) (findings : List Finding) :
    (passesFrom (counted analyze) passes text findings).result =
      (passesFrom analyze passes text findings).result := by
  induction passes generalizing text findings with
  | zero => rfl
  | succ passes ih =>
    rw [passesFrom, passesFrom, Logged.result_bind, Logged.result_bind]
    congr 1
    funext next
    cases next with
    | none => rfl
    | some fixed =>
      show (counted analyze fixed >>= fun left => _).result = (analyze fixed >>= fun left => _).result
      rw [Logged.result_bind, Logged.result_bind]
      exact congrArg _ (funext fun left => ih fixed left)

theorem runWith_counted (text : List Char) :
    (runWith (counted analyze) text).result = (runWith analyze text).result := by
  rw [runWith, runWith, Logged.result_bind, Logged.result_bind]
  exact congrArg _ (funext fun left => passesFrom_counted maxPasses text left)

/-! ### Runs -/

theorem parses_bind {α β : Type} {x : Logged α} {a : α} (h : x.result = .ok a) (f : α → Logged β) :
    (x >>= f).parses = x.parses + (f a).parses := by
  show (x.andThen f).parses = _
  rw [Logged.andThen, h]

/-- **The texts of a run.** Its passes lead from text to text. The findings are those of the last
text, the parses are those of the texts that were analysed, and a pass that was not made would have
changed nothing. -/
theorem exists_texts {passes : Nat} {text fixed : List Char} {findings left : List Finding}
    (hFound : (analyze text).result = .ok findings)
    (h : (passesFrom analyze passes text findings).result = .ok (fixed, left)) :
    ∃ texts, (text :: texts).IsChain (Step analyze) ∧ texts.getLastD text = fixed ∧
      texts.length ≤ passes ∧ (analyze fixed).result = .ok left ∧
      (texts.length < passes → step? fixed left = .ok none) ∧
      (passesFrom analyze passes text findings).parses =
        (texts.map fun next => (analyze next).parses).sum := by
  induction passes generalizing text findings with
  | zero =>
    cases h
    exact ⟨[], .singleton _, rfl, Nat.le_refl 0, hFound, by simp, rfl⟩
  | succ passes ih =>
    rw [passesFrom, Logged.result_bind] at h
    cases hStep : step? text findings with
    | error e =>
      rw [hStep] at h
      cases h
    | ok next =>
      rw [hStep] at h
      rw [passesFrom, parses_bind (show (Logged.lift (step? text findings)).result = _ from hStep)]
      cases next with
      | none =>
        cases h
        exact ⟨[], .singleton _, rfl, Nat.zero_le _, hFound, fun _ => hStep, rfl⟩
      | some next =>
        -- The first pass changed the text; the others start from the text that it made.
        obtain ⟨found, hNext, hRest⟩ : ∃ found, (analyze next).result = .ok found ∧
            (passesFrom analyze passes next found).result = .ok (fixed, left) := by
          change (analyze next >>= passesFrom analyze passes next).result = _ at h
          rw [Logged.result_bind] at h
          exact bind_eq_ok h
        obtain ⟨texts, hChain, hLast, hLength, hLeft, hStable, hParses⟩ := ih hNext hRest
        obtain ⟨hChanged, hApplied⟩ := step?_eq_some hStep
        refine ⟨next :: texts, hChain.cons_cons ⟨hChanged, findings, hFound, hApplied⟩, ?_,
          Nat.succ_le_succ hLength, hLeft, fun hSpare => hStable (Nat.lt_of_succ_lt_succ hSpare), ?_⟩
        · rw [List.getLastD_cons, hLast]
        · show 0 + (analyze next >>= passesFrom analyze passes next).parses = _
          rw [parses_bind hNext, hParses, List.map_cons, List.sum_cons, Nat.zero_add]

theorem passesFrom_of_stable {text : List Char} {findings : List Finding}
    (hStable : step? text findings = .ok none) (passes : Nat) :
    (passesFrom analyze passes text findings).result = .ok (text, findings) := by
  cases passes with
  | zero => rfl
  | succ passes =>
    rw [passesFrom, Logged.result_bind, hStable]
    rfl

theorem passesFrom_of_step {text next : List Char} {findings left : List Finding}
    (hStep : step? text findings = .ok (some next)) (hNext : (analyze next).result = .ok left)
    (passes : Nat) : (passesFrom analyze (passes + 1) text findings).result =
      (passesFrom analyze passes next left).result := by
  rw [passesFrom, Logged.result_bind, hStep]
  show (analyze next >>= passesFrom analyze passes next).result = _
  rw [Logged.result_bind, hNext]
  rfl

theorem runWith_of_stable {text : List Char} {findings : List Finding}
    (hFound : (analyze text).result = .ok findings) (hStable : step? text findings = .ok none) :
    (runWith analyze text).result = .ok (text, findings) := by
  rw [runWith, Logged.result_bind, hFound]
  exact passesFrom_of_stable hStable maxPasses

theorem runWith_of_step {text next : List Char} {findings left : List Finding}
    (hFound : (analyze text).result = .ok findings)
    (hStep : step? text findings = .ok (some next)) (hNext : (analyze next).result = .ok left)
    (hStable : step? next left = .ok none) : (runWith analyze text).result = .ok (next, left) := by
  rw [runWith, Logged.result_bind, hFound]
  exact (passesFrom_of_step hStep hNext 9).trans (passesFrom_of_stable hStable 9)

/-- **What a run went through**, when it has a result. -/
theorem exists_texts_of_runWith {text fixed : List Char} {left : List Finding}
    (h : (runWith analyze text).result = .ok (fixed, left)) :
    ∃ texts, (text :: texts).IsChain (Step analyze) ∧ texts.getLastD text = fixed ∧
      texts.length ≤ maxPasses ∧ analyses analyze text = texts.length + 1 ∧
      (analyze fixed).result = .ok left ∧
      (texts.length < maxPasses → step? fixed left = .ok none) := by
  rw [← runWith_counted, runWith, Logged.result_bind] at h
  obtain ⟨findings, hFound, hPasses⟩ := bind_eq_ok h
  obtain ⟨texts, hChain, hLast, hLength, hLeft, hStable, hParses⟩ := exists_texts hFound hPasses
  refine ⟨texts, hChain, hLast, hLength, ?_, hLeft, hStable⟩
  rw [analyses, runWith, parses_bind hFound, hParses]
  show 1 + (texts.map fun _ => 1).sum = _
  rw [List.map_const', List.sum_replicate_nat, Nat.mul_one, Nat.add_comm]

/-- **A run ends at findings of its own text, and stays there.** Where a run has a result, its
findings are those that an analysis has in the fixed text. On the way there it changed the text ten
times at most, and analysed it once more than that. And if it changed the text less than ten times, it
leaves the fixed text alone. -/
theorem settles_of_run (grammar : Grammar) (s : Settings) (rules : List Rule) (path : String)
    (text fixed : List Char) (left : List Finding)
    (h : (run grammar s rules path text).result = .ok (fixed, left)) :
    (Analysis.run grammar s rules path fixed).result = .ok left ∧
    ∃ texts, (text :: texts).IsChain (Step (Analysis.run grammar s rules path)) ∧
      texts.getLastD text = fixed ∧ texts.length ≤ maxPasses ∧
      analyses (Analysis.run grammar s rules path) text = texts.length + 1 ∧
      (texts.length < maxPasses → (run grammar s rules path fixed).result = .ok (fixed, left)) := by
  rw [run_eq_runWith] at h ⊢
  obtain ⟨texts, hChain, hLast, hLength, hCount, hLeft, hStable⟩ := exists_texts_of_runWith h
  exact ⟨hLeft, texts, hChain, hLast, hLength, hCount, fun hSpare =>
    runWith_of_stable hLeft (hStable hSpare)⟩

def growing : Rule :=
  .scripted "style.growing" ["javascript"] "warn" false "warn"
    (fun s => [{ location := .offset 0, message := "There should be three characters"
                 fix := if s.text.length < 3 then [⟨0, 0, ['+']⟩] else [] }]) none

/-- Three passes change the text, and what is reported then is not mended. -/
theorem settles_of_run_growing :
    ∃ fixed left, (run (fun _ => none) .standard [growing] "a.js" []).result = .ok (fixed, left) ∧
      fixed = "+++".toList ∧ left.map Finding.fix = [none] ∧
      (Analysis.run (fun _ => none) .standard [growing] "a.js" fixed).result = .ok left ∧
      ∃ texts, ([] :: texts).IsChain
          (Step (Analysis.run (fun _ => none) .standard [growing] "a.js")) ∧
        texts.getLastD [] = fixed ∧ texts.length ≤ maxPasses ∧
        analyses (Analysis.run (fun _ => none) .standard [growing] "a.js") [] = texts.length + 1 ∧
        (texts.length < maxPasses →
          (run (fun _ => none) .standard [growing] "a.js" fixed).result = .ok (fixed, left)) := by
  refine ⟨"+++".toList, [⟨growing.id, "There should be three characters", "a.js", 0, 0, .text "warn",
    none, .null, some 1, some 1⟩], ?_, rfl, rfl, settles_of_run _ _ _ _ _ _ _ ?_⟩ <;> cbv

end TidySpace.Fixing
