import Mathlib
import TidySpace.Proofs.Analysis

/-! # Rules that fail

A rule that fails leaves one warning and no finding, whatever it found before it gave up. Where it stands
among other rules does not matter to them: each of them is asked as it would be without it, and what they
find is joined, suppressed, sorted and cut as before (`run_with_failing`).

The failing rule may be the only one that needs a tree. The others are then shown a tree that they would
not have been shown without it. They do not look at it, so they find the same (`ofRule_treeFor`); a rule
that needs a tree is shown the same one in any company.
-/

namespace TidySpace

namespace Logged

variable {α β : Type}

theorem gather_congr {f g : α → Logged (List β)} {items : List α} (h : ∀ a ∈ items, f a = g a) :
    gather f items = gather g items := by
  induction items with
  | nil => rfl
  | cons a rest ih =>
    rw [gather, gather, h a List.mem_cons_self, ih fun b hb => h b (List.mem_cons_of_mem a hb)]

/-- **An item for which nothing is found can be put in** between others: what is found stays the same, and
its warnings stand between theirs. -/
theorem gather_insert {f g : α → Logged (List β)} {before after : List α} {a : α} {all : List β}
    (h : (gather f (before ++ after)).result = .ok all) (hSame : ∀ b ∈ before ++ after, g b = f b)
    (hNothing : (g a).result = .ok []) :
    (gather g (before ++ a :: after)).result = .ok all ∧
    (gather g (before ++ a :: after)).warnings =
      (gather f before).warnings ++ (g a).warnings ++ (gather f after).warnings ∧
    (gather f (before ++ after)).warnings = (gather f before).warnings ++ (gather f after).warnings := by
  obtain ⟨hEach, rfl⟩ := of_gather_eq_ok h
  rw [List.forall_mem_append] at hEach hSame
  have hResult : ∀ b ∈ before ++ a :: after, (g b).result = .ok (g b).listed := by
    rw [List.forall_mem_append, List.forall_mem_cons]
    refine ⟨fun b hb => hSame.1 b hb ▸ hEach.1 b hb, ?_, fun b hb => hSame.2 b hb ▸ hEach.2 b hb⟩
    rw [listed_of_ok hNothing, hNothing]
  have hParts {γ : Type} (k : Logged (List β) → List γ) : (before ++ a :: after).flatMap (fun b => k (g b)) =
      before.flatMap (fun b => k (f b)) ++ k (g a) ++ after.flatMap fun b => k (f b) := by
    rw [List.flatMap_append, List.flatMap_cons, List.append_assoc,
      List.flatMap_congr fun b hb => congrArg k (hSame.1 b hb),
      List.flatMap_congr fun b hb => congrArg k (hSame.2 b hb)]
  have hWarnings : ∀ items, (∀ b ∈ items, (f b).result = .ok (f b).listed) →
      (gather f items).warnings = items.flatMap fun b => (f b).warnings :=
    fun items hItems => warnings_gather fun b hb => ⟨_, hItems b hb⟩
  refine ⟨?_, ?_, ?_⟩
  · rw [gather_eq_ok hResult, hParts, listed_of_ok hNothing, List.append_nil, List.flatMap_append]
  · rw [warnings_gather fun b hb => ⟨_, hResult b hb⟩, hParts warnings, hWarnings before hEach.1,
      hWarnings after hEach.2]
  · rw [hWarnings _ (List.forall_mem_append.2 hEach), List.flatMap_append, hWarnings before hEach.1,
      hWarnings after hEach.2]

end Logged

theorem Settings.exists_optionMapping {s : Settings} {rule : String} {given : Value}
    (hGiven : s.optionsOf rule = .ok given)
    (hMapping : given.isGiven = false ∨ ∃ rows, given.rows? = .ok rows) :
    ∃ options, s.optionMapping rule = .ok options := by
  obtain ⟨rows, hRows⟩ : ∃ rows, (Rule.givenOptions given).mapping? = .ok rows := by
    rw [Rule.givenOptions, Value.orElse]
    split
    next hHere =>
      obtain ⟨rows, hRows⟩ := hMapping.resolve_left (by rw [hHere]; decide)
      exact ⟨rows, by rw [Value.mapping?, hRows]⟩
    next => exact ⟨[], rfl⟩
  refine ⟨.ofRows rows, ?_⟩
  rw [optionMapping, hGiven]
  show ((Rule.givenOptions given).mapping? >>= fun rows => Except.ok (Value.ofRows rows)) = _
  rw [hRows]
  rfl

namespace Analysis

variable {grammar : Grammar} {s : Settings} {rules before after : List Rule} {rule : Rule}
  {path : String} {text : List Char}

/-! ### The tree that rules are shown -/

/-- The tree that rules are shown: that of the grammar, if one of them needs a tree. -/
def treeFor (grammar : Grammar) (rules : List Rule) (text : List Char) : Option Node :=
  if rules.any Rule.needsTree then grammar text else none

theorem parse_treeFor (grammar : Grammar) (rules : List Rule) (text : List Char) :
    (parse grammar rules text).result = .ok (treeFor grammar rules text) ∧
      (parse grammar rules text).warnings = [] := by
  rw [parse, treeFor]
  split <;> exact ⟨rfl, rfl⟩

theorem treeFor_of_needsTree (hRule : rule ∈ rules) (hNeeds : rule.needsTree = true) :
    treeFor grammar rules text = grammar text :=
  if_pos (List.any_eq_true.2 ⟨rule, hRule, hNeeds⟩)

theorem warnings_run : (run grammar s rules path text).warnings =
    (Logged.gather (ofRule s (viewOf path text (treeFor grammar rules text))) rules).warnings := by
  obtain ⟨hTree, hSilent⟩ := parse_treeFor grammar rules text
  rw [run, Logged.warnings_bind hTree, hSilent, List.nil_append]
  exact Logged.warnings_bind_of_silent _ fun _ => rfl

end Analysis

/-- A rule that does not look at the tree: it does the same on a text with another tree, and without one. -/
def Rule.IgnoresTree (rule : Rule) : Prop :=
  ∀ path text tree tree' options,
    rule.visit ((Analysis.viewOf path text tree).withOptions options) =
      rule.visit ((Analysis.viewOf path text tree').withOptions options)

namespace Analysis

variable {grammar : Grammar} {s : Settings} {rules before after : List Rule} {rule : Rule}
  {path : String} {text : List Char}

/-- **A rule is asked the same in any company**, if it does not look at a tree that it does not need. -/
theorem ofRule_treeFor (hRule : rule ∈ rules) (hTree : rule.needsTree = false → rule.IgnoresTree) :
    ofRule s (viewOf path text (treeFor grammar rules text)) rule =
      ofRule s (viewOf path text (grammar text)) rule := by
  cases hNeeds : rule.needsTree with
  | true => rw [treeFor_of_needsTree hRule hNeeds]
  | false =>
    rw [ofRule, ofRule, hNeeds, Bool.false_and, Bool.false_and, if_neg Bool.false_ne_true,
      if_neg Bool.false_ne_true]
    congr 1
    funext options
    rw [hTree hNeeds path text (treeFor grammar rules text) (grammar text) options]
    rfl

theorem gather_treeFor (hTrees : ∀ rule ∈ rules, rule.needsTree = false → rule.IgnoresTree) :
    Logged.gather (ofRule s (viewOf path text (treeFor grammar rules text))) rules =
      Logged.gather (ofRule s (viewOf path text (grammar text))) rules :=
  Logged.gather_congr fun rule hRule => ofRule_treeFor hRule (hTrees rule hRule)

/-! ### A rule that fails -/

/-- What is left of a rule that fails when it is asked: a warning, or nothing where it is passed over. -/
theorem ofRule_of_fails {view : FileView} {options : Value} {e : Failure}
    (hOptions : s.optionMapping rule.id = .ok options)
    (hFails : (rule.needsTree && view.tree.isNone) = false →
      rule.visit (view.withOptions options) = .error e) :
    (ofRule s view rule).result = .ok [] ∧ (ofRule s view rule).warnings =
      if rule.needsTree && view.tree.isNone then [] else [.ruleFailed rule.id view.path e] := by
  rw [ofRule]
  cases hSkip : rule.needsTree && view.tree.isNone with
  | true => exact ⟨rfl, rfl⟩
  | false =>
    have hVisit := hFails hSkip
    rw [hOptions, if_neg Bool.false_ne_true, if_neg Bool.false_ne_true, Logged.result_bind,
      Logged.warnings_bind rfl]
    simp only [Except.mapError, Logged.lift, Except.bind, hVisit]
    exact ⟨rfl, rfl⟩

theorem ofRule_of_fails_among {options : Value} {e : Failure}
    (hOptions : s.optionMapping rule.id = .ok options)
    (hFails : ∀ options, s.optionMapping rule.id = .ok options →
      (rule.needsTree = true → (grammar text).isSome) → rule.visit
        ((viewOf path text (treeFor grammar (before ++ rule :: after) text)).withOptions options) =
          .error e) :
    (ofRule s (viewOf path text (treeFor grammar (before ++ rule :: after) text)) rule).result = .ok [] ∧
    (ofRule s (viewOf path text (treeFor grammar (before ++ rule :: after) text)) rule).warnings =
      if rule.needsTree && (grammar text).isNone then [] else [.ruleFailed rule.id path e] := by
  let view := viewOf path text (treeFor grammar (before ++ rule :: after) text)
  have hSkip : (rule.needsTree && view.tree.isNone) = (rule.needsTree && (grammar text).isNone) := by
    cases hNeeds : rule.needsTree with
    | true =>
      have hTree : view.tree = grammar text :=
        treeFor_of_needsTree (List.mem_append_right before List.mem_cons_self) hNeeds
      rw [hTree]
    | false => rfl
  rw [← hSkip]
  refine ofRule_of_fails hOptions fun hAsked => hFails options hOptions fun hNeeds => ?_
  rw [hSkip, hNeeds, Bool.true_and, Option.isNone_eq_false_iff] at hAsked
  exact hAsked

/-- **A rule that fails is kept apart.** If an analysis has a result without it, then it has the same one
with it, wherever it stands. The warnings are those of the rules before it and of those after it, with one
about the rule in between; there is none if the rule needs a tree and the text has none. -/
theorem run_with_failing (grammar : Grammar) (s : Settings) (before after : List Rule) (rule : Rule)
    (path : String) (text : List Char) {findings : List Finding} {given : Value} {e : Failure}
    (hTrees : ∀ other ∈ before ++ after, other.needsTree = false → other.IgnoresTree)
    (hRun : (run grammar s (before ++ after) path text).result = .ok findings)
    (hGiven : s.optionsOf rule.id = .ok given)
    (hMapping : given.isGiven = false ∨ ∃ rows, given.rows? = .ok rows)
    (hFails : ∀ options, s.optionMapping rule.id = .ok options →
      (rule.needsTree = true → (grammar text).isSome) → rule.visit
        ((viewOf path text (treeFor grammar (before ++ rule :: after) text)).withOptions options) =
          .error e) :
    (run grammar s (before ++ rule :: after) path text).result = .ok findings ∧
    (run grammar s (before ++ rule :: after) path text).warnings =
      (run grammar s before path text).warnings ++
        (if rule.needsTree && (grammar text).isNone then [] else [.ruleFailed rule.id path e]) ++
        (run grammar s after path text).warnings ∧
    (run grammar s (before ++ after) path text).warnings =
      (run grammar s before path text).warnings ++ (run grammar s after path text).warnings := by
  obtain ⟨options, hOptions⟩ := Settings.exists_optionMapping hGiven hMapping
  obtain ⟨tree, found, hTree, hFound, hCut⟩ := run_eq_ok hRun
  obtain rfl := Except.ok.inj ((parse_treeFor grammar (before ++ after) text).1.symm.trans hTree)
  obtain ⟨hNothing, hWarning⟩ := ofRule_of_fails_among hOptions hFails
  have hTreesOf := List.forall_mem_append.1 hTrees
  have hSame : ∀ other ∈ before ++ after,
      ofRule s (viewOf path text (treeFor grammar (before ++ rule :: after) text)) other =
        ofRule s (viewOf path text (grammar text)) other := by
    intro other hOther
    refine ofRule_treeFor ?_ (hTrees other hOther)
    rw [List.mem_append, List.mem_cons]
    exact (List.mem_append.1 hOther).imp id Or.inr
  rw [gather_treeFor hTrees] at hFound
  obtain ⟨hResult, hInserted, hWithout⟩ := Logged.gather_insert hFound hSame hNothing
  refine ⟨?_, ?_, ?_⟩
  · rw [result_run (parse_treeFor ..).1 hResult, hCut]
    rfl
  · rw [warnings_run, hInserted, hWarning, warnings_run, warnings_run, gather_treeFor hTreesOf.1,
      gather_treeFor hTreesOf.2]
  · rw [warnings_run, warnings_run, warnings_run, gather_treeFor hTrees, gather_treeFor hTreesOf.1,
      gather_treeFor hTreesOf.2, hWithout]

/-- A rule that needs a tree, reports the start of every text, and gives up then. -/
def overloaded : Rule :=
  .scripted "style.overloaded" ["javascript"] "error" true "error"
    (fun _ => [{ location := .offset 0, message := "Here." }]) (some "Too much.")

def first : Rule :=
  .scripted "style.first" ["javascript"] "warn" false "warn"
    (fun _ => [{ location := .offset 0, message := "Here." }]) none

/-- Between two rules that need no tree stands one that does. The text has a tree, so it is asked, makes a
report and gives up; the findings are those of the others, and there is one warning. -/
theorem run_with_failing_overloaded :
    ∃ findings : List Finding, findings.map Finding.rule = [first.id, TrailingSpaces.id] ∧
      (run (fun _ => some default) .standard [TrailingSpaces.rule, first] "a.js" "x ".toList).result =
        .ok findings ∧
      (run (fun _ => some default) .standard [TrailingSpaces.rule, overloaded, first] "a.js"
        "x ".toList).result = .ok findings ∧
      (run (fun _ => some default) .standard [TrailingSpaces.rule, overloaded, first] "a.js"
        "x ".toList).warnings =
          [.ruleFailed overloaded.id "a.js" (.ruleGaveUp "Too much.")] := by
  have hRun : (run (fun _ => some default) .standard [TrailingSpaces.rule, first] "a.js" "x ".toList).result =
      .ok [⟨first.id, "Here.", "a.js", 0, 0, .text "warn", none, .null, some 1, some 1⟩,
        ⟨TrailingSpaces.id, TrailingSpaces.message, "a.js", 1, 2, .text "warn", some [⟨1, 2, []⟩],
          .object [("node_type", .text "program")], some 1, some 2⟩] := by
    cbv
  have hTrees : ∀ other ∈ [TrailingSpaces.rule] ++ [first], other.needsTree = false → other.IgnoresTree := by
    intro other hOther _
    simp only [List.cons_append, List.nil_append, List.mem_cons, List.not_mem_nil, or_false] at hOther
    rcases hOther with rfl | rfl
    · exact fun _ _ _ _ _ => rfl
    · exact fun _ _ _ _ _ => rfl
  obtain ⟨hResult, hWarnings, -⟩ := run_with_failing (fun _ => some default) .standard
    [TrailingSpaces.rule] [first] overloaded "a.js" "x ".toList hTrees hRun rfl (Or.inl rfl)
    fun _ _ _ => rfl
  refine ⟨_, rfl, hRun, hResult, hWarnings.trans ?_⟩
  cbv

end Analysis

end TidySpace
