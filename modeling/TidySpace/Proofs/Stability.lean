import TidySpace.Proofs.IdleBatches
import TidySpace.Proofs.Passes

/-! # When a fixed text is stable

A run that ends with passes to spare has applied a batch that changes nothing, and such a batch has no
edits. But it goes by the findings that its limit leaves over. So none of these has edits, and it is the
findings behind the limit that decide whether the fixed text is stable: it is just when these have none
either (`stable_iff_of_run`). A finding that cannot be mended may hide one behind it that can
(`hidden_by_limit`).
-/

namespace TidySpace

/-- A finding whose edits, applied alone, change the text. -/
def Finding.Mends (text : List Char) (f : Finding) : Prop :=
  Edit.applied? text (Finding.edits [f]) ≠ some text

@[simp] theorem Finding.edits_singleton (f : Finding) : Finding.edits [f] = f.fix.getD [] := by
  rw [edits, List.flatMap_cons, List.flatMap_nil, List.append_nil]

theorem Edit.applied?_nil (text : List Char) : applied? text [] = some text := by
  rw [applied?, select, sort, List.mergeSort_nil]
  rfl

/-! ### Texts that suppress nothing -/

theorem Suppression.contents_eq_nil {line : List Char} (h : ∀ cs ∈ line.tails, brackets? cs = none) :
    contents line = [] := by
  fun_induction contents line with
  | case1 => rfl
  | case2 c cs content rest hSome =>
    rw [h (c :: cs) (by simp)] at hSome
    cases hSome
  | case3 c cs _ ih =>
    refine ih fun t ht => h t ?_
    rw [List.tails]
    exact List.mem_cons_of_mem _ ht

theorem Finding.unsuppressed_eq_self {text : List Char}
    (h : ∀ l ∈ Text.split text, ∀ cs ∈ l.content.tails, Suppression.brackets? cs = none)
    (findings : List Finding) : unsuppressed text findings = findings := by
  have hNone : (Suppressions.ofText text).byLine = [] := by
    refine List.filter_eq_nil_iff.2 fun entry hEntry => ?_
    obtain ⟨l, hLine, rfl⟩ := List.mem_map.1 hEntry
    have hPatterns : Suppression.patterns l.content = [] := by
      rw [Suppression.patterns, Suppression.contents_eq_nil (h l hLine)]
      rfl
    simp [hPatterns]
  refine List.filter_eq_self.2 fun f _ => ?_
  rw [Suppressions.covers, hNone]
  rfl

/-! ### Findings that carry edits -/

/-- A finding either carries edits, or it has no autofix at all. -/
def Finding.Proper (f : Finding) : Prop := f.fix.getD [] = [] → f.fix = none

theorem Report.proper_finding (r : Report) (rule file : String) (severity : Value) (b : Buffer) :
    (r.finding rule file severity b).Proper := by
  show (if r.fix.isEmpty then none else some r.fix : Option (List Edit)).getD [] = [] →
    (if r.fix.isEmpty then none else some r.fix : Option (List Edit)) = none
  split
  next => exact fun _ => rfl
  next hSome => exact fun hNil => absurd (List.isEmpty_iff.2 hNil) hSome

theorem Rule.Makes.proper {rule : Rule} (hRule : rule ∈ Standard.rules) {path : String}
    {text : List Char} {tree : Option Node} {f : Finding}
    (h : rule.Makes (Analysis.viewOf path text tree) f) : f.Proper := by
  obtain ⟨r, id, severity, rfl, -⟩ := h.exists_report hRule
  exact Report.proper_finding r id path severity _

namespace Analysis

variable {grammar : Grammar} {s : Settings} {rules : List Rule} {path : String} {text : List Char}
  {findings : List Finding}

theorem proposed_of_run (hRules : rules ⊆ Standard.rules) (hCheck : s.check rules = .ok ())
    (hWell : ∀ root, grammar text = some root → root.WellFormed text)
    (hRun : (run grammar s rules path text).result = .ok findings) :
    ∀ f ∈ findings, f.Proper ∧ ∀ e ∈ f.fix.getD [], e.Proposed text (grammar text) := by
  intro f hf
  obtain ⟨rule, hRule, tree, -, hMakes⟩ := made_of_run hRules hCheck hRun f hf
  refine ⟨hMakes.proper (hRules hRule), fun e he => ?_⟩
  rcases fix_cases_of_run hRules hCheck hRun hf with
    ⟨-, run, hMem, hFix⟩ | ⟨-, root, o, c, r, hTree, hr, hFix⟩
  · rw [hFix, List.mem_singleton] at he
    subst he
    exact .run (TrailingRun.trims hMem)
  · obtain ⟨left, right, hAdjacent, hMends⟩ :=
      CurlySpacing.exists_mends (Source.orderly_ofText (hWell root hTree)) hr (hFix ▸ he)
    exact .gap hTree hAdjacent hMends

/-- **The limit only cuts**: what an analysis finds under it are the first findings of an analysis
without a limit. -/
theorem run_unlimited {n : Nat} (hLimit : s.maxPerFile = .int n)
    (h : (run grammar s rules path text).result = .ok findings) :
    ∃ all, (run grammar { s with maxPerFile := .null } rules path text).result = .ok all ∧
      findings = all.take n := by
  obtain ⟨tree, found, hTree, hFound, hCut⟩ := run_eq_ok h
  refine ⟨Finding.sort (Finding.unsuppressed text found), ?_, ?_⟩
  · exact result_run hTree hFound
  · rw [hLimit] at hCut
    cases hCut
    rw [takeTo_natCast]

end Analysis

namespace Fixing

/-- **When a fixed text is stable.** Take the standard rules, settings that they accept, a number as
the limit, and a run that ends with passes to spare on a text whose tree is well-formed and in which no
token behind an opening brace begins with white space. Without the limit, an analysis of the fixed text
finds what is left and then the findings that the limit cut off. What is left carries no edits. And no
finding has edits that change the fixed text just when those that were cut off carry none. -/
theorem stable_iff_of_run (grammar : Grammar) (s : Settings) (rules : List Rule) (path : String)
    (text fixed : List Char) (left : List Finding) (n : Nat) (hRules : rules ⊆ Standard.rules)
    (hCheck : s.check rules = .ok ()) (hLimit : s.maxPerFile = .int n)
    (hRun : (run grammar s rules path text).result = .ok (fixed, left))
    (hSpare : analyses (Analysis.run grammar s rules path) text ≤ maxPasses)
    (hWell : ∀ root, grammar fixed = some root → root.WellFormed fixed)
    (hTight : (Source.ofText fixed (grammar fixed)).BracesTight) :
    ∃ all, (Analysis.run grammar { s with maxPerFile := .null } rules path fixed).result = .ok all ∧
      left = all.take n ∧ (∀ f ∈ left, f.fix = none) ∧
      ((∀ f ∈ all, ¬ f.Mends fixed) ↔ ∀ f ∈ all.drop n, f.fix = none) := by
  rw [run_eq_runWith] at hRun
  obtain ⟨texts, -, -, -, hCount, hLeft, hStable⟩ := exists_texts_of_runWith hRun
  obtain ⟨all, hAll, hTake⟩ := Analysis.run_unlimited hLimit hLeft
  have hProposed := Analysis.proposed_of_run hRules hCheck hWell hLeft
  have hProposedAll := Analysis.proposed_of_run (s := { s with maxPerFile := .null }) hRules hCheck
    hWell hAll
  -- The batch of what is left changes nothing, so it is empty.
  have hNone : Finding.edits left = [] := by
    rcases step?_eq_none (hStable (by omega)) with hNil | hSame
    · exact hNil
    · refine Edit.eq_nil_of_unchanged hWell hTight ?_ hSame
      intro e he
      obtain ⟨f, hf, he⟩ := Finding.mem_edits.1 he
      exact (hProposed f hf).2 e he
  have hUnfixed : ∀ f ∈ left, f.fix = none := by
    intro f hf
    exact (hProposed f hf).1 (List.flatMap_eq_nil_iff.1 hNone f hf)
  refine ⟨all, hAll, hTake, hUnfixed, ?_, ?_⟩
  · intro hStays f hf
    have hMem : f ∈ all := List.mem_of_mem_drop hf
    have hSame := Decidable.not_not.1 (hStays f hMem)
    rw [Finding.edits_singleton] at hSame
    obtain ⟨hProper, hEdits⟩ := hProposedAll f hMem
    exact hProper (Edit.eq_nil_of_unchanged hWell hTight hEdits hSame)
  · intro hHidden f hf
    have hFix : f.fix = none := by
      rw [← List.take_append_drop n all] at hf
      rcases List.mem_append.1 hf with hf | hf
      · exact hUnfixed f (hTake ▸ hf)
      · exact hHidden f hf
    rw [Finding.Mends, Finding.edits_singleton, hFix]
    exact Decidable.not_not.2 (Edit.applied?_nil fixed)

/-! ### A finding behind the limit -/

def assignment : List Char := "a = { /**/b};  ".toList

def assignmentTree : Node :=
  ⟨"program", true, 0, 15, [⟨"expression_statement", true, 0, 13, [
    ⟨"assignment_expression", true, 0, 12, [⟨"identifier", true, 0, 1, []⟩, ⟨"=", false, 2, 3, []⟩,
      ⟨"object", true, 4, 12, [⟨"\x7b", false, 4, 5, []⟩, ⟨"comment", true, 6, 10, []⟩,
        ⟨"shorthand_property_identifier", true, 10, 11, []⟩, ⟨"\x7d", false, 11, 12, []⟩]⟩]⟩,
    ⟨";", false, 12, 13, []⟩]⟩]⟩

def briefly : Settings := { Settings.standard with maxPerFile := .int 1 }

/-- The space behind the brace, which stands before a comment: nothing mends it. -/
def shown : Finding :=
  ⟨CurlySpacing.id, CurlySpacing.message .opening .unexpected, "a.js", 4, 5, .text "warn", none,
    CurlySpacing.extraOf .objectExpression .opening, some 1, some 6⟩

/-- The spaces at the end, which can be deleted. -/
def hidden : Finding :=
  ⟨TrailingSpaces.id, TrailingSpaces.message, "a.js", 13, 15, .text "warn", some [⟨13, 15, []⟩],
    .object [("node_type", .text "program")], some 1, some 14⟩

theorem tokens_assignment : (Source.ofText assignment (some assignmentTree)).tokens =
    [("identifier", 0, 1), ("=", 2, 3), ("\x7b", 4, 5), ("shorthand_property_identifier", 10, 11),
      ("\x7d", 11, 12), (";", 12, 13)].map fun t =>
        (Buffer.ofText assignment).token t.1 t.2.1 t.2.2 := by
  rw [Source.tokens_ofText]
  rfl

theorem gather_assignment (limit total : Value) :
    (Logged.gather (Analysis.ofRule
      { Settings.standard with maxPerFile := limit, maxTotal := total }
      (Analysis.viewOf "a.js" assignment (some assignmentTree))) Standard.rules).result =
        .ok [hidden, shown] := by
  have hView : Analysis.viewOf "a.js" assignment (some assignmentTree) =
      ⟨"a.js", assignment, some assignmentTree, ⟨Buffer.ofText assignment,
        (Source.ofText assignment (some assignmentTree)).tokens⟩, some Language.javascript, .null⟩ := rfl
  rw [hView, tokens_assignment]
  cbv

theorem sort_assignment :
    Finding.sort (Finding.unsuppressed assignment [hidden, shown]) = [shown, hidden] := by
  rw [Finding.unsuppressed_eq_self (by decide)]
  cbv

theorem analysis_assignment {grammar : Grammar} (hTree : grammar assignment = some assignmentTree)
    (limit total : Value) :
    (Analysis.run grammar { Settings.standard with maxPerFile := limit, maxTotal := total }
      Standard.rules "a.js" assignment).result =
        (Settings.cut limit [shown, hidden]).mapError .mismatch := by
  have hParse : (Analysis.parse grammar Standard.rules assignment).result =
      .ok (some assignmentTree) := congrArg Except.ok hTree
  rw [Analysis.result_run hParse (gather_assignment limit total), sort_assignment]

/-- With a limit of one finding, there is nothing that a pass could do. -/
theorem run_assignment {grammar : Grammar} (hTree : grammar assignment = some assignmentTree)
    (total : Value) :
    (run grammar { Settings.standard with maxPerFile := .int 1, maxTotal := total } Standard.rules
      "a.js" assignment).result = .ok (assignment, [shown]) := by
  have hFound : (Analysis.run grammar
      { Settings.standard with maxPerFile := .int 1, maxTotal := total } Standard.rules "a.js"
      assignment).result = .ok [shown] := analysis_assignment hTree (.int 1) total
  rw [run_eq_runWith]
  exact runWith_of_stable hFound rfl

theorem analyses_assignment :
    analyses (Analysis.run (fun _ => some assignmentTree) briefly Standard.rules "a.js")
      assignment = 1 := by
  have hFound : (Analysis.run (fun _ => some assignmentTree) briefly Standard.rules "a.js"
      assignment).result = .ok [shown] :=
    analysis_assignment rfl (.int 1) Settings.standard.maxTotal
  have hCounted : (counted (Analysis.run (fun _ => some assignmentTree) briefly Standard.rules "a.js")
      assignment).result = .ok [shown] := hFound
  rw [analyses, runWith, parses_bind hCounted]
  rfl

/-- **A finding that is shown hides one that could be mended.** With a limit of one finding, the space
before a comment is all that the run sees, and it leaves the spaces at the end of the line. -/
theorem hidden_by_limit :
    briefly.check Standard.rules = .ok () ∧ assignmentTree.WellFormed assignment ∧
      ∃ left all, (run (fun _ => some assignmentTree) briefly Standard.rules "a.js"
          assignment).result = .ok (assignment, left) ∧
        analyses (Analysis.run (fun _ => some assignmentTree) briefly Standard.rules "a.js")
          assignment ≤ maxPasses ∧
        (Analysis.run (fun _ => some assignmentTree) { briefly with maxPerFile := .null }
          Standard.rules "a.js" assignment).result = .ok all ∧
        ∃ f ∈ all, f.Mends assignment := by
  refine ⟨by cbv, by decide, [shown], [shown, hidden], run_assignment rfl Settings.standard.maxTotal, ?_,
    analysis_assignment rfl .null Settings.standard.maxTotal, hidden, by simp, ?_⟩
  · rw [analyses_assignment]
    decide
  · have hApplied : Edit.applied? assignment (Finding.edits [hidden]) =
        some "a = { /**/b};".toList := by cbv
    rw [Finding.Mends, hApplied]
    decide

/-- What is shown carries no edits, and what is hidden does. -/
theorem stable_iff_of_run_assignment :
    ∃ all, (Analysis.run (fun _ => some assignmentTree) { briefly with maxPerFile := .null }
        Standard.rules "a.js" assignment).result = .ok all ∧
      [shown] = all.take 1 ∧ (∀ f ∈ [shown], f.fix = none) ∧
      ((∀ f ∈ all, ¬ f.Mends assignment) ↔ ∀ f ∈ all.drop 1, f.fix = none) := by
  refine stable_iff_of_run (fun _ => some assignmentTree) briefly Standard.rules "a.js" assignment
    assignment [shown] 1 (List.Subset.refl _) (by cbv) rfl
    (run_assignment rfl Settings.standard.maxTotal) ?_ ?_ ?_
  · rw [analyses_assignment]
    decide
  · intro root hRoot
    obtain rfl := Option.some.inj hRoot
    decide
  · have hTexts : (Source.ofText assignment (some assignmentTree)).tokens.map Token.text =
        [['a'], ['='], ['\x7b'], ['b'], ['\x7d'], [';']] := by
      rw [tokens_assignment]
      cbv
    have hTight : Text.isBlank 'b' = false := by decide
    rw [Source.BracesTight, hTexts]
    simp [hTight]

end Fixing

end TidySpace
