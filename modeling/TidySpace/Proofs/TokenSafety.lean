import Mathlib
import TidySpace.Proofs.Tokens
import TidySpace.Proofs.Whitespace

/-! # What edits leave of the tokens

An edit *spares* a token if it deletes nothing of it and inserts nothing inside it.

* `CurlySpacing.spares_of_mem_reports`: the curly rule edits gaps between neighbours
  (`gap_of_mem_reports`), so with a well-formed tree its edits spare all tokens.
* The trailing rule looks at the lines of the text and not at its tree. A trailing run inside a token
  that goes over several lines is deleted (`template_not_spared`).
* `Analysis.tokens_of_applied`: these are all the edits that an analysis proposes, and a token is found
  again in the edited text, at its moved offsets, unless an accepted trailing edit does not spare it.
-/

namespace TidySpace

open Utf8 (width)

/-- An edit that deletes nothing of a token and inserts nothing inside it. -/
def Edit.Spares (e : Edit) (t : Token) : Prop := e.stop ≤ t.start ∨ t.stop ≤ e.start

instance (e : Edit) (t : Token) : Decidable (e.Spares t) :=
  inferInstanceAs (Decidable (e.stop ≤ t.start ∨ t.stop ≤ e.start))

namespace CurlySpacing

variable {s : Source} {o : CurlyOptions} {c : BraceConstruct} {r : Report} {e : Edit}

/-- **An edit of the curly rule lies in the gap of neighbours.** -/
theorem gap_of_mem_reports (hOrderly : s.Orderly) (h : r ∈ reports s o c) (he : e ∈ r.fix) :
    ∃ left right, s.Adjacent left right ∧ left.stop ≤ e.start ∧ e.start ≤ e.stop ∧
      e.stop ≤ right.start := by
  obtain ⟨t, left, right, must, brace, fault, hBraces, hChecked, -, hFix⟩ := mem_reports h
  have hAdjacent := hChecked.adjacent hOrderly (found_of_braces? hBraces)
  have hGap := (hOrderly.of_adjacent hAdjacent).1
  refine ⟨left, right, hAdjacent, ?_⟩
  rw [hFix] at he
  rcases mem_mend he with ⟨-, rfl⟩ | ⟨-, -, rfl⟩
  · rcases hChecked.brace_eq with rfl | rfl
    · exact ⟨Int.le_refl _, Int.le_refl _, hGap⟩
    · exact ⟨hGap, Int.le_refl _, Int.le_refl _⟩
  · exact ⟨Int.le_refl _, hGap, Int.le_refl _⟩

/-- **The edits of the curly rule spare every token.** -/
theorem spares_of_mem_reports (hOrderly : s.Orderly) (h : r ∈ reports s o c) (he : e ∈ r.fix)
    {t : Token} (ht : t ∈ s.tokens) : e.Spares t := by
  obtain ⟨left, right, hAdjacent, hStart, hForward, hStop⟩ := gap_of_mem_reports hOrderly h he
  rcases (hOrderly.of_adjacent hAdjacent).2 t ht with hLeft | hRight
  · exact Or.inr (Int.le_trans hLeft hStart)
  · exact Or.inl (Int.le_trans hStop hRight)

end CurlySpacing

/-! ### Edits inside the text -/

section Inside

variable {text : List Char} {root : Node}

theorem Source.inside_of_mem (h : root.WellFormed text) {t : Token}
    (ht : t ∈ (Source.ofText text (some root)).tokens) : 0 ≤ t.start ∧ t.stop ≤ width text := by
  obtain ⟨start, stop, hStart, hStop, -, hBoundary⟩ := Source.boundary_of_mem h ht
  have := hBoundary.le_width
  omega

theorem CurlySpacing.within_of_mem_reports (h : root.WellFormed text) {o : CurlyOptions}
    {c : BraceConstruct} {r : Report} (hr : r ∈ reports (Source.ofText text (some root)) o c)
    {e : Edit} (he : e ∈ r.fix) : 0 ≤ e.start ∧ e.stop ≤ width text := by
  have hOrderly := Source.orderly_ofText h
  obtain ⟨left, right, hAdjacent, hStart, -, hStop⟩ := gap_of_mem_reports hOrderly hr he
  have hLeft := Source.inside_of_mem h hAdjacent.left_mem
  have hRight := Source.inside_of_mem h hAdjacent.right_mem
  have := hOrderly.forward left hAdjacent.left_mem
  have := hOrderly.forward right hAdjacent.right_mem
  omega

theorem TrailingSpaces.within_of_mem_scan {skip : Bool} {run : TrailingRun}
    (h : run ∈ TrailingRun.scan text skip) : run.stop ≤ width text := by
  obtain ⟨pre, mid, post, rfl, hStart, hStop, -⟩ := TrailingRun.cut_of_mem_scan h
  rw [Utf8.width_append, Utf8.width_append]
  omega

/-- The fix of a standard rule deletes one trailing run of the text, or it is that of a curly report. -/
theorem Rule.Makes.fix_cases {rule : Rule} (hRule : rule ∈ Standard.rules) {path : String}
    {tree : Option Node} {f : Finding} (h : rule.Makes (Analysis.viewOf path text tree) f) :
    (f.rule = TrailingSpaces.id ∧
        ∃ run ∈ TrailingRun.scan text false, f.fix.getD [] = [⟨run.start, run.stop, []⟩]) ∨
      (f.rule = CurlySpacing.id ∧ ∃ root o c r, tree = some root ∧
        r ∈ CurlySpacing.reports (Source.ofText text tree) o c ∧ f.fix.getD [] = r.fix) := by
  obtain ⟨r, id, severity, rfl, hCases⟩ := h.exists_report hRule
  rw [Report.fix_finding, Report.rule_finding]
  rcases hCases with ⟨hId, skip, run, hRun, rfl⟩ | ⟨hId, root, o, c, hTree, hr⟩
  · exact Or.inl ⟨hId, run, TrailingRun.mem_scan_of_skip hRun, rfl⟩
  · exact Or.inr ⟨hId, root, o, c, r, hTree, hr, rfl⟩

end Inside

/-! ### Tokens of the edited text -/

/-- A token that all accepted edits spare is found again at its moved offsets. -/
theorem Edit.slice_of_spared {text fixed : List Char} {root : Node} {es : List Edit}
    (hWell : root.WellFormed text) (hOrdered : Ordered es) (hWithin : Within (width text) es)
    (hFixed : spliceAll es (Utf8.encode text) = Utf8.encode fixed) {t : Token}
    (ht : t ∈ (Source.ofText text (some root)).tokens) (hSpares : ∀ e ∈ es, e.Spares t) :
    (Buffer.ofText fixed).slice (moveStart es t.start) (moveStop es t.stop) = t.text := by
  have hInside := Source.inside_of_mem hWell ht
  have hKept : Kept es t.start t.stop := ⟨(Source.orderly_ofText hWell).forward t ht, hSpares⟩
  have hBytes := slice_kept hOrdered hWithin hKept hInside.1 hInside.2
  rw [hFixed] at hBytes
  obtain ⟨_, a, b, rfl⟩ := Source.eq_token_of_mem ht
  exact congrArg Utf8.decodeReplacing hBytes

namespace Analysis

variable {grammar : Grammar} {s : Settings} {rules : List Rule} {path : String} {text : List Char}
  {root : Node} {findings : List Finding}

theorem fix_cases_of_run (hRules : rules ⊆ Standard.rules) (hCheck : s.check rules = .ok ())
    (hRun : (run grammar s rules path text).result = .ok findings) {f : Finding} (hf : f ∈ findings) :
    (f.rule = TrailingSpaces.id ∧
        ∃ run ∈ TrailingRun.scan text false, f.fix.getD [] = [⟨run.start, run.stop, []⟩]) ∨
      (f.rule = CurlySpacing.id ∧ ∃ root o c r, grammar text = some root ∧
        r ∈ CurlySpacing.reports (Source.ofText text (some root)) o c ∧ f.fix.getD [] = r.fix) := by
  obtain ⟨rule, hRule, tree, hFrom, hMakes⟩ := made_of_run hRules hCheck hRun f hf
  rcases hMakes.fix_cases (hRules hRule) with hTrailing | ⟨hId, root, o, c, r, rfl, hr, hFix⟩
  · exact Or.inl hTrailing
  · rcases hFrom with hNone | hTree
    · cases hNone
    · exact Or.inr ⟨hId, root, o, c, r, hTree.symm, hr, hFix⟩

/-- **What a fix does to the tokens**: that of the curly rule spares them all, and that of the trailing
rule deletes one trailing run. -/
theorem spares_or_trims (hTree : grammar text = some root) (hWell : root.WellFormed text)
    (hRules : rules ⊆ Standard.rules) (hCheck : s.check rules = .ok ())
    (hRun : (run grammar s rules path text).result = .ok findings) {f : Finding} (hf : f ∈ findings) :
    (f.rule = CurlySpacing.id ∧
        ∀ e ∈ f.fix.getD [], ∀ t ∈ (Source.ofText text (some root)).tokens, e.Spares t) ∨
      (f.rule = TrailingSpaces.id ∧
        ∃ run ∈ TrailingRun.scan text false, f.fix.getD [] = [⟨run.start, run.stop, []⟩]) := by
  rcases fix_cases_of_run hRules hCheck hRun hf with hTrailing | ⟨hId, root', o, c, r, hTree', hr, hFix⟩
  · exact Or.inr hTrailing
  · obtain rfl := Option.some.inj (hTree.symm.trans hTree')
    refine Or.inl ⟨hId, ?_⟩
    intro e he t ht
    rw [hFix] at he
    exact CurlySpacing.spares_of_mem_reports (Source.orderly_ofText hWell) hr he ht

theorem within_of_run (hTree : grammar text = some root) (hWell : root.WellFormed text)
    (hRules : rules ⊆ Standard.rules) (hCheck : s.check rules = .ok ())
    (hRun : (run grammar s rules path text).result = .ok findings) {e : Edit}
    (he : e ∈ Finding.edits findings) : 0 ≤ e.start ∧ e.stop ≤ width text := by
  obtain ⟨f, hf, he⟩ := Finding.mem_edits.1 he
  rcases fix_cases_of_run hRules hCheck hRun hf with
    ⟨-, run, hMem, hFix⟩ | ⟨-, root', o, c, r, hTree', hr, hFix⟩
  · rw [hFix, List.mem_singleton] at he
    subst he
    exact ⟨Int.natCast_nonneg _, Int.ofNat_le.2 (TrailingSpaces.within_of_mem_scan hMem)⟩
  · obtain rfl := Option.some.inj (hTree.symm.trans hTree')
    rw [hFix] at he
    exact CurlySpacing.within_of_mem_reports hWell hr he

/-- **Autofixes leave the tokens alone, but for the trailing runs that they delete.** The edits of the
curly rule spare all tokens. A finding of the trailing rule has one edit, which deletes a trailing run of
the text. The edits can be applied, and each token that the accepted ones of the trailing rule spare is
found again in the edited text. -/
theorem tokens_of_applied (grammar : Grammar) (s : Settings) (rules : List Rule) (path : String)
    (text : List Char) (root : Node) (findings : List Finding) (hTree : grammar text = some root)
    (hWell : root.WellFormed text) (hRules : rules ⊆ Standard.rules)
    (hCheck : s.check rules = .ok ())
    (hRun : (run grammar s rules path text).result = .ok findings) :
    (∀ f ∈ findings,
      (f.rule = CurlySpacing.id ∧
        ∀ e ∈ f.fix.getD [], ∀ t ∈ (Source.ofText text (some root)).tokens, e.Spares t) ∨
      (f.rule = TrailingSpaces.id ∧
        ∃ run ∈ TrailingRun.scan text false, f.fix.getD [] = [⟨run.start, run.stop, []⟩])) ∧
      ∃ fixed, Edit.applied? text (Finding.edits findings) = some fixed ∧
        ∀ t ∈ (Source.ofText text (some root)).tokens,
          (∀ f ∈ findings, f.rule = TrailingSpaces.id → ∀ e ∈ f.fix.getD [],
            e ∈ (Edit.select (Finding.edits findings)).accepted → e.Spares t) →
            (Buffer.ofText fixed).slice
              (Edit.moveStart (Edit.select (Finding.edits findings)).accepted t.start)
              (Edit.moveStop (Edit.select (Finding.edits findings)).accepted t.stop) = t.text := by
  have hFixes : ∀ f ∈ findings, _ := fun f hf => spares_or_trims hTree hWell hRules hCheck hRun hf
  obtain ⟨fixed, hApplied, hFixed, -⟩ :=
    Edit.applied?_blank fun e he => isBlank_of_run hRules hCheck hRun he
  refine ⟨hFixes, fixed, hApplied, ?_⟩
  intro t ht hTrailing
  apply Edit.slice_of_spared hWell (Edit.ordered_select _) _ hFixed ht
  · -- An accepted edit is one of a finding, and the rule of the finding says why it spares the token.
    intro e he
    obtain ⟨f, hf, hFix⟩ := Finding.mem_edits.1 (Edit.mem_of_mem_select he)
    rcases hFixes f hf with ⟨-, hSpares⟩ | ⟨hId, -⟩
    · exact hSpares e hFix t ht
    · exact hTrailing f hf hId e hFix he
  · intro e he
    exact within_of_run hTree hWell hRules hCheck hRun (Edit.mem_of_mem_select he)

/-- The tree of an object with one name, on a line of its own. -/
def objectTree : Node :=
  ⟨"program", true, 0, 7, [⟨"object", true, 0, 5, [⟨"\x7b", false, 0, 1, []⟩,
    ⟨"shorthand_property_identifier", true, 2, 3, []⟩, ⟨"\x7d", false, 4, 5, []⟩]⟩]⟩

/-- Three edits around the tokens of an object, all of which are found again. -/
theorem tokens_of_applied_object :
    ∃ findings fixed, (run (fun _ => some objectTree) .standard Standard.rules "object.js"
        "{ a }  ".toList).result = .ok findings ∧
      Edit.applied? "{ a }  ".toList (Finding.edits findings) = some fixed ∧
      ∀ t ∈ (Source.ofText "{ a }  ".toList (some objectTree)).tokens,
        (Buffer.ofText fixed).slice
          (Edit.moveStart (Edit.select (Finding.edits findings)).accepted t.start)
          (Edit.moveStop (Edit.select (Finding.edits findings)).accepted t.stop) = t.text := by
  have hCheck : Settings.standard.check Standard.rules = .ok () := by cbv
  obtain ⟨findings, hRun, -⟩ := run_yields (fun _ => some objectTree) "object.js" "{ a }  ".toList
    (List.Subset.refl Standard.rules) hCheck (Or.inr ⟨200, rfl⟩)
  obtain ⟨hFixes, fixed, hApplied, hTokens⟩ := tokens_of_applied (fun _ => some objectTree) .standard
    Standard.rules "object.js" "{ a }  ".toList objectTree findings rfl (by decide)
    (List.Subset.refl _) hCheck hRun
  refine ⟨findings, fixed, hRun, hApplied, ?_⟩
  intro t ht
  apply hTokens t ht
  intro f hf hId e he _
  have hScan : TrailingRun.scan "{ a }  ".toList false = [⟨1, 6, 5, 7⟩] := by rfl
  have hStops : (Source.ofText "{ a }  ".toList (some objectTree)).tokens.map Token.stop =
      [1, 3, 5] := by rw [Source.tokens_ofText]; rfl
  have hStop := List.mem_map_of_mem (f := Token.stop) ht
  rw [hStops] at hStop
  have hLe : ∀ x ∈ [(1 : Int), 3, 5], x ≤ 5 := by decide
  rcases hFixes f hf with ⟨hCurly, -⟩ | ⟨-, run, hMem, hFix⟩
  · exact absurd (hCurly.symm.trans hId) (by decide)
  · rw [hScan, List.mem_singleton] at hMem
    rw [hFix, List.mem_singleton] at he
    subst hMem he
    exact Or.inr (hLe t.stop hStop)

/-- The tree of a template literal that goes over two lines. -/
def templateTree : Node := ⟨"program", true, 0, 7, [⟨"template_string", true, 0, 7, []⟩]⟩

/-- A trailing run inside a template literal is deleted, and with it a part of the literal. -/
theorem template_not_spared :
    templateTree.WellFormed "`a  \nb`".toList ∧ Settings.standard.check Standard.rules = .ok () ∧
      ∃ findings, (run (fun _ => some templateTree) .standard Standard.rules "template.js"
          "`a  \nb`".toList).result = .ok findings ∧
        (∃ e ∈ Finding.edits findings,
          ∃ t ∈ (Source.ofText "`a  \nb`".toList (some templateTree)).tokens, ¬ e.Spares t) ∧
        Edit.applied? "`a  \nb`".toList (Finding.edits findings) = some "`a\nb`".toList := by
  obtain ⟨findings, hRun, hEdits⟩ : ∃ findings, (run (fun _ => some templateTree) .standard
      Standard.rules "template.js" "`a  \nb`".toList).result = .ok findings ∧
      Finding.edits findings = [⟨2, 4, []⟩] :=
    ⟨[(TrailingSpaces.report ⟨1, 3, 2, 4⟩).finding TrailingSpaces.id "template.js" (.text "warn")
      (Buffer.ofText "`a  \nb`".toList)], by cbv, by cbv⟩
  have hTokens : (Source.ofText "`a  \nb`".toList (some templateTree)).tokens =
      [(Buffer.ofText "`a  \nb`".toList).token "template_string" 0 7] := by
    rw [Source.tokens_ofText]
    rfl
  refine ⟨by decide, by cbv, findings, hRun, ?_, ?_⟩
  · rw [hEdits, hTokens]
    exact ⟨_, List.mem_cons_self, _, List.mem_cons_self, by decide⟩
  · rw [hEdits]
    cbv

end Analysis

end TidySpace
