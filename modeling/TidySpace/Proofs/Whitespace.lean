import TidySpace.Analysis
import TidySpace.Proofs.BlankEdits
import TidySpace.Proofs.Slices
import TidySpace.Proofs.Lines
import TidySpace.Proofs.Reports

/-! # Fixing changes white space only

Trees are not to be trusted: the range of a node may cut a character or reach past the text. Still
every edit of the two rules is blank. A trailing run stands in the text. A space is put beside a
token that was read as a brace, and what was read as a brace stands in the text as a brace. A gap is
deleted if it was read as white space, and what was read as white space stands there too, because
nothing in it was replaced. So each pass of `Fixing.run` makes a text, and no pass changes the
characters that are no white space (`solid_of_run`).
-/

namespace TidySpace

open Utf8 (width)

/-! ### Edits beside what was read -/

section Read

variable {text : List Char} {kind kind' : String} {a b a' b' : Nat}

theorem isBlank_beside {c : Char} (h : ((Buffer.ofText text).token kind a b).text = [c])
    (hPlain : c ≠ Char.ofNat 0xFFFD) :
    Edit.IsBlank text ⟨a, a, [' ']⟩ ∧ Edit.IsBlank text ⟨b, b, [' ']⟩ := by
  obtain ⟨pre, post, hText, hStart, hStop⟩ := Buffer.cut_of_slice h (List.cons_ne_nil c [])
    (fun hMem => hPlain (List.mem_singleton.1 hMem).symm)
  refine ⟨⟨rfl, Or.inr ⟨[], ⟨pre, [c] ++ post, hText, ?_, ?_⟩, rfl⟩⟩, ⟨rfl, ?_⟩⟩
  · show (a : Int) = width pre
    omega
  · show (a : Int) = width pre + 0
    omega
  · by_cases hPast : width text < b
    · exact Or.inl (Int.ofNat_lt.2 hPast)
    · rw [Nat.min_eq_left (Nat.le_of_not_lt hPast), ← Utf8.width_append] at hStop
      refine Or.inr ⟨[], ⟨pre ++ [c], post, ?_, ?_, ?_⟩, rfl⟩
      · rw [hText, List.append_assoc]
        rfl
      · show (b : Int) = width (pre ++ [c])
        omega
      · show (b : Int) = width (pre ++ [c]) + 0
        omega

theorem isBlank_gap (hBlank : (Buffer.ofText text).gapIsBlank
      ((Buffer.ofText text).token kind a b) ((Buffer.ofText text).token kind' a' b') = true)
    (hSome : (Buffer.ofText text).gap ((Buffer.ofText text).token kind a b)
      ((Buffer.ofText text).token kind' a' b') ≠ []) : Edit.IsBlank text ⟨b, a', []⟩ := by
  obtain ⟨pre, post, hText, hStart, hStop⟩ :=
    Buffer.cut_of_slice rfl hSome (Text.replacement_not_mem hBlank)
  refine ⟨rfl, ?_⟩
  by_cases hPast : width text < a'
  · exact Or.inl (Int.ofNat_lt.2 hPast)
  · rw [Nat.min_eq_left (Nat.le_of_not_lt hPast)] at hStop
    refine Or.inr ⟨_, ⟨pre, post, hText, ?_, ?_⟩, hBlank⟩
    · exact congrArg Int.ofNat hStart
    · exact congrArg Int.ofNat hStop

end Read

theorem Buffer.gap_ne_nil_of_isSpacedPair {b : Buffer} {left right : Token}
    (h : b.isSpacedPair left right = true) : b.gap left right ≠ [] := by
  intro hNil
  rw [isSpacedPair, hNil, Gap.isSpaced, Gap.dropComments] at h
  cases h

/-! ### Edits of the rules -/

theorem TrailingSpaces.isBlank_run {text : List Char} {skip : Bool} {run : TrailingRun}
    (h : run ∈ TrailingRun.scan text skip) : Edit.IsBlank text ⟨run.start, run.stop, []⟩ := by
  obtain ⟨pre, mid, post, hText, hStart, hStop, -, hGap⟩ := TrailingRun.cut_of_mem_scan h
  refine ⟨rfl, Or.inr ⟨mid, ⟨pre, post, hText, ?_, ?_⟩, Text.allBlank_of_isGap hGap⟩⟩
  · exact congrArg Int.ofNat hStart
  · exact congrArg Int.ofNat hStop

namespace CurlySpacing

variable {text : List Char} {tree : Option Node} {o : CurlyOptions} {c : BraceConstruct}

theorem isBlank_brace {left right : Token} {kind : ConstructKind} {braces : Braces} {must : Bool}
    {brace : Int} (hFound : Found (Source.ofText text tree) braces)
    (h : Checked o kind braces left right must brace) : Edit.IsBlank text ⟨brace, brace, [' ']⟩ := by
  cases h with
  | opening =>
    obtain ⟨_, a, b, hEq⟩ := Source.eq_token_of_mem hFound.opening_mem
    have hText := hFound.opening_text
    rw [hEq] at hText ⊢
    exact (isBlank_beside hText (by decide)).2
  | closing =>
    obtain ⟨_, a, b, hEq⟩ := Source.eq_token_of_mem hFound.closing_mem
    have hText := hFound.closing_text
    rw [hEq] at hText ⊢
    exact (isBlank_beside hText (by decide)).1

theorem Checked.mem {left right : Token} {kind : ConstructKind} {braces : Braces} {must : Bool}
    {brace : Int} {s : Source} (hFound : Found s braces)
    (h : Checked o kind braces left right must brace) : left ∈ s.tokens ∧ right ∈ s.tokens := by
  cases h with
  | opening => exact ⟨hFound.opening_mem, Source.mem_of_after? hFound.second⟩
  | closing => exact ⟨Source.mem_of_before? hFound.penultimate, hFound.closing_mem⟩

/-- **The edits of a report are blank.** -/
theorem isBlank_of_mem_reports {r : Report} (h : r ∈ reports (Source.ofText text tree) o c) {e : Edit}
    (he : e ∈ r.fix) : e.IsBlank text := by
  obtain ⟨t, left, right, must, brace, fault, hBraces, hChecked, hFault, hFix⟩ := mem_reports h
  have hFound := found_of_braces? hBraces
  rw [hFix] at he
  rcases mem_mend he with ⟨-, rfl⟩ | ⟨rfl, hBlank, rfl⟩
  · exact isBlank_brace hFound hChecked
  · obtain ⟨-, hMissing | hUnexpected⟩ := Buffer.pairFault?_eq_some hFault
    · cases hMissing.1
    · obtain ⟨hLeft, hRight⟩ := hChecked.mem hFound
      have hSome := Buffer.gap_ne_nil_of_isSpacedPair hUnexpected.2.2
      obtain ⟨_, a, b, rfl⟩ := Source.eq_token_of_mem hLeft
      obtain ⟨_, a', b', rfl⟩ := Source.eq_token_of_mem hRight
      exact isBlank_gap hBlank hSome

end CurlySpacing

/-- **The edits of a standard rule are blank**, whatever the tree and the options. -/
theorem Rule.Makes.isBlank {rule : Rule} (hRule : rule ∈ Standard.rules) {path : String}
    {text : List Char} {tree : Option Node} {f : Finding}
    (h : rule.Makes (Analysis.viewOf path text tree) f) {e : Edit} (he : e ∈ f.fix.getD []) :
    e.IsBlank text := by
  obtain ⟨r, id, severity, rfl, hCases⟩ := h.exists_report hRule
  rw [Report.fix_finding] at he
  rcases hCases with ⟨-, skip, run, hRun, rfl⟩ | ⟨-, root, o, c, -, hr⟩
  · rw [List.mem_singleton.1 he]
    exact TrailingSpaces.isBlank_run hRun
  · exact CurlySpacing.isBlank_of_mem_reports hr he

theorem Analysis.isBlank_of_run {grammar : Grammar} {s : Settings} {rules : List Rule} {path : String}
    {text : List Char} {findings : List Finding} (hRules : rules ⊆ Standard.rules)
    (hCheck : s.check rules = .ok ()) (hRun : (run grammar s rules path text).result = .ok findings)
    {e : Edit} (he : e ∈ Finding.edits findings) : e.IsBlank text := by
  obtain ⟨f, hf, he⟩ := Finding.mem_edits.1 he
  obtain ⟨rule, hRule, tree, -, hMakes⟩ := made_of_run hRules hCheck hRun f hf
  exact hMakes.isBlank (hRules hRule) he

/-! ### Passes -/

namespace Fixing

variable {analyze : List Char → Logged (List Finding)}

/-- All edits of findings change white space of a text at most. -/
def AllBlank (text : List Char) (findings : List Finding) : Prop :=
  ∀ e ∈ Finding.edits findings, e.IsBlank text

theorem step?_of_allBlank {text : List Char} {findings : List Finding} (h : AllBlank text findings) :
    ∃ fixed, step? text findings = .ok fixed ∧
      ∀ new, fixed = some new → Text.solid new = Text.solid text := by
  rw [step?]
  split
  next => exact ⟨none, rfl, by simp⟩
  next =>
    obtain ⟨fixed, hApplied, -, hSolid⟩ := Edit.applied?_blank h
    rw [hApplied]
    refine ⟨_, rfl, fun new hNew => ?_⟩
    split at hNew
    next => cases hNew
    next =>
      cases hNew
      exact hSolid

/-- **Passes keep what is no white space**, as long as each analysis has blank edits only. -/
theorem solid_of_passesFrom
    (hAnalyze : ∀ text, ∃ findings, (analyze text).result = .ok findings ∧ AllBlank text findings)
    (passes : Nat) {text : List Char} {findings : List Finding} (h : AllBlank text findings) :
    ∃ fixed left, (passesFrom analyze passes text findings).result = .ok (fixed, left) ∧
      Text.solid fixed = Text.solid text := by
  induction passes generalizing text findings with
  | zero => exact ⟨text, findings, rfl, rfl⟩
  | succ passes ih =>
    obtain ⟨next, hStep, hSolid⟩ := step?_of_allBlank h
    rw [passesFrom, Logged.result_bind, hStep]
    cases next with
    | none => exact ⟨text, findings, rfl, rfl⟩
    | some new =>
      obtain ⟨found, hFound, hBlank⟩ := hAnalyze new
      obtain ⟨fixed, left, hRest, hKept⟩ := ih hBlank
      refine ⟨fixed, left, ?_, hKept.trans (hSolid new rfl)⟩
      show (analyze new >>= fun left => passesFrom analyze passes new left).result = _
      rw [Logged.result_bind, hFound]
      exact hRest

/-- **Fixing changes white space only.** With settings that pass the check and a limit that is a
number or null, any of the standard rules and any trees, all edits can be made, and the fixed text
has the characters of the text that are no white space. -/
theorem solid_of_run (grammar : Grammar) (s : Settings) (rules : List Rule) (path : String)
    (text : List Char) (hRules : rules ⊆ Standard.rules) (hCheck : s.check rules = .ok ())
    (hLimit : s.maxPerFile = .null ∨ ∃ n, s.maxPerFile = .int n) :
    ∃ fixed left, (run grammar s rules path text).result = .ok (fixed, left) ∧
      Text.solid fixed = Text.solid text := by
  have hAnalyze : ∀ text, ∃ findings, (Analysis.run grammar s rules path text).result = .ok findings ∧
      AllBlank text findings := by
    intro text
    obtain ⟨findings, hResult, -⟩ := Analysis.run_yields grammar path text hRules hCheck hLimit
    exact ⟨findings, hResult, fun e he => Analysis.isBlank_of_run hRules hCheck hResult he⟩
  obtain ⟨findings, hResult, hBlank⟩ := hAnalyze text
  rw [run, Logged.result_bind, hResult]
  exact solid_of_passesFrom hAnalyze maxPasses hBlank

/-- A tree may cut a character and reach past the text. -/
theorem solid_of_run_stray :
    Settings.standard.check Standard.rules = .ok () ∧
      ∃ fixed left, (run (fun _ => some ⟨"object", true, 0, 9, [⟨"pair", true, 3, 40, []⟩]⟩)
          .standard Standard.rules "stray.js" "{ é }  ".toList).result = .ok (fixed, left) ∧
        Text.solid fixed = Text.solid "{ é }  ".toList :=
  ⟨rfl, solid_of_run _ _ _ _ _ (List.Subset.refl _) rfl (Or.inr ⟨200, rfl⟩)⟩

end Fixing

end TidySpace
