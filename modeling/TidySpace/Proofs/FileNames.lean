import TidySpace.Analysis
import TidySpace.Proofs.Analysis

/-! # The name of a file

The standard rules look at the text of a file and not at its name. Under another name an analysis has
the same findings, up to the name that they carry (`Analysis.run_inFile`), and fixing makes the same
text (`Fixing.run_inFile`). So a file that is listed under two names is fixed to one text.
-/

namespace TidySpace

def Finding.inFile (path : String) (f : Finding) : Finding := { f with file := path }

namespace Finding

variable (path : String) (findings : List Finding)

theorem edits_inFile : edits (findings.map (inFile path)) = edits findings := by
  rw [edits, edits, List.flatMap_map]
  rfl

theorem unsuppressed_inFile (text : List Char) :
    unsuppressed text (findings.map (inFile path)) =
      (unsuppressed text findings).map (inFile path) := by
  rw [unsuppressed, unsuppressed, List.filter_map]
  rfl

theorem sort_inFile : sort (findings.map (inFile path)) = (sort findings).map (inFile path) := by
  rw [sort, sort, List.map_mergeSort (s := before)]
  intro f _ g _
  rfl

end Finding

def FileView.inFile (path : String) (view : FileView) : FileView := { view with path }

/-- Results that are the findings of another computation under another name. -/
abbrev renamed {ε : Type} (path : String) (result : Except ε (List Finding)) :
    Except ε (List Finding) :=
  result.map (List.map (Finding.inFile path))

theorem mapError_renamed {ε ε' : Type} (path : String) (result : Except ε (List Finding))
    (f : ε → ε') : (renamed path result).mapError f = renamed path (result.mapError f) := by
  cases result <;> rfl

/-! ### Rules -/

theorem TrailingSpaces.visit_inFile (path : String) (view : FileView) :
    visit (view.inFile path) = renamed path (visit view) := by
  unfold visit
  by_cases hOther : view.languageName? ≠ some "javascript"
  · rw [if_pos hOther, if_pos (show (view.inFile path).languageName? ≠ _ from hOther)]
    rfl
  · rw [if_neg hOther, if_neg (show ¬ (view.inFile path).languageName? ≠ _ from hOther)]
    have hOptions : (view.inFile path).options = view.options := rfl
    rw [hOptions]
    cases TrailingConfig.read (Rule.givenOptions view.options) with
    | error fault => rfl
    | ok config =>
      refine congrArg Except.ok ?_
      rw [List.map_map]
      rfl

theorem CurlySpacing.visit_inFile (path : String) (view : FileView) :
    visit (view.inFile path) = renamed path (visit view) := by
  obtain ⟨_, text, tree, source, language, options⟩ := view
  show visit ⟨path, text, tree, source, language, options⟩ = _
  rw [visit, visit]
  dsimp only
  split
  next language tree =>
    by_cases hName : language.name = "javascript"
    · rw [if_pos hName, if_pos hName]
      cases readOptions options with
      | error e => rfl
      | ok o =>
        cases language.constructs? with
        | none => rfl
        | some find =>
          refine congrArg Except.ok ?_
          rw [List.map_map]
          rfl
    · rw [if_neg hName, if_neg hName]
      rfl
  next => rfl

theorem Standard.visit_inFile {rule : Rule} (hRule : rule ∈ Standard.rules) (path : String)
    (view : FileView) : rule.visit (view.inFile path) = renamed path (rule.visit view) := by
  rcases Standard.mem_rules.1 hRule with rfl | rfl
  · exact TrailingSpaces.visit_inFile path view
  · exact CurlySpacing.visit_inFile path view

/-! ### Analyses -/

theorem Settings.rate_inFile (s : Settings) (severity : Value) (path : String)
    (findings : List Finding) :
    s.rate severity (findings.map (Finding.inFile path)) =
      renamed path (s.rate severity findings) := by
  rw [rate, rate, List.isEmpty_map]
  split
  next => rfl
  next =>
    cases s.meets severity with
    | error e => rfl
    | ok kept =>
      cases kept with
      | false => rfl
      | true =>
        refine congrArg Except.ok ?_
        rw [if_pos rfl, if_pos rfl, List.map_map, List.map_map]
        rfl

theorem Settings.cut_inFile (limit : Value) (path : String) (findings : List Finding) :
    cut limit (findings.map (Finding.inFile path)) = renamed path (cut limit findings) := by
  cases limit with
  | null => rfl
  | bool b => exact congrArg Except.ok List.map_take.symm
  | int n =>
    refine congrArg Except.ok ?_
    rw [takeTo, takeTo, List.length_map, List.map_take]
  | _ => rfl

theorem Logged.gather_inFile {α : Type} {f g : α → Logged (List Finding)} {path : String}
    {items : List α} (h : ∀ a ∈ items, (f a).result = renamed path (g a).result) :
    (gather f items).result = renamed path (gather g items).result := by
  induction items with
  | nil => rfl
  | cons a rest ih =>
    rw [result_gather_cons, result_gather_cons, h a List.mem_cons_self,
      ih fun b hb => h b (List.mem_cons_of_mem a hb)]
    cases (g a).result with
    | error e => rfl
    | ok here =>
      cases (gather g rest).result with
      | error e => rfl
      | ok there => exact congrArg Except.ok List.map_append.symm

namespace Analysis

variable {s : Settings} {rules : List Rule}

theorem ofRule_inFile {rule : Rule} (hRule : rule ∈ Standard.rules) (path : String)
    (view : FileView) :
    (ofRule s (view.inFile path) rule).result = renamed path (ofRule s view rule).result := by
  rw [ofRule, ofRule]
  show (if rule.needsTree && view.tree.isNone then _ else _ : Logged _).result = _
  split
  next => rfl
  next =>
    rw [Logged.result_bind, Logged.result_bind]
    cases s.optionMapping rule.id with
    | error e => rfl
    | ok options =>
      have hVisit : rule.visit ((view.inFile path).withOptions options) =
          renamed path (rule.visit (view.withOptions options)) :=
        Standard.visit_inFile hRule path (view.withOptions options)
      simp only [Logged.lift, mapError_ok, Except.bind, hVisit]
      cases rule.visit (view.withOptions options) with
      | error e => rfl
      | ok findings =>
        cases s.severityOf rule.id (.text rule.defaultSeverity) with
        | error e => rfl
        | ok severity =>
          have hRate := congrArg (Except.mapError Failure.mismatch)
            (s.rate_inFile severity path findings)
          exact hRate.trans (mapError_renamed ..)

/-- **An analysis under another name** has the same findings under that name. -/
theorem run_inFile (grammar : Grammar) (hRules : rules ⊆ Standard.rules) (path path' : String)
    (text : List Char) :
    (run grammar s rules path text).result =
      renamed path (run grammar s rules path' text).result := by
  rw [run, run, Logged.result_bind, Logged.result_bind]
  cases (parse grammar rules text).result with
  | error e => rfl
  | ok tree =>
    show (Logged.gather (ofRule s ((viewOf path' text tree).inFile path)) rules >>= _).result =
      renamed path (Logged.gather (ofRule s (viewOf path' text tree)) rules >>= _).result
    rw [Logged.result_bind, Logged.result_bind,
      Logged.gather_inFile fun rule hRule => ofRule_inFile (hRules hRule) path _]
    cases (Logged.gather (ofRule s (viewOf path' text tree)) rules).result with
    | error e => rfl
    | ok findings =>
      show (Settings.cut s.maxPerFile (Finding.sort (Finding.unsuppressed text
        (findings.map (Finding.inFile path))))).mapError Failure.mismatch = _
      rw [Finding.unsuppressed_inFile, Finding.sort_inFile, Settings.cut_inFile, mapError_renamed]
      rfl

end Analysis

namespace Fixing

theorem step?_inFile (path : String) (text : List Char) (findings : List Finding) :
    step? text (findings.map (Finding.inFile path)) = step? text findings := by
  rw [step?, step?, Finding.edits_inFile]

theorem passesFrom_inFile {analyze analyze' : List Char → Logged (List Finding)} {path : String}
    (h : ∀ text, (analyze text).result = renamed path (analyze' text).result) (passes : Nat)
    (text : List Char) (findings : List Finding) :
    (passesFrom analyze passes text (findings.map (Finding.inFile path))).result =
      (passesFrom analyze' passes text findings).result.map
        fun r => (r.1, r.2.map (Finding.inFile path)) := by
  induction passes generalizing text findings with
  | zero => rfl
  | succ passes ih =>
    rw [passesFrom, passesFrom, Logged.result_bind, Logged.result_bind, step?_inFile]
    cases step? text findings with
    | error e => rfl
    | ok next =>
      cases next with
      | none => rfl
      | some fixed =>
        show (analyze fixed >>= fun left => passesFrom analyze passes fixed left).result =
          (analyze' fixed >>= fun left => passesFrom analyze' passes fixed left).result.map _
        rw [Logged.result_bind, Logged.result_bind, h fixed]
        cases (analyze' fixed).result with
        | error e => rfl
        | ok left => exact ih fixed left

/-- **Fixing under another name** makes the same text. -/
theorem run_inFile (grammar : Grammar) (s : Settings) {rules : List Rule}
    (hRules : rules ⊆ Standard.rules) (path path' : String) (text : List Char) :
    (run grammar s rules path text).result = (run grammar s rules path' text).result.map
      fun r => (r.1, r.2.map (Finding.inFile path)) := by
  have hAnalyze := fun text => Analysis.run_inFile (s := s) grammar hRules path path' text
  rw [run, run, Logged.result_bind, Logged.result_bind, hAnalyze text]
  cases (Analysis.run grammar s rules path' text).result with
  | error e => rfl
  | ok findings => exact passesFrom_inFile hAnalyze maxPasses text findings

end Fixing

end TidySpace
