import TidySpace.Proofs.Analysis
import TidySpace.Proofs.Positions
import TidySpace.Proofs.Reports

/-! # Checked options

The options of a rule are looked at three times: the check of the settings looks at the value as it
is given, an analysis makes a mapping of it, and the rule reads the mapping again. A value that does
not count as given, a null member or a member under its other name could pass the first and fail a
later one, and only a failure of the rule itself is caught, with a warning. Here it is shown that the
standard rules get through all three alike (`exists_visit`), so that an analysis under checked
settings has a result and gives no warning (`completes_of_check`).

The functions of a source are total because they have an answer for every index. That none of these
answers is made up is said by `Source.Indexed`, whatever the tree.
-/

namespace TidySpace

/-! ### Computations without a warning -/

namespace Logged

variable {α β : Type}

/-- A computation that gives a result and no warning. -/
def Completes (x : Logged α) (a : α) : Prop := x.result = .ok a ∧ x.warnings = []

theorem completes_lift {x : Except Failure α} {a : α} (h : x = .ok a) : (lift x).Completes a :=
  ⟨h, rfl⟩

theorem Completes.bind {x : Logged α} {f : α → Logged β} {a : α} {b : β} (h : x.Completes a)
    (h' : (f a).Completes b) : (x >>= f).Completes b := by
  obtain ⟨hResult, hWarnings⟩ := h
  rw [bind_eq, Completes, andThen, hResult, hWarnings]
  exact h'

theorem exists_completes_gather {f : α → Logged (List β)} {items : List α}
    (h : ∀ a ∈ items, ∃ here, (f a).Completes here) : ∃ all, (gather f items).Completes all := by
  induction items with
  | nil => exact ⟨[], rfl, rfl⟩
  | cons a rest ih =>
    obtain ⟨here, hHere⟩ := h a List.mem_cons_self
    obtain ⟨there, hThere⟩ := ih fun b hb => h b (List.mem_cons_of_mem a hb)
    exact ⟨here ++ there, hHere.bind (hThere.bind ⟨rfl, rfl⟩)⟩

end Logged

/-! ### Reading options again -/

namespace Rule

theorem givenOptions_givenOptions (v : Value) :
    givenOptions (givenOptions v) = givenOptions v := by
  rw [givenOptions, Value.orElse]
  by_cases hGiven : (givenOptions v).isGiven = true
  · rw [if_pos hGiven]
  · rw [if_neg hGiven]
    rw [givenOptions, Value.orElse] at hGiven ⊢
    split at hGiven
    next hHere => exact absurd hHere hGiven
    next hHere => rw [if_neg hHere]

end Rule

theorem TrailingSpaces.visit_viewOf (path : String) (text : List Char) (tree : Option Node)
    {options : Value} {config : TrailingConfig}
    (h : TrailingConfig.read (Rule.givenOptions options) = .ok config) :
    visit ((Analysis.viewOf path text tree).withOptions options) =
      .ok ((TrailingRun.scan text config.skipBlankLines).map fun run =>
        (report run).finding id path (.text "warn") (Buffer.ofText text)) := by
  have hLanguage : ((Analysis.viewOf path text tree).withOptions options).languageName? =
      some "javascript" := rfl
  have hRead : TrailingConfig.read (Rule.givenOptions
      ((Analysis.viewOf path text tree).withOptions options).options) = .ok config := h
  rw [visit, if_neg (not_not_intro hLanguage), hRead]
  rfl

/-- **A standard rule accepts the options that passed its check**, also once they have been made a
mapping, and then fails on no text and on no tree. -/
theorem Standard.exists_visit {rule : Rule} (hRule : rule ∈ Standard.rules)
    {check : Value → Option OptionsFault} (hCheck : rule.check? = some check) {given : Value}
    (hGiven : check given = none) (path : String) (text : List Char) (tree : Option Node) :
    ∃ findings, rule.visit ((Analysis.viewOf path text tree).withOptions
      (Rule.givenOptions given)) = .ok findings := by
  rcases Standard.mem_rules.1 hRule with rfl | rfl
  · cases hCheck
    cases hRead : TrailingConfig.read (Rule.givenOptions given) with
    | error fault =>
      simp only [hRead] at hGiven
      cases hGiven
    | ok config =>
      rw [← Rule.givenOptions_givenOptions] at hRead
      exact ⟨_, TrailingSpaces.visit_viewOf path text tree hRead⟩
  · cases hCheck
    cases hRead : CurlyConfig.read (Rule.givenOptions given) with
    | error fault =>
      simp only [hRead] at hGiven
      cases hGiven
    | ok config =>
      cases tree with
      | none => exact ⟨[], rfl⟩
      | some root =>
        rw [← Rule.givenOptions_givenOptions] at hRead
        exact ⟨_, CurlySpacing.visit_viewOf path text root
          (CurlySpacing.readOptions_of_read hRead)⟩

/-! ### Indices in a source -/

/-- What the functions of a source rely on when they look something up: an offset lies on a line, a
line that begins has a content, and a search ends at a token or right behind the last. -/
structure Source.Indexed (s : Source) : Prop where
  onLine (x : Int) : 0 < s.lineAt (s.clamp x) ∧ s.lineAt (s.clamp x) ≤ s.lineStarts.length
  hasContent : s.lines.length = s.lineStarts.length
  startsBelow (x : Int) : lowerBound s.starts x ≤ s.tokens.length
  stopsBelow (x : Int) : upperBound s.stops x ≤ s.tokens.length

theorem Source.indexed_ofText (text : List Char) (tree : Option Node) :
    (Source.ofText text tree).Indexed where
  onLine x := by
    obtain ⟨front, line, rest, before, after, hSpot⟩ :=
      Buffer.exists_spot (Buffer.clamp_le text x)
    have hLine : (Buffer.ofText text).lineAt ((Buffer.ofText text).clamp x) = front.length + 1 :=
      hSpot.lineAt_eq
    have hBelow := Buffer.length_lt_lineStarts hSpot.pieces
    show 0 < (Buffer.ofText text).lineAt ((Buffer.ofText text).clamp x) ∧
      (Buffer.ofText text).lineAt ((Buffer.ofText text).clamp x) ≤ _
    rw [hLine]
    exact ⟨Nat.succ_pos _, hBelow⟩
  hasContent := by
    show ((Text.split text).map Text.Line.content).length =
      (Text.lineStarts (Utf8.encode text)).length
    rw [Text.lineStarts_encode, List.length_map, List.length_map]
  startsBelow x := by
    have hLength : (ofText text tree).starts.length = (ofText text tree).tokens.length :=
      List.length_map _
    exact hLength ▸ partitionPoint_le _ (Nat.zero_le _)
  stopsBelow x := by
    have hLength : (ofText text tree).stops.length = (ofText text tree).tokens.length :=
      List.length_map _
    exact hLength ▸ partitionPoint_le _ (Nat.zero_le _)

theorem CurlySpacing.exists_firstNamed {c : BraceConstruct} {last : Element}
    (h : c.elements.getLast? = some last) (hNamed : last.kind = .named) :
    ∃ first, firstNamed? c = some first := by
  have hSome : (c.elements.find? (·.kind == .named)).isSome := by
    rw [List.find?_isSome]
    exact ⟨last, List.mem_of_getLast? h, by rw [hNamed]; rfl⟩
  obtain ⟨e, hFind⟩ := Option.isSome_iff_exists.1 hSome
  exact ⟨e.node, by rw [firstNamed?, hFind]; rfl⟩

/-! ### The analysis -/

namespace Analysis

variable {s : Settings} {rules : List Rule}

/-- A rule that is run finds its options as they are given, and they are those that were checked. -/
theorem exists_options (hRules : rules ⊆ Standard.rules) (hCheck : s.check rules = .ok ())
    {rule : Rule} (hRule : rule ∈ rules) (path : String) (text : List Char) :
    ∃ given, s.optionMapping rule.id = .ok (Rule.givenOptions given) ∧
      ∀ tree, ∃ findings, rule.visit ((viewOf path text tree).withOptions
        (Rule.givenOptions given)) = .ok findings := by
  obtain ⟨hChecked, -, -⟩ := Settings.check_eq_ok hCheck
  obtain ⟨check, hHas, hObject⟩ := Standard.check_eq_none (hRules hRule)
  obtain ⟨given, hGiven, hOptions⟩ :=
    Settings.optionMapping_eq_ok hHas hObject (hChecked rule hRule)
  exact ⟨given, hOptions, Standard.exists_visit (hRules hRule) hHas hGiven path text⟩

theorem exists_completes_ofRule (hRules : rules ⊆ Standard.rules)
    (hCheck : s.check rules = .ok ()) {rule : Rule} (hRule : rule ∈ rules) (path : String)
    (text : List Char) (tree : Option Node) :
    ∃ kept, (ofRule s (viewOf path text tree) rule).Completes kept := by
  obtain ⟨given, hOptions, hVisit⟩ := exists_options hRules hCheck hRule path text
  obtain ⟨findings, hVisit⟩ := hVisit tree
  obtain ⟨-, ⟨rows, hRows, hSimple⟩, hThreshold⟩ := Settings.check_eq_ok hCheck
  obtain ⟨severity, hSeverity, hKnown⟩ :=
    Settings.severityOf_eq_ok hRows hSimple rule.id rule.defaultSeverity
  obtain ⟨kept, hKept⟩ := Settings.rate_eq_ok hKnown hThreshold findings
  rw [ofRule]
  by_cases hSkip : (rule.needsTree && (viewOf path text tree).tree.isNone) = true
  · rw [if_pos hSkip]
    exact ⟨[], rfl, rfl⟩
  · rw [if_neg hSkip, hOptions]
    refine ⟨kept, (Logged.completes_lift rfl).bind ?_⟩
    rw [hVisit]
    refine Logged.completes_lift ?_
    rw [hSeverity]
    show (s.rate severity findings).mapError _ = _
    rw [hKept]
    rfl

theorem exists_completes_parse (grammar : Grammar) (rules : List Rule) (text : List Char) :
    ∃ tree, (parse grammar rules text).Completes tree := by
  rw [parse]
  split
  next => exact ⟨grammar text, rfl, rfl⟩
  next => exact ⟨none, rfl, rfl⟩

/-- **Settings that pass the check cannot break a standard rule.** Whatever the text and its tree, if
it has one: the analysis has a result and gives no warning, each rule gets the options that were
checked and accepts them, and nothing is looked up in the source or among the elements of an import
that is not there. -/
theorem completes_of_check (grammar : Grammar) (path : String) (text : List Char)
    (hRules : rules ⊆ Standard.rules) (hCheck : s.check rules = .ok ())
    (hLimit : s.maxPerFile = .null ∨ (∃ n, s.maxPerFile = .int n) ∨ ∃ b, s.maxPerFile = .bool b) :
    (∃ findings, (run grammar s rules path text).result = .ok findings) ∧
      (run grammar s rules path text).warnings = [] ∧
      (∀ rule ∈ rules, ∃ given, s.optionMapping rule.id = .ok (Rule.givenOptions given) ∧
        ∀ tree, ∃ findings, rule.visit ((viewOf path text tree).withOptions
          (Rule.givenOptions given)) = .ok findings) ∧
      (∀ tree, (Source.ofText text tree).Indexed) ∧
      ∀ (root : Node), ∀ c ∈ root.constructs, ∀ last, c.elements.getLast? = some last →
        last.kind = .named → ∃ first, CurlySpacing.firstNamed? c = some first := by
  have hRun : ∃ findings, (run grammar s rules path text).Completes findings := by
    obtain ⟨tree, hTree⟩ := exists_completes_parse grammar rules text
    obtain ⟨found, hFound⟩ := Logged.exists_completes_gather fun rule hRule =>
      exists_completes_ofRule hRules hCheck hRule path text tree
    obtain ⟨kept, hKept⟩ : ∃ kept, Settings.cut s.maxPerFile
        (Finding.sort (Finding.unsuppressed text found)) = .ok kept := by
      rcases hLimit with hNull | hInt | ⟨b, hBool⟩
      · exact Settings.exists_cut (Or.inl hNull) _
      · exact Settings.exists_cut (Or.inr hInt) _
      · rw [hBool]
        exact ⟨_, rfl⟩
    refine ⟨kept, hTree.bind (hFound.bind (Logged.completes_lift ?_))⟩
    rw [hKept]
    rfl
  obtain ⟨findings, hResult, hWarnings⟩ := hRun
  refine ⟨⟨findings, hResult⟩, hWarnings, ?_, Source.indexed_ofText text, ?_⟩
  · exact fun rule hRule => exists_options hRules hCheck hRule path text
  · exact fun root c _ last hLast hNamed => CurlySpacing.exists_firstNamed hLast hNamed

/-- Settings with an option under its other name, one that is null, a rule whose options are null, and
no limit. -/
def looseSettings : Settings :=
  { Settings.plain with
    maxPerFile := .null
    ruleOptions := .object
      [(CurlySpacing.id, .object [("options", .list [.text "always",
          .object [("arrays_in_objects", .bool false), ("ObjectPattern", .null)]])]),
        (TrailingSpaces.id, .null)] }

/-- A tree that runs backwards, with an import whose name lies behind the text and an object whose
members overlap. -/
def strayTree : Node :=
  ⟨"program", true, 5, 2,
    [⟨"import_statement", true, 0, 90,
        [⟨"import_clause", true, 3, 3,
          [⟨"namespace_import", true, 1, 0, []⟩,
            ⟨"named_imports", true, 0, 4, [⟨"import_specifier", true, 50, 40, []⟩]⟩]⟩]⟩,
      ⟨"object", true, 0, 9, [⟨"pair", true, 3, 40, []⟩, ⟨"pair", true, 1, 2, []⟩]⟩]⟩

theorem completes_of_check_stray :
    looseSettings.check Standard.rules = .ok () ∧
      (∃ findings, (run (fun _ => some strayTree) looseSettings Standard.rules "stray.js"
        "{ é }  ".toList).result = .ok findings) ∧
      (run (fun _ => some strayTree) looseSettings Standard.rules "stray.js"
        "{ é }  ".toList).warnings = [] := by
  obtain ⟨hResult, hWarnings, -⟩ := completes_of_check (fun _ => some strayTree) "stray.js"
    "{ é }  ".toList (List.Subset.refl Standard.rules)
    (show looseSettings.check Standard.rules = .ok () from rfl) (Or.inl rfl)
  exact ⟨rfl, hResult, hWarnings⟩

end Analysis

end TidySpace
