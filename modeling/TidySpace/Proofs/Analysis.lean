import TidySpace.Analysis

/-! # What an analysis finds

Settings that pass `Settings.check` never stop an analysis with the standard rules: options are an
object for each of them, and every severity can be looked up. So `Analysis.run` has a result, and
each of its findings is one that a rule made of the text, up to its severity (`run_yields`,
`made_of_run`). Which findings are suppressed, how they are sorted and where they are cut does not
matter for this.
-/

namespace TidySpace

/-! ### Results of computations -/

section Results

variable {ε α β : Type}

theorem bind_eq_ok {x : Except ε α} {f : α → Except ε β} {b : β} (h : x >>= f = .ok b) :
    ∃ a, x = .ok a ∧ f a = .ok b := by
  cases x with
  | error e => cases h
  | ok a => exact ⟨a, rfl, h⟩

theorem guard_eq_ok {c : Prop} [Decidable c] {e : ε} {f : α → Except ε β} {x : Except ε β} {b : β}
    (h : (if c then throw e >>= f else x) = .ok b) : ¬ c ∧ x = .ok b := by
  split at h
  next => cases h
  next hPassed => exact ⟨hPassed, h⟩

theorem mapError_ok (a : α) (f : ε → β) : (Except.ok a : Except ε α).mapError f = .ok a := rfl

theorem mapError_eq_ok {x : Except ε α} {f : ε → β} {a : α} (h : x.mapError f = .ok a) :
    x = .ok a := by
  cases x with
  | error e => cases h
  | ok b =>
    cases h
    rfl

theorem forM_eq_ok {f : α → Except ε Unit} {xs : List α} (h : xs.forM f = .ok ()) :
    ∀ x ∈ xs, f x = .ok () := by
  induction xs with
  | nil => exact fun x hx => absurd hx List.not_mem_nil
  | cons y ys ih =>
    obtain ⟨⟨⟩, hHead, hTail⟩ := bind_eq_ok h
    intro x hx
    rcases List.mem_cons.1 hx with rfl | hx
    · exact hHead
    · exact ih hTail x hx

end Results

namespace Logged

variable {α β : Type}

theorem result_bind (x : Logged α) (f : α → Logged β) :
    (x >>= f).result = x.result.bind fun a => (f a).result :=
  result_andThen x f

theorem result_gather_cons (f : α → Logged (List β)) (a : α) (rest : List α) :
    (gather f (a :: rest)).result =
      (f a).result.bind fun here => (gather f rest).result.bind fun there => .ok (here ++ there) := by
  rw [gather, result_bind]
  congr 1
  funext here
  exact result_bind ..

theorem gather_eq_ok {f : α → Logged (List β)} {g : α → List β} {items : List α}
    (h : ∀ a ∈ items, (f a).result = .ok (g a)) :
    (gather f items).result = .ok (items.flatMap g) := by
  induction items with
  | nil => rfl
  | cons a rest ih =>
    rw [result_gather_cons, h a List.mem_cons_self, ih fun b hb => h b (List.mem_cons_of_mem a hb),
      List.flatMap_cons]
    rfl

theorem warnings_bind {x : Logged α} {a : α} (h : x.result = .ok a) (f : α → Logged β) :
    (x >>= f).warnings = x.warnings ++ (f a).warnings := by
  rw [bind_eq, andThen, h]

/-- What gives no warning after a computation adds none, also if the computation fails. -/
theorem warnings_bind_of_silent (x : Logged α) {f : α → Logged β} (h : ∀ a, (f a).warnings = []) :
    (x >>= f).warnings = x.warnings := by
  cases hResult : x.result with
  | error e => rw [bind_eq, andThen, hResult]
  | ok a => rw [warnings_bind hResult, h, List.append_nil]

theorem warnings_gather {f : α → Logged (List β)} {items : List α}
    (h : ∀ a ∈ items, ∃ here, (f a).result = .ok here) :
    (gather f items).warnings = items.flatMap fun a => (f a).warnings := by
  induction items with
  | nil => rfl
  | cons a rest ih =>
    obtain ⟨here, hHere⟩ := h a List.mem_cons_self
    rw [gather, warnings_bind hHere, warnings_bind_of_silent _ fun _ => rfl,
      ih fun b hb => h b (List.mem_cons_of_mem a hb), List.flatMap_cons]

def listed (x : Logged (List β)) : List β := x.result.toOption.getD []

theorem listed_of_ok {x : Logged (List β)} {bs : List β} (h : x.result = .ok bs) : x.listed = bs := by
  rw [listed, h]
  rfl

theorem of_gather_eq_ok {f : α → Logged (List β)} {items : List α} {all : List β}
    (h : (gather f items).result = .ok all) :
    (∀ a ∈ items, (f a).result = .ok (f a).listed) ∧ all = items.flatMap fun a => (f a).listed := by
  induction items generalizing all with
  | nil =>
    cases h
    exact ⟨fun a ha => absurd ha List.not_mem_nil, rfl⟩
  | cons a rest ih =>
    rw [result_gather_cons] at h
    obtain ⟨here, hHere, h⟩ := bind_eq_ok h
    obtain ⟨there, hThere, h⟩ := bind_eq_ok h
    cases h
    obtain ⟨hRest, rfl⟩ := ih hThere
    have hListed := listed_of_ok hHere
    refine ⟨List.forall_mem_cons.2 ⟨hListed.symm ▸ hHere, hRest⟩, ?_⟩
    rw [List.flatMap_cons, hListed]

/-- A computation that gives a list, all of whose items satisfy `p`. -/
def Yields (x : Logged (List β)) (p : β → Prop) : Prop := ∃ bs, x.result = .ok bs ∧ ∀ b ∈ bs, p b

theorem yields_nil (p : β → Prop) : (done [] : Logged (List β)).Yields p :=
  ⟨[], rfl, fun _ hb => absurd hb List.not_mem_nil⟩

theorem gather_yields {f : α → Logged (List β)} {p : β → Prop} {items : List α}
    (h : ∀ a ∈ items, (f a).Yields p) : (gather f items).Yields p := by
  induction items with
  | nil => exact yields_nil p
  | cons a rest ih =>
    obtain ⟨here, hHere, hHereAll⟩ := h a List.mem_cons_self
    obtain ⟨there, hThere, hThereAll⟩ := ih fun b hb => h b (List.mem_cons_of_mem a hb)
    refine ⟨here ++ there, ?_, ?_⟩
    · rw [gather, result_bind, hHere]
      show (gather f rest >>= fun there => pure (here ++ there)).result = _
      rw [result_bind, hThere]
      rfl
    · intro b hb
      rcases List.mem_append.1 hb with hb | hb
      · exact hHereAll b hb
      · exact hThereAll b hb

end Logged

/-! ### Settings that pass the check -/

theorem Members.mem_of_get? {ms : Members} {key : String} {v : Value} (h : ms.get? key = some v) :
    (key, v) ∈ ms := by
  induction ms with
  | nil => cases h
  | cons m ms ih =>
    rw [get?_cons] at h
    split at h
    next hKey =>
      cases h
      rw [hKey]
      exact List.mem_cons_self
    next => exact List.mem_cons_of_mem m (ih h)

theorem Rows.mem_of_get? {rows : Rows} {key v : Value} (h : rows.get? key = some v) :
    ∃ r ∈ rows, r.2 = v := by
  obtain ⟨r, hFind, hv⟩ := Option.map_eq_some_iff.1 h
  exact ⟨r, List.mem_of_find?_eq_some hFind, hv⟩

namespace Settings

variable {s : Settings} {rules : List Rule} {rule : Rule}

theorem checkSeverity_eq_ok {severity : Value} {fault : Failure}
    (h : checkSeverity severity fault = .ok ()) : severity.isContainer = false := by
  rw [checkSeverity] at h
  split at h
  next => cases h
  next hSimple => exact Bool.eq_false_iff.2 hSimple

/-- What the check of settings says: rules have options that they accept, and severities can be
looked up. -/
theorem check_eq_ok (h : s.check rules = .ok ()) :
    (∀ rule ∈ rules, s.checkRule rule = .ok ()) ∧
      (∃ rows, s.severities.rows? = .ok rows ∧ ∀ r ∈ rows, r.2.isContainer = false) ∧
      s.threshold.isContainer = false := by
  obtain ⟨⟨⟩, hRules, h⟩ := bind_eq_ok h
  obtain ⟨rows, hRows, h⟩ := bind_eq_ok h
  obtain ⟨⟨⟩, hSeverities, hThreshold⟩ := bind_eq_ok h
  refine ⟨forM_eq_ok hRules, ⟨rows, mapError_eq_ok hRows, ?_⟩, checkSeverity_eq_ok hThreshold⟩
  exact fun r hr => checkSeverity_eq_ok (forM_eq_ok hSeverities r hr)

theorem optionMapping_eq_ok {check : Value → Option OptionsFault} (hCheck : rule.check? = some check)
    (hObject : ∀ v, check v = none → ∃ ms, Rule.givenOptions v = .object ms)
    (h : s.checkRule rule = .ok ()) :
    ∃ given, check given = none ∧ s.optionMapping rule.id = .ok (Rule.givenOptions given) := by
  rw [checkRule, hCheck] at h
  obtain ⟨given, hGiven, h⟩ := bind_eq_ok h
  have hNone : check given = none := by
    cases hFault : check given with
    | none => rfl
    | some fault =>
      rw [hFault] at h
      cases h
  obtain ⟨ms, hms⟩ := hObject given hNone
  refine ⟨given, hNone, ?_⟩
  rw [optionMapping, mapError_eq_ok hGiven]
  show (Rule.givenOptions given).mapping? >>= (fun rows => .ok (Value.ofRows rows)) = _
  rw [hms]
  exact congrArg Except.ok (Value.ofRows_map_text ms)

theorem severityOf_eq_ok {rows : Rows} (hRows : s.severities.rows? = .ok rows)
    (hSimple : ∀ r ∈ rows, r.2.isContainer = false) (id default : String) :
    ∃ v, s.severityOf id (.text default) = .ok v ∧ v.isContainer = false := by
  rw [severityOf]
  split
  next => exact ⟨_, rfl, rfl⟩
  next =>
    cases hSeverities : s.severities with
    | object ms =>
      rw [hSeverities] at hRows
      cases hRows
      refine ⟨_, rfl, ?_⟩
      cases hGet : Members.get? ms id with
      | none => rfl
      | some v =>
        exact hSimple (.text id, v) (List.mem_map_of_mem (Members.mem_of_get? hGet))
    | table rows' =>
      rw [hSeverities] at hRows
      cases hRows
      refine ⟨_, rfl, ?_⟩
      cases hGet : Rows.get? rows (.text id) with
      | none => rfl
      | some v =>
        obtain ⟨r, hr, rfl⟩ := Rows.mem_of_get? hGet
        exact hSimple r hr
    | _ =>
      rw [hSeverities] at hRows
      cases hRows

theorem rankOr_eq_ok {v : Value} (h : v.isContainer = false) (default : Nat) :
    rankOr default v = .ok ((rank? v).getD default) := by
  rw [rankOr, h]
  rfl

theorem rate_eq_ok {severity : Value} (h : severity.isContainer = false)
    (hThreshold : s.threshold.isContainer = false) (findings : List Finding) :
    ∃ kept, s.rate severity findings = .ok kept := by
  rw [rate]
  split
  next => exact ⟨[], rfl⟩
  next =>
    rw [meets, rankOr_eq_ok h, rankOr_eq_ok hThreshold]
    exact ⟨_, rfl⟩

theorem mem_of_rate {severity : Value} {findings kept : List Finding}
    (h : s.rate severity findings = .ok kept) {f : Finding} (hf : f ∈ kept) :
    ∃ g ∈ findings, f = { g with severity } := by
  rw [rate] at h
  split at h
  next =>
    cases h
    exact absurd hf List.not_mem_nil
  next =>
    obtain ⟨reached, -, h⟩ := bind_eq_ok h
    cases h
    split at hf
    next =>
      obtain ⟨g, hg, rfl⟩ := List.mem_map.1 hf
      exact ⟨g, hg, rfl⟩
    next => exact absurd hf List.not_mem_nil

theorem exists_cut {limit : Value} (h : limit = .null ∨ ∃ n, limit = .int n)
    (findings : List Finding) : ∃ kept, cut limit findings = .ok kept := by
  rcases h with rfl | ⟨n, rfl⟩
  · exact ⟨findings, rfl⟩
  · exact ⟨takeTo findings n, rfl⟩

theorem cut_sublist {limit : Value} {findings kept : List Finding}
    (h : cut limit findings = .ok kept) : kept.Sublist findings := by
  cases limit with
  | null =>
    cases h
    exact List.Sublist.refl _
  | bool b =>
    cases h
    exact List.take_sublist _ _
  | int n =>
    cases h
    exact List.take_sublist _ _
  | _ => cases h

end Settings

/-! ### The standard rules -/

def Standard.rules : List Rule := Standard.registry.rules.map Listed.item

theorem Standard.mem_rules {rule : Rule} :
    rule ∈ Standard.rules ↔ rule = TrailingSpaces.rule ∨ rule = CurlySpacing.rule := by
  show rule ∈ [TrailingSpaces.rule, CurlySpacing.rule] ↔ _
  rw [List.mem_cons, List.mem_singleton]

theorem Standard.check_eq_none {rule : Rule} (h : rule ∈ Standard.rules) :
    ∃ check, rule.check? = some check ∧
      ∀ v, check v = none → ∃ ms, Rule.givenOptions v = .object ms := by
  rcases mem_rules.1 h with rfl | rfl
  · refine ⟨_, rfl, fun v hv => ?_⟩
    cases hGiven : Rule.givenOptions v with
    | object ms => exact ⟨ms, rfl⟩
    | _ =>
      rw [hGiven] at hv
      cases hv
  · refine ⟨_, rfl, fun v hv => ?_⟩
    cases hGiven : Rule.givenOptions v with
    | object ms => exact ⟨ms, rfl⟩
    | _ =>
      rw [hGiven] at hv
      cases hv

/-- A finding that a rule makes of a file under some options, with any severity. -/
def Rule.Makes (rule : Rule) (view : FileView) (f : Finding) : Prop :=
  ∃ options findings g severity, rule.visit (view.withOptions options) = .ok findings ∧
    g ∈ findings ∧ f = { g with severity }

namespace Analysis

variable {s : Settings} {rules : List Rule}

theorem makes_of_ofRule {view : FileView} {rule : Rule} {findings : List Finding}
    (h : (ofRule s view rule).result = .ok findings) : ∀ f ∈ findings, rule.Makes view f := by
  rw [ofRule] at h
  split at h
  next =>
    cases h
    exact fun f hf => absurd hf List.not_mem_nil
  next =>
    rw [Logged.result_bind] at h
    obtain ⟨options, -, h⟩ := bind_eq_ok h
    cases hVisit : rule.visit (view.withOptions options) with
    | error e =>
      rw [hVisit] at h
      cases h
      exact fun f hf => absurd hf List.not_mem_nil
    | ok made =>
      rw [hVisit] at h
      obtain ⟨severity, -, h⟩ := bind_eq_ok (mapError_eq_ok h)
      intro f hf
      obtain ⟨g, hg, hEq⟩ := Settings.mem_of_rate h hf
      exact ⟨options, made, g, severity, hVisit, hg, hEq⟩

theorem ofRule_yields (view : FileView) {rule : Rule} (hRule : rule ∈ rules)
    (hStandard : rule ∈ Standard.rules) (hCheck : s.check rules = .ok ()) :
    (ofRule s view rule).Yields (rule.Makes view) := by
  obtain ⟨hRules, ⟨rows, hRows, hSimple⟩, hThreshold⟩ := Settings.check_eq_ok hCheck
  obtain ⟨check, hCheck, hObject⟩ := Standard.check_eq_none hStandard
  obtain ⟨given, -, hOptions⟩ := Settings.optionMapping_eq_ok hCheck hObject (hRules rule hRule)
  obtain ⟨kept, hKept⟩ : ∃ kept, (ofRule s view rule).result = .ok kept := by
    rw [ofRule]
    split
    next => exact ⟨[], rfl⟩
    next =>
      rw [hOptions, Logged.result_bind]
      cases hVisit : rule.visit (view.withOptions (Rule.givenOptions given)) with
      | error e => exact ⟨[], by simp only [Logged.lift, mapError_ok, Except.bind, hVisit]; rfl⟩
      | ok findings =>
        obtain ⟨severity, hSeverity, hKnown⟩ :=
          Settings.severityOf_eq_ok hRows hSimple rule.id rule.defaultSeverity
        obtain ⟨kept, hKept⟩ := Settings.rate_eq_ok hKnown hThreshold findings
        refine ⟨kept, ?_⟩
        simp only [Logged.lift, mapError_ok, Except.bind, hVisit, hSeverity]
        show (s.rate severity findings).mapError _ = _
        rw [hKept]
        rfl
  exact ⟨kept, hKept, makes_of_ofRule hKept⟩

theorem parse_result (grammar : Grammar) (rules : List Rule) (text : List Char) :
    ∃ tree, (parse grammar rules text).result = .ok tree ∧ (tree = none ∨ tree = grammar text) := by
  rw [parse]
  split
  next => exact ⟨grammar text, rfl, Or.inr rfl⟩
  next => exact ⟨none, rfl, Or.inl rfl⟩

/-- What a rule sees of a JavaScript text in an analysis, before it gets its options. -/
def viewOf (path : String) (text : List Char) (tree : Option Node) : FileView :=
  .ofText path text tree (some Language.javascript) .null

theorem result_run {grammar : Grammar} {path : String} {text : List Char} {tree : Option Node}
    {findings : List Finding} (hTree : (parse grammar rules text).result = .ok tree)
    (hFound : (Logged.gather (ofRule s (viewOf path text tree)) rules).result = .ok findings) :
    (run grammar s rules path text).result = (Settings.cut s.maxPerFile
      (Finding.sort (Finding.unsuppressed text findings))).mapError .mismatch := by
  rw [run, Logged.result_bind, hTree]
  show (Logged.gather (ofRule s (viewOf path text tree)) rules >>= _).result = _
  rw [Logged.result_bind, hFound]
  rfl

/-- What an analysis with a result has gone through. -/
theorem run_eq_ok {grammar : Grammar} {path : String} {text : List Char} {findings : List Finding}
    (h : (run grammar s rules path text).result = .ok findings) :
    ∃ tree found, (parse grammar rules text).result = .ok tree ∧
      (Logged.gather (ofRule s (viewOf path text tree)) rules).result = .ok found ∧
      Settings.cut s.maxPerFile (Finding.sort (Finding.unsuppressed text found)) = .ok findings := by
  rw [run, Logged.result_bind] at h
  obtain ⟨tree, hTree, h⟩ := bind_eq_ok h
  rw [Logged.result_bind] at h
  obtain ⟨found, hFound, h⟩ := bind_eq_ok h
  exact ⟨tree, found, hTree, hFound, mapError_eq_ok h⟩

/-- **With settings that pass the check, an analysis fails at its limit at most**, and what it cuts
there are findings that its rules made of the text. -/
theorem run_result (grammar : Grammar) (path : String) (text : List Char)
    (hRules : rules ⊆ Standard.rules) (hCheck : s.check rules = .ok ()) :
    ∃ found, (run grammar s rules path text).result =
        (Settings.cut s.maxPerFile found).mapError .mismatch ∧
      ∀ f ∈ found, ∃ rule ∈ rules, ∃ tree, (tree = none ∨ tree = grammar text) ∧
        rule.Makes (viewOf path text tree) f := by
  obtain ⟨tree, hTree, hFrom⟩ := parse_result grammar rules text
  have hGather : (Logged.gather (ofRule s (viewOf path text tree)) rules).Yields fun f =>
      ∃ rule ∈ rules, ∃ tree, (tree = none ∨ tree = grammar text) ∧
        rule.Makes (viewOf path text tree) f := by
    refine Logged.gather_yields fun rule hRule => ?_
    obtain ⟨findings, hResult, hAll⟩ :=
      ofRule_yields (viewOf path text tree) hRule (hRules hRule) hCheck
    exact ⟨findings, hResult, fun f hf => ⟨rule, hRule, tree, hFrom, hAll f hf⟩⟩
  obtain ⟨findings, hResult, hAll⟩ := hGather
  refine ⟨Finding.sort (Finding.unsuppressed text findings), result_run hTree hResult, fun f hf => ?_⟩
  exact hAll f (List.mem_filter.1 (List.mem_mergeSort.1 hf)).1

/-- With a limit that is a number or null, there is a result. -/
theorem run_yields (grammar : Grammar) (path : String) (text : List Char)
    (hRules : rules ⊆ Standard.rules) (hCheck : s.check rules = .ok ())
    (hLimit : s.maxPerFile = .null ∨ ∃ n, s.maxPerFile = .int n) :
    (run grammar s rules path text).Yields fun f => ∃ rule ∈ rules, ∃ tree,
      (tree = none ∨ tree = grammar text) ∧ rule.Makes (viewOf path text tree) f := by
  obtain ⟨found, hRun, hMade⟩ := run_result grammar path text hRules hCheck
  obtain ⟨kept, hKept⟩ := Settings.exists_cut hLimit found
  refine ⟨kept, ?_, fun f hf => hMade f ((Settings.cut_sublist hKept).subset hf)⟩
  rw [hRun, hKept]
  rfl

/-- The findings of an analysis are made by its rules, whatever its limit. -/
theorem made_of_run {grammar : Grammar} {path : String} {text : List Char} {findings : List Finding}
    (hRules : rules ⊆ Standard.rules) (hCheck : s.check rules = .ok ())
    (hRun : (run grammar s rules path text).result = .ok findings) :
    ∀ f ∈ findings, ∃ rule ∈ rules, ∃ tree, (tree = none ∨ tree = grammar text) ∧
      rule.Makes (viewOf path text tree) f := by
  obtain ⟨found, hResult, hMade⟩ := run_result grammar path text hRules hCheck
  have hCut := mapError_eq_ok (hResult.symm.trans hRun)
  exact fun f hf => hMade f ((Settings.cut_sublist hCut).subset hf)

end Analysis

end TidySpace
