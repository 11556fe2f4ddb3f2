import Mathlib
import TidySpace.Proofs.Exceptions
import TidySpace.Proofs.Sides

/-! # Options act locally

What an option changes is confined to the sides that it is about. The policy of a kind of construct is
asked of no construct of another kind. A flag is asked of closing sides only, and there only behind a
closing bracket or brace; where it agrees with the main policy it is not in force at all. So two runs with
the same main policy, compared side by side, differ at most where their options do (`visit_local`).
-/

namespace TidySpace

def CurlyOptions.hasException (o : CurlyOptions) : CurlyFlag → Bool
  | .arraysInObjects => o.arraysException
  | .objectsInObjects => o.objectsException

namespace CurlySpacing

open CurlyExceptions

/-! ### What options ask of a side -/

section Options

variable {config config' : CurlyConfig} {kind : ConstructKind} {flag : CurlyFlag}

def mainSpaced (config : CurlyConfig) : Bool := config.policy.elim false Policy.spaced

theorem forKind_ofConfig (config : CurlyConfig) (kind : ConstructKind) :
    (CurlyOptions.ofConfig config).forKind kind =
      (config.exceptions.policyFor kind).elim (mainSpaced config) Policy.spaced := by
  cases kind <;> rfl

theorem hasException_ofConfig (config : CurlyConfig) (flag : CurlyFlag) :
    (CurlyOptions.ofConfig config).hasException flag =
      (config.exceptions.flagFor flag == some (!mainSpaced config)) := by
  cases flag <;> rfl

theorem forKind_congr (hPolicy : config.policy = config'.policy)
    (h : config.exceptions.policyFor kind = config'.exceptions.policyFor kind) :
    (CurlyOptions.ofConfig config).forKind kind = (CurlyOptions.ofConfig config').forKind kind := by
  rw [forKind_ofConfig, forKind_ofConfig, mainSpaced, mainSpaced, hPolicy, h]

theorem hasException_congr (hPolicy : config.policy = config'.policy)
    (h : config.exceptions.flagFor flag = config'.exceptions.flagFor flag) :
    (CurlyOptions.ofConfig config).hasException flag =
      (CurlyOptions.ofConfig config').hasException flag := by
  rw [hasException_ofConfig, hasException_ofConfig, mainSpaced, mainSpaced, hPolicy, h]

theorem hasException_of_idle {policy : Policy} {ms : Members} (hReads : Reads ms config.exceptions)
    (hPolicy : config.policy = some policy) (hIdle : Idle policy (given? ms flag.keys)) :
    (CurlyOptions.ofConfig config).hasException flag = false := by
  rw [hasException_ofConfig, mainSpaced, hPolicy]
  exact hIdle.read (hReads.flag flag)

variable {o o' : CurlyOptions} {t : Braces} {side : Side}

/-- Of a side it is asked what its kind must be, and which flags are in force. -/
theorem mustBeSpaced_congr (hKind : o.forKind kind = o'.forKind kind)
    (hFlags : ∀ flag, o.hasException flag = o'.hasException flag) :
    mustBeSpaced o kind t side = mustBeSpaced o' kind t side := by
  cases side with
  | opening => exact hKind
  | closing =>
    have hArrays : o.arraysException = o'.arraysException := hFlags .arraysInObjects
    have hObjects : o.objectsException = o'.objectsException := hFlags .objectsInObjects
    rw [mustBeSpaced, mustBeSpaced, closingSpaced, closingSpaced, hArrays, hObjects, hKind]

def closes (t : Token) : Bool := t.text == [']'] || t.text == ['\x7d']

theorem closingSpaced_of_not_closes {left : Token} (h : closes left = false) :
    closingSpaced o kind left = o.forKind kind := by
  obtain ⟨hBracket, hBrace⟩ := Bool.or_eq_false_iff.1 h
  rw [closingSpaced, hBracket, hBrace, Bool.and_false, Bool.and_false]
  rfl

end Options

/-! ### Two runs -/

variable {path : String} {text : List Char} {root : Node} {o o' : CurlyOptions} {c : BraceConstruct}
  {side : Side} {t : Braces} {f : Finding} {keep : Finding → Bool}

/-- Of a side the same finding is kept if the same is asked of it, or if none of its findings is. -/
theorem filter_finding?_congr
    (h : ∀ t, braces? (Source.ofText text (some root)) c = some t →
      mustBeSpaced o c.kind t side = mustBeSpaced o' c.kind t side ∨
        ∀ o f, finding? path text root o (c, side) = some f → keep f = false) :
    (finding? path text root o (c, side)).filter keep =
      (finding? path text root o' (c, side)).filter keep := by
  by_cases hSame : ∀ t, braces? (Source.ofText text (some root)) c = some t →
      mustBeSpaced o c.kind t side = mustBeSpaced o' c.kind t side
  · rw [finding?, finding?, report?_congr hSame]
  · obtain ⟨t, hBraces, hne⟩ : ∃ t, braces? (Source.ofText text (some root)) c = some t ∧
        mustBeSpaced o c.kind t side ≠ mustBeSpaced o' c.kind t side := by
      simpa only [not_forall, exists_prop] using hSame
    have hNone := (h t hBraces).resolve_left hne
    have hFilter : ∀ o, (finding? path text root o (c, side)).filter keep = none := by
      intro o
      rw [Option.filter_eq_none_iff]
      intro f hf
      rw [hNone o f hf]
      decide
    rw [hFilter, hFilter]

theorem filter_findings_congr (h : ∀ c ∈ root.constructs, ∀ side,
    (finding? path text root o (c, side)).filter keep =
      (finding? path text root o' (c, side)).filter keep) :
    ((sides root).filterMap (finding? path text root o)).filter keep =
      ((sides root).filterMap (finding? path text root o')).filter keep := by
  rw [List.filter_filterMap, List.filter_filterMap]
  refine List.filterMap_congr fun p hp => ?_
  obtain ⟨c, hc, hp⟩ := List.mem_flatMap.1 hp
  rcases List.mem_cons.1 hp with rfl | hp
  · exact h c hc .opening
  · rw [List.mem_singleton.1 hp]
    exact h c hc .closing

def followsClosing (s : Source) (f : Finding) : Bool := (s.before? f.start).any closes

theorem followsClosing_eq (hBraces : braces? (Source.ofText text (some root)) c = some t)
    (h : finding? path text root o (c, .closing) = some f) :
    followsClosing (Source.ofText text (some root)) f = closes t.penultimate := by
  obtain ⟨u, hBraces', hStart, -⟩ := of_finding? h
  obtain rfl := Option.some.inj (hBraces.symm.trans hBraces')
  rw [followsClosing, hStart]
  show Option.any closes ((Source.ofText text (some root)).before? t.closing.start) = _
  rw [(found_of_braces? hBraces).penultimate]
  rfl

section Agree

variable {config config' : CurlyConfig} {ms ms' : Members} (hReads : Reads ms config.exceptions)
  (hReads' : Reads ms' config'.exceptions) (hPolicy : config.policy = config'.policy)
include hReads hReads' hPolicy

/-- **The policy of a kind** is asked of the constructs of that kind. -/
theorem filter_of_agreeBut_kind {kind : ConstructKind} (hAgree : AgreeBut [kind.keys] ms ms') :
    ((sides root).filterMap (finding? path text root (.ofConfig config))).filter
        (fun f => !f.tells "construct" kind.name) =
      ((sides root).filterMap (finding? path text root (.ofConfig config'))).filter
        (fun f => !f.tells "construct" kind.name) := by
  refine filter_findings_congr fun c _ side => filter_finding?_congr fun t _ => ?_
  by_cases hKind : c.kind = kind
  · right
    intro o f hf
    rw [(tells_of_finding? hf kind.name).1, hKind, beq_self_eq_true, Bool.not_true]
  · left
    refine mustBeSpaced_congr (forKind_congr hPolicy ?_) fun flag => hasException_congr hPolicy ?_
    · refine hAgree.policyFor_eq hReads hReads' fun hMem => ?_
      exact hKind (keys_kind_injective (List.mem_singleton.1 hMem))
    · refine hAgree.flagFor_eq hReads hReads' fun hMem => ?_
      exact keys_flag_ne_kind flag kind (List.mem_singleton.1 hMem)

/-- **The flags** are asked of closing sides behind a closing bracket or brace. -/
theorem filter_of_agreeBut_flags {ks : List (String × String)} (hAgree : AgreeBut ks ms ms')
    (hKeys : ∀ kind : ConstructKind, kind.keys ∉ ks)
    (hKeep : ∀ f, f.tells "side" "closing" = true →
      followsClosing (Source.ofText text (some root)) f = true → keep f = false) :
    ((sides root).filterMap (finding? path text root (.ofConfig config))).filter keep =
      ((sides root).filterMap (finding? path text root (.ofConfig config'))).filter keep := by
  refine filter_findings_congr fun c _ side => filter_finding?_congr fun t hBraces => ?_
  have hKind : (CurlyOptions.ofConfig config).forKind c.kind =
      (CurlyOptions.ofConfig config').forKind c.kind :=
    forKind_congr hPolicy (hAgree.policyFor_eq hReads hReads' (hKeys c.kind))
  cases side with
  | opening => exact Or.inl hKind
  | closing =>
    cases hCloses : closes t.penultimate with
    | false =>
      left
      rw [mustBeSpaced, mustBeSpaced, closingSpaced_of_not_closes hCloses,
        closingSpaced_of_not_closes hCloses, hKind]
    | true =>
      right
      intro o f hf
      refine hKeep f ?_ ((followsClosing_eq hBraces hf).trans hCloses)
      rw [(tells_of_finding? hf "closing").2]
      rfl

/-- **A flag that is idle** changes nothing. -/
theorem findings_of_idle {flag : CurlyFlag} {policy : Policy} (hMain : config.policy = some policy)
    (hAgree : AgreeBut [flag.keys] ms ms') (hIdle : Idle policy (given? ms flag.keys))
    (hIdle' : Idle policy (given? ms' flag.keys)) :
    (sides root).filterMap (finding? path text root (.ofConfig config)) =
      (sides root).filterMap (finding? path text root (.ofConfig config')) := by
  have hMust : ∀ kind t side, mustBeSpaced (.ofConfig config) kind t side =
      mustBeSpaced (.ofConfig config') kind t side := by
    intro kind t side
    refine mustBeSpaced_congr (forKind_congr hPolicy ?_) fun other => ?_
    · refine hAgree.policyFor_eq hReads hReads' fun hMem => ?_
      exact keys_flag_ne_kind flag kind (List.mem_singleton.1 hMem).symm
    · by_cases hSame : other = flag
      · rw [hSame, hasException_of_idle hReads hMain hIdle,
          hasException_of_idle hReads' (hPolicy ▸ hMain) hIdle']
      · refine hasException_congr hPolicy (hAgree.flagFor_eq hReads hReads' fun hMem => ?_)
        exact hSame (keys_flag_injective (List.mem_singleton.1 hMem))
  refine List.filterMap_congr fun p _ => ?_
  rw [finding?, finding?, report?_congr fun t _ => hMust p.1.kind t p.2]

end Agree

/-- **A flag that is left out** can be set to null, or to what agrees with the main policy, and changes
nothing then. -/
theorem visit_put {config : CurlyConfig} {ms : Members} {policy : Policy} {flag : CurlyFlag} {key : String}
    {v : Value} (hReads : Reads ms config.exceptions) (hMain : config.policy = some policy)
    (hNone : given? ms flag.keys = none) (hKey : key = flag.keys.1 ∨ key = flag.keys.2)
    (hValue : v = .null ∨ v = .bool policy.spaced) :
    visit ((Analysis.viewOf path text (some root)).withOptions (optionsOf
      [.text policy.name, .object (Members.put key v ms)])) =
        .ok ((sides root).filterMap (finding? path text root (.ofConfig config))) := by
  obtain ⟨x, hFlag⟩ : ∃ x, readFlag v = .ok x := by
    rcases hValue with rfl | rfl
    · exact ⟨none, rfl⟩
    · exact ⟨some policy.spaced, rfl⟩
  obtain ⟨e, hPut⟩ := hReads.put hNone hKey hFlag
  have hIdle : Idle policy (given? ms flag.keys) := by
    rw [hNone]
    exact nofun
  have hIdle' : Idle policy (given? (Members.put key v ms) flag.keys) := by
    rw [given?_put_self hNone hKey]
    intro w hw
    rw [← Option.some.inj hw]
    exact hValue
  have hAgree : AgreeBut [flag.keys] ms (Members.put key v ms) := agreeBut_put (mem_keys_flag flag) hKey
  rw [visit_eq_sides path text root (readOptions_optionsOf (readItems_of_reads hPut policy))]
  exact congrArg Except.ok
    (@findings_of_idle path text root config ⟨some policy, e⟩ _ _ hReads hPut hMain flag policy hMain
      hAgree hIdle hIdle').symm

/-- **Options act locally.** Of two runs with the same main policy: where the options differ in the
policy of a kind, the findings about other kinds are the same. Where they differ in the flags, so are those
about opening sides, and those about closing sides that are not behind a closing bracket or brace. And they
are all the same where they differ in a flag that is null, agrees with the main policy, or is left out; a
flag that is left out can be set in these ways. -/
theorem visit_local (path : String) (text : List Char) (root : Node) {items items' : List Value}
    {config config' : CurlyConfig} (h : CurlyConfig.readItems items = .ok config)
    (h' : CurlyConfig.readItems items' = .ok config') (hPolicy : config.policy = config'.policy) :
    ∃ findings findings',
      visit ((Analysis.viewOf path text (some root)).withOptions (optionsOf items)) = .ok findings ∧
      visit ((Analysis.viewOf path text (some root)).withOptions (optionsOf items')) = .ok findings' ∧
      (∀ kind : ConstructKind, AgreeBut [kind.keys] (ofItems items) (ofItems items') →
        findings.filter (fun f => !f.tells "construct" kind.name) =
          findings'.filter (fun f => !f.tells "construct" kind.name)) ∧
      (AgreeBut [CurlyFlag.arraysInObjects.keys, CurlyFlag.objectsInObjects.keys] (ofItems items)
          (ofItems items') →
        findings.filter (fun f => f.tells "side" "opening") =
          findings'.filter (fun f => f.tells "side" "opening") ∧
        findings.filter (fun f => f.tells "side" "closing" &&
            !followsClosing (Source.ofText text (some root)) f) =
          findings'.filter (fun f => f.tells "side" "closing" &&
            !followsClosing (Source.ofText text (some root)) f)) ∧
      ∀ policy, config.policy = some policy → ∀ flag : CurlyFlag,
        (AgreeBut [flag.keys] (ofItems items) (ofItems items') →
          Idle policy (given? (ofItems items) flag.keys) →
          Idle policy (given? (ofItems items') flag.keys) → findings = findings') ∧
        (given? (ofItems items) flag.keys = none → ∀ key, key = flag.keys.1 ∨ key = flag.keys.2 →
          ∀ v, v = .null ∨ v = .bool policy.spaced →
            visit ((Analysis.viewOf path text (some root)).withOptions (optionsOf
              [.text policy.name, .object (Members.put key v (ofItems items))])) = .ok findings) := by
  have hReads := reads_of_readItems h
  have hReads' := reads_of_readItems h'
  refine ⟨_, _, visit_eq_sides path text root (readOptions_optionsOf h),
    visit_eq_sides path text root (readOptions_optionsOf h'), ?_, ?_, ?_⟩
  · intro kind hAgree
    exact filter_of_agreeBut_kind hReads hReads' hPolicy hAgree
  · intro hAgree
    have hKeys : ∀ kind : ConstructKind, kind.keys ∉
        [CurlyFlag.arraysInObjects.keys, CurlyFlag.objectsInObjects.keys] := by
      intro kind
      cases kind <;> decide
    refine ⟨filter_of_agreeBut_flags hReads hReads' hPolicy hAgree hKeys ?_,
      filter_of_agreeBut_flags hReads hReads' hPolicy hAgree hKeys ?_⟩
    · intro f hClosing _
      exact Finding.tells_eq_false (by decide) hClosing
    · intro f hClosing hFollows
      rw [hClosing, hFollows]
      rfl
  · intro policy hMain flag
    refine ⟨findings_of_idle hReads hReads' hPolicy hMain, ?_⟩
    intro hNone key hKey v hValue
    exact visit_put hReads hMain hNone hKey hValue

def nestedArray : Node :=
  ⟨"object", true, 0, 4, [⟨"\x7b", false, 0, 1, []⟩,
    ⟨"array", true, 1, 3, [⟨"[", false, 1, 2, []⟩, ⟨"]", false, 2, 3, []⟩]⟩, ⟨"\x7d", false, 3, 4, []⟩]⟩

def visitNested (items : List Value) : Except Failure (List Finding) :=
  visit ((Analysis.viewOf "a.js" "\x7b[]\x7d".toList (some nestedArray)).withOptions (optionsOf items))

theorem visitNested_eq {items : List Value} {config : CurlyConfig} {findings : List Finding}
    (hItems : CurlyConfig.readItems items = .ok config) (h : visitNested items = .ok findings) :
    findings = (sides nestedArray).filterMap
      (finding? "a.js" "\x7b[]\x7d".toList nestedArray (.ofConfig config)) :=
  Except.ok.inj (h.symm.trans (visit_eq_sides _ _ _ (readOptions_optionsOf hItems)))

def opposing : List Value := [.text "always", .object [("arraysInObjects", .bool false)]]

/-- The flag turns the closing side around and leaves the opening side; if it agrees with the policy, it
changes nothing. -/
theorem visit_local_nested : ∃ findings findings', visitNested [.text "always"] = .ok findings ∧
    visitNested opposing = .ok findings' ∧ findings.length = 2 ∧ findings'.length = 1 ∧
    findings.filter (fun f => f.tells "side" "opening") =
      findings'.filter (fun f => f.tells "side" "opening") ∧
    visitNested [.text "always", .object [("arrays_in_objects", .bool true)]] = .ok findings := by
  have hPlain : CurlyConfig.readItems [.text "always"] = .ok ⟨some .always, {}⟩ := rfl
  have hOpposing : CurlyConfig.readItems opposing =
      .ok ⟨some .always, { arraysInObjects := some false }⟩ := by cbv
  have hAgree : AgreeBut [CurlyFlag.arraysInObjects.keys, CurlyFlag.objectsInObjects.keys]
      (ofItems [.text "always"]) (ofItems opposing) := by
    intro k hk hne
    refine agreeBut_put (mem_keys_flag .arraysInObjects) (Or.inl rfl) k hk fun hMem => hne ?_
    exact List.mem_cons.2 (Or.inl (List.mem_singleton.1 hMem))
  obtain ⟨findings, findings', hVisit, hVisit', -, hFlags, hIdle⟩ := visit_local "a.js"
    "\x7b[]\x7d".toList nestedArray hPlain hOpposing rfl
  refine ⟨findings, findings', hVisit, hVisit', ?_, ?_, (hFlags hAgree).1, ?_⟩
  · rw [visitNested_eq hPlain hVisit]
    cbv
  · rw [visitNested_eq hOpposing hVisit']
    cbv
  · exact (hIdle .always rfl .arraysInObjects).2 rfl "arrays_in_objects" (Or.inr rfl) _ (Or.inr rfl)

end CurlySpacing

end TidySpace
