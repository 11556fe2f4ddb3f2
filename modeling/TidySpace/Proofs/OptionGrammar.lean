import TidySpace.Proofs.LocalOptions

/-! # The grammar of options

The options of the curly spacing rule are read step by step: a value that does not count as given is empty,
the list is looked up and measured, and its second item is read as a model of its own, where each member
has two names. What they may be is said here without these steps (`CurlyConfig.Lists`,
`CurlyConfig.Positional`, `CurlyExceptions.Allowed`). The check accepts exactly that, and tells anything
else as a fault of the rule's options. What it accepts can be resolved, and what is resolved is what the
items say (`validate_iff`).
-/

namespace TidySpace

/-! ### Values of members -/

theorem Policy.ofValue?_eq_some {v : Value} {p : Policy} :
    Policy.ofValue? v = some p ↔ v = .text p.name := by
  constructor
  · intro h
    unfold ofValue? at h
    split at h
    next =>
      cases h
      rfl
    next =>
      cases h
      rfl
    next => cases h
  · rintro rfl
    cases p <;> rfl

theorem readFlag_eq_ok {v : Value} {x : Option Bool} :
    readFlag v = .ok x ↔ v = x.elim .null .bool := by
  constructor
  · intro h
    unfold readFlag at h
    split at h
    next =>
      cases h
      rfl
    next =>
      cases h
      rfl
    next => cases h
  · rintro rfl
    cases x <;> rfl

theorem readPolicy_eq_ok {v : Value} {x : Option Policy} :
    readPolicy v = .ok x ↔ v = x.elim .null fun p => .text p.name := by
  constructor
  · intro h
    unfold readPolicy at h
    split at h
    next =>
      cases h
      rfl
    next hValue =>
      cases h
      exact Policy.ofValue?_eq_some.1 hValue
    next => cases h
  · rintro rfl
    cases x with
    | none => rfl
    | some p => cases p <;> rfl

namespace CurlyExceptions

variable {ms : Members} {e : CurlyExceptions}

/-! ### Exceptions -/

/-- What exceptions may be: every key is one of the six or its other name, none is given both ways, flags
are true, false or null, and policies one of the two names or null. -/
structure Allowed (ms : Members) : Prop where
  known : ∀ key ∈ Members.keys ms, ∃ k ∈ keys, key = k.1 ∨ key = k.2
  once : ∀ k ∈ keys, k.1 ∈ Members.keys ms → k.2 ∉ Members.keys ms
  flag : ∀ flag : CurlyFlag, ∀ v, given? ms flag.keys = some v → v = .null ∨ ∃ b, v = .bool b
  policy : ∀ kind : ConstructKind, ∀ v, given? ms kind.keys = some v →
    v = .null ∨ v = .text "always" ∨ v = .text "never"

theorem eq_of_other {k k' : String × String} (hk : k ∈ keys) (hk' : k' ∈ keys)
    (h : k.2 = k'.1 ∨ k.2 = k'.2) : k' = k := by
  by_contra hne
  obtain ⟨hFirst, hSecond⟩ := ne_of_keys hk hk' hne (Or.inr rfl)
  exact h.elim (fun hEq => hFirst hEq.symm) fun hEq => hSecond hEq.symm

theorem fst_ne_snd {k : String × String} (hk : k ∈ keys) : k.1 ≠ k.2 := by
  revert k
  decide

/-- The keys of exceptions all take part if they are known and none is given both ways. -/
theorem known_iff : (∀ key ∈ Members.keys ms, isKnownKey ms keys key = true) ↔
    (∀ key ∈ Members.keys ms, ∃ k ∈ keys, key = k.1 ∨ key = k.2) ∧
      ∀ k ∈ keys, k.1 ∈ Members.keys ms → k.2 ∉ Members.keys ms := by
  constructor
  · intro h
    refine ⟨fun key hKey => ?_, fun k hk hFirst hSecond => ?_⟩
    · obtain ⟨k, hk, hMain | ⟨hOther, -⟩⟩ := isKnownKey_iff.1 (h key hKey)
      · exact ⟨k, hk, Or.inl hMain⟩
      · exact ⟨k, hk, Or.inr hOther⟩
    · obtain ⟨k', hk', hMain | ⟨hOther, hNone⟩⟩ := isKnownKey_iff.1 (h k.2 hSecond)
      · obtain rfl := eq_of_other hk hk' (Or.inl hMain)
        exact fst_ne_snd hk hMain.symm
      · obtain rfl := eq_of_other hk hk' (Or.inr hOther)
        exact Members.not_mem_keys hNone hFirst
  · rintro ⟨hKnown, hOnce⟩ key hKey
    rw [isKnownKey_iff]
    obtain ⟨k, hk, hMain | hOther⟩ := hKnown key hKey
    · exact ⟨k, hk, Or.inl hMain⟩
    · refine ⟨k, hk, Or.inr ⟨hOther, ?_⟩⟩
      cases hGet : ms.get? k.1 with
      | none => rfl
      | some v =>
        have hFirst : k.1 ∈ Members.keys ms := List.mem_map_of_mem (Members.mem_of_get? hGet)
        exact absurd (hOther ▸ hKey) (hOnce k hk hFirst)

theorem Reads.allowed (h : Reads ms e) : Allowed ms where
  known := (known_iff.1 h.known).1
  once := (known_iff.1 h.known).2
  flag flag v hGiven := by
    have hRead := h.flag flag
    rw [hGiven] at hRead
    obtain rfl := readFlag_eq_ok.1 hRead
    cases e.flagFor flag with
    | none => exact Or.inl rfl
    | some b => exact Or.inr ⟨b, rfl⟩
  policy kind v hGiven := by
    have hRead := h.policy kind
    rw [hGiven] at hRead
    obtain rfl := readPolicy_eq_ok.1 hRead
    cases e.policyFor kind with
    | none => exact Or.inl rfl
    | some p => cases p <;> simp [Policy.name]

theorem Allowed.exists_reads (h : Allowed ms) : ∃ e, Reads ms e := by
  refine CurlyExceptions.exists_reads (fun flag => ?_) (fun kind => ?_) (known_iff.2 ⟨h.known, h.once⟩)
  · cases hGiven : given? ms flag.keys with
    | none => exact ⟨none, rfl⟩
    | some v =>
      rcases h.flag flag v hGiven with rfl | ⟨b, rfl⟩
      · exact ⟨none, rfl⟩
      · exact ⟨some b, rfl⟩
  · cases hGiven : given? ms kind.keys with
    | none => exact ⟨none, rfl⟩
    | some v =>
      rcases h.policy kind v hGiven with rfl | rfl | rfl
      · exact ⟨none, rfl⟩
      · exact ⟨some .always, rfl⟩
      · exact ⟨some .never, rfl⟩

theorem Reads.flagFor_eq_some_iff (h : Reads ms e) (flag : CurlyFlag) (b : Bool) :
    e.flagFor flag = some b ↔ given? ms flag.keys = some (.bool b) := by
  have hRead := h.flag flag
  cases hGiven : given? ms flag.keys with
  | none =>
    rw [hGiven] at hRead
    rw [← Except.ok.inj hRead]
    exact ⟨nofun, nofun⟩
  | some v =>
    rw [hGiven] at hRead
    rw [readFlag_eq_ok.1 hRead]
    cases e.flagFor flag with
    | none => exact ⟨nofun, nofun⟩
    | some b' => simp

theorem Reads.policyFor_eq_some_iff (h : Reads ms e) (kind : ConstructKind) (p : Policy) :
    e.policyFor kind = some p ↔ given? ms kind.keys = some (.text p.name) := by
  have hRead := h.policy kind
  cases hGiven : given? ms kind.keys with
  | none =>
    rw [hGiven] at hRead
    rw [← Except.ok.inj hRead]
    exact ⟨nofun, nofun⟩
  | some v =>
    rw [hGiven] at hRead
    rw [readPolicy_eq_ok.1 hRead]
    cases e.policyFor kind with
    | none => exact ⟨nofun, nofun⟩
    | some p' => cases p <;> cases p' <;> simp [Policy.name]

end CurlyExceptions

namespace CurlyConfig

variable {raw : Value} {items : List Value} {config : CurlyConfig}

/-! ### The list -/

/-- The items that options list: none if they do not count as given, and those under their one key
otherwise. -/
inductive Lists : Value → List Value → Prop
  | nothing {raw : Value} (hGiven : raw.isGiven = false) : Lists raw []
  | under {ms : Members} {items : List Value} (hKeys : ∀ key ∈ Members.keys ms, key = "options")
      (hItems : Members.get? ms "options" = some (.list items)) : Lists (.object ms) items

/-- What the items may be: nothing, a policy, or a policy and exceptions from it. -/
inductive Positional : List Value → Prop
  | empty : Positional []
  | policy (p : Policy) : Positional [.text p.name]
  | exceptions (p : Policy) {ms : Members} (hAllowed : CurlyExceptions.Allowed ms) :
      Positional [.text p.name, .object ms]

theorem exists_object_of_readRest {policy : Option Policy} {v : Value}
    (h : readRest policy [v] = .ok config) : ∃ ms, v = .object ms := by
  cases v with
  | object ms => exact ⟨ms, rfl⟩
  | _ => cases h

theorem positional_iff : (∃ config, readItems items = .ok config) ↔ Positional items := by
  constructor
  · rintro ⟨config, h⟩
    have hReads := CurlyExceptions.reads_of_readItems h
    cases items with
    | nil => exact .empty
    | cons first rest =>
      rw [readItems] at h
      split at h
      next => cases h
      next hShort =>
        split at h
        next p hFirst =>
          obtain rfl := Policy.ofValue?_eq_some.1 hFirst
          cases rest with
          | nil => exact .policy p
          | cons second others =>
            obtain rfl : others = [] := List.eq_nil_of_length_eq_zero (by simpa using hShort)
            obtain ⟨ms, rfl⟩ := exists_object_of_readRest h
            exact .exceptions p hReads.allowed
        next => cases h
  · intro h
    cases h with
    | empty => exact ⟨_, rfl⟩
    | policy p => cases p <;> exact ⟨_, rfl⟩
    | exceptions p hAllowed =>
      obtain ⟨e, hReads⟩ := hAllowed.exists_reads
      exact ⟨_, CurlyExceptions.readItems_of_reads hReads p⟩

def listIn (ms : Members) : Except ListFault CurlyConfig :=
  (Members.get? ms "options").elim (.ok ⟨none, {}⟩) readList

/-- An object without other keys is read as its list. -/
theorem read_object_iff {ms : Members} : read (.object ms) = .ok config ↔
    (∀ key ∈ Members.keys ms, key = "options") ∧ listIn ms = .ok config := by
  have hUnknown : (Members.keys ms).filter (· != "options") = [] ↔
      ∀ key ∈ Members.keys ms, key = "options" := by
    simp [List.filter_eq_nil_iff]
  rw [← hUnknown]
  simp only [read, listIn]
  generalize (Members.keys ms).filter (· != "options") = unknown
  cases Members.get? ms "options" with
  | none => cases unknown <;> simp
  | some v =>
    simp only [Option.elim_some]
    cases readList v <;> cases unknown <;> simp

theorem exists_lists_of_read (h : read (Rule.givenOptions raw) = .ok config) :
    ∃ items, Lists raw items ∧ readItems items = .ok config := by
  rw [Rule.givenOptions, Value.orElse] at h
  split at h
  next hGiven =>
    cases raw with
    | object ms =>
      obtain ⟨hKeys, hList⟩ := read_object_iff.1 h
      cases hItems : Members.get? ms "options" with
      | none =>
        -- All keys are the one that is missing, so there is none, and nothing is given.
        cases ms with
        | nil => cases hGiven
        | cons m ms =>
          have hFirst := hKeys m.1 List.mem_cons_self
          rw [Members.get?_cons, if_pos hFirst.symm] at hItems
          cases hItems
      | some v =>
        rw [listIn, hItems] at hList
        cases v with
        | list items => exact ⟨items, .under hKeys hItems, hList⟩
        | _ => cases hList
    | _ => cases h
  next hGiven =>
    cases h
    exact ⟨[], .nothing (Bool.eq_false_iff.2 hGiven), rfl⟩

theorem read_of_lists (hLists : Lists raw items) (h : readItems items = .ok config) :
    read (Rule.givenOptions raw) = .ok config := by
  rw [Rule.givenOptions, Value.orElse]
  cases hLists with
  | nothing hGiven =>
    rw [if_neg (Bool.eq_false_iff.1 hGiven)]
    cases h
    rfl
  | @under ms _ hKeys hItems =>
    have hGiven : (Value.object ms).isGiven = true := by
      cases ms with
      | nil => cases hItems
      | cons m ms => rfl
    rw [if_pos hGiven, read_object_iff, listIn, hItems]
    exact ⟨hKeys, h⟩

/-- **Options are read as the items that they list.** -/
theorem read_givenOptions_iff : read (Rule.givenOptions raw) = .ok config ↔
    ∃ items, Lists raw items ∧ readItems items = .ok config :=
  ⟨exists_lists_of_read, fun ⟨_, hLists, h⟩ => read_of_lists hLists h⟩

end CurlyConfig

namespace CurlySpacing

open CurlyExceptions CurlyConfig

variable {items : List Value} {config : CurlyConfig}

/-! ### What is resolved -/

theorem spaced_iff (h : readItems items = .ok config) :
    mainSpaced config = true ↔ items.head? = some (.text "always") := by
  cases items with
  | nil =>
    cases h
    exact ⟨nofun, nofun⟩
  | cons first rest =>
    rw [readItems] at h
    split at h
    next => cases h
    next =>
      split at h
      next p hFirst =>
        obtain rfl := Policy.ofValue?_eq_some.1 hFirst
        have hPolicy : config.policy = some p := by
          cases rest with
          | nil =>
            cases h
            rfl
          | cons v rest =>
            rw [readRest] at h
            split at h
            next =>
              cases h
              rfl
            next => cases h
        rw [mainSpaced, hPolicy]
        cases p <;> simp [Policy.spaced, Policy.name]
      next => cases h

/-- What is resolved of items: whether they ask for spaces, which flags oppose that, and what each kind of
construct must be. -/
structure Resolves (items : List Value) (o : CurlyOptions) : Prop where
  spaced : o.spaced = true ↔ items.head? = some (.text "always")
  flag : ∀ flag, o.hasException flag = true ↔
    given? (ofItems items) flag.keys = some (.bool (!o.spaced))
  own : ∀ (kind : ConstructKind) (p : Policy),
    given? (ofItems items) kind.keys = some (.text p.name) → o.forKind kind = p.spaced
  main : ∀ kind : ConstructKind, (∀ p : Policy, given? (ofItems items) kind.keys ≠ some (.text p.name)) →
    o.forKind kind = o.spaced

theorem resolves_of_readItems (h : readItems items = .ok config) :
    Resolves items (.ofConfig config) := by
  have hReads := reads_of_readItems h
  refine ⟨spaced_iff h, fun flag => ?_, fun kind p hGiven => ?_, fun kind hNone => ?_⟩
  · rw [hasException_ofConfig, beq_iff_eq]
    exact hReads.flagFor_eq_some_iff flag _
  · rw [forKind_ofConfig, (hReads.policyFor_eq_some_iff kind p).2 hGiven]
    rfl
  · rw [forKind_ofConfig]
    cases hPolicy : config.exceptions.policyFor kind with
    | none => rfl
    | some p => exact absurd ((hReads.policyFor_eq_some_iff kind p).1 hPolicy) (hNone p)

theorem resolve_list (h : readItems items = .ok config) : resolve (.list items) = .ok (.ofConfig config) := by
  show ((readItems items).mapError _ >>= fun config => .ok (CurlyOptions.ofConfig config)) = _
  rw [h]
  rfl

theorem checkRule_eq (s : Settings) :
    s.checkRule rule = ((s.optionsOf rule.id).mapError Failure.mismatch >>= fun given =>
      (Rule.validate CurlyConfig.read rule.id given).map fun _ => ()) := by
  refine bind_congr fun given => ?_
  rw [Rule.validate]
  dsimp only
  cases CurlyConfig.read (Rule.givenOptions given) <;> rfl

/-- **The check accepts exactly the grammar.** Options are accepted if they list nothing, a policy, or a
policy and exceptions as they may be, and if nothing else is given; otherwise they have a fault, which is
told with the id of the rule. This is what the check of settings does for the rule. What is accepted can
be resolved, as the items of the list and as options in settings alike, and means what the items say. -/
theorem validate_iff (id : String) (raw : Value) :
    ((∃ config, Rule.validate CurlyConfig.read id raw = .ok config) ↔
      ∃ items, Lists raw items ∧ Positional items) ∧
    ((¬ ∃ items, Lists raw items ∧ Positional items) →
      ∃ fault, Rule.validate CurlyConfig.read id raw = .error (.badRuleOptions id fault)) ∧
    (∀ s : Settings, s.optionsOf rule.id = .ok raw →
      s.checkRule rule = (Rule.validate CurlyConfig.read rule.id raw).map fun _ => ()) ∧
    ∀ items, Lists raw items → Positional items →
      ∃ o, resolve (.list items) = .ok o ∧ readOptions raw = .ok o ∧ Resolves items o := by
  have hAccepts : (∃ config, CurlyConfig.read (Rule.givenOptions raw) = .ok config) ↔
      ∃ items, Lists raw items ∧ Positional items := by
    simp only [read_givenOptions_iff, ← positional_iff]
    exact ⟨fun ⟨config, items, hLists, h⟩ => ⟨items, hLists, config, h⟩,
      fun ⟨items, hLists, config, h⟩ => ⟨config, items, hLists, h⟩⟩
  refine ⟨⟨?_, ?_⟩, fun hNot => ?_, fun s hs => ?_, fun items hLists hItems => ?_⟩
  · rintro ⟨config, h⟩
    exact hAccepts.1 ⟨config, mapError_eq_ok h⟩
  · intro h
    obtain ⟨config, h⟩ := hAccepts.2 h
    exact ⟨config, by rw [Rule.validate, h]; rfl⟩
  · cases h : CurlyConfig.read (Rule.givenOptions raw) with
    | ok config => exact absurd (hAccepts.1 ⟨config, h⟩) hNot
    | error fault => exact ⟨fault, by rw [Rule.validate, h]; rfl⟩
  · rw [checkRule_eq, hs]
    rfl
  · obtain ⟨config, h⟩ := positional_iff.2 hItems
    have hRead := read_of_lists hLists h
    exact ⟨.ofConfig config, resolve_list h, readOptions_of_read hRead, resolves_of_readItems h⟩

def renamed : Members := [("arrays_in_objects", .bool false), ("import_declaration", .null)]

theorem allowed_renamed : Allowed renamed where
  known := by decide
  once := by decide
  flag flag v hGiven := by
    cases flag with
    | arraysInObjects => exact Or.inr ⟨false, (Option.some.inj hGiven).symm⟩
    | objectsInObjects => cases hGiven
  policy kind v hGiven := by
    cases kind with
    | importDeclaration => exact Or.inl (Option.some.inj hGiven).symm
    | _ => cases hGiven

def listing (ms : Members) : Value := .object [("options", .list [.text "always", .object ms])]

/-- Exceptions under other names are accepted, and a null kind has the main policy. A flag that is given
under both of its names is refused. -/
theorem validate_iff_renamed :
    (∃ o, readOptions (listing renamed) = .ok o ∧ o.hasException .arraysInObjects = true ∧
      o.forKind .importDeclaration = true) ∧
    ∃ fault, Rule.validate CurlyConfig.read rule.id
      (listing (("arraysInObjects", .bool false) :: renamed)) =
        .error (.badRuleOptions rule.id fault) := by
  constructor
  · have hLists : Lists (listing renamed) [.text "always", .object renamed] := .under (by decide) rfl
    obtain ⟨-, -, -, hMeans⟩ := validate_iff rule.id (listing renamed)
    obtain ⟨o, -, hRead, hResolves⟩ := hMeans _ hLists (.exceptions .always allowed_renamed)
    have hSpaced : o.spaced = true := hResolves.spaced.2 rfl
    refine ⟨o, hRead, (hResolves.flag .arraysInObjects).2 ?_, ?_⟩
    · rw [hSpaced]
      rfl
    · rw [hResolves.main .importDeclaration nofun, hSpaced]
  · refine (validate_iff rule.id _).2.1 ?_
    rintro ⟨items, hLists, hItems⟩
    have hBoth : items = [.text "always", .object (("arraysInObjects", .bool false) :: renamed)] := by
      cases hLists with
      | nothing hGiven => cases hGiven
      | under _ hList =>
        cases hList
        rfl
    obtain ⟨config, h⟩ := positional_iff.2 (hBoth ▸ hItems)
    exact (reads_of_readItems h).allowed.once CurlyFlag.arraysInObjects.keys (by decide) (by decide)
      (by decide)

end CurlySpacing

end TidySpace
