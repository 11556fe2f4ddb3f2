import Mathlib.Data.List.Basic
import TidySpace.Options.Curly

/-! # Exceptions, key by key

The exceptions of the curly spacing rule are two flags and a policy for each kind of construct. Each is
given under its key or under another name of it (`given?`), and the faults of all are collected before any
is told. Seen from outside they are read key by key: exceptions are valid if each given value can be read
and each key takes part (`read_eq_ok`). So two lists of options that agree under a key have the same flag or
policy there (`AgreeBut`), and a flag that is not given can be set without making other keys unknown
(`Reads.put`).
-/

namespace TidySpace

/-! ### Keys of the exceptions -/

/-- The exceptions that are flags: one for braces behind a closing bracket, one for those behind a closing
brace. -/
inductive CurlyFlag where
  | arraysInObjects
  | objectsInObjects
  deriving DecidableEq, Repr

def CurlyFlag.keys : CurlyFlag → String × String
  | .arraysInObjects => ("arraysInObjects", "arrays_in_objects")
  | .objectsInObjects => ("objectsInObjects", "objects_in_objects")

def ConstructKind.keys : ConstructKind → String × String
  | .objectPattern => ("ObjectPattern", "object_pattern")
  | .objectExpression => ("ObjectExpression", "object_expression")
  | .importDeclaration => ("ImportDeclaration", "import_declaration")
  | .exportDeclaration => ("ExportNamedDeclaration", "export_named_declaration")

namespace Members

theorem not_mem_keys {ms : Members} {key : String} (h : ms.get? key = none) : key ∉ keys ms := by
  intro hMem
  obtain ⟨m, hm, rfl⟩ := List.mem_map.1 hMem
  rw [get?, List.lookup_eq_none_iff] at h
  exact absurd (h m hm) (by simp)

theorem mem_keys_put {key key' : String} {v : Value} {ms : Members} (h : key' ∈ keys (put key v ms)) :
    key' = key ∨ key' ∈ keys ms := by
  induction ms with
  | nil => exact Or.inl (List.mem_singleton.1 h)
  | cons m ms ih =>
    obtain ⟨k, w⟩ := m
    rw [put] at h
    split at h
    next hKey =>
      rcases List.mem_cons.1 h with rfl | h
      · exact Or.inl rfl
      · exact Or.inr (List.mem_cons_of_mem k h)
    next =>
      rcases List.mem_cons.1 h with rfl | h
      · exact Or.inr List.mem_cons_self
      · exact (ih h).imp id (List.mem_cons_of_mem k)

end Members

theorem eq_ok_of_faultOf {α : Type} {x : Except (String × FieldFault) α} (h : faultOf x = [])
    (default : α) : x = .ok (valueOf default x) := by
  cases x with
  | ok a => rfl
  | error fault => cases h

namespace CurlyExceptions

def flagFor (e : CurlyExceptions) : CurlyFlag → Option Bool
  | .arraysInObjects => e.arraysInObjects
  | .objectsInObjects => e.objectsInObjects

/-- The policy of a kind, if it has one of its own. -/
def policyFor (e : CurlyExceptions) : ConstructKind → Option Policy
  | .objectPattern => e.objectPattern
  | .objectExpression => e.objectExpression
  | .importDeclaration => e.importDeclaration
  | .exportDeclaration => e.exportDeclaration

/-- The value that is given under a key, or under its other name. -/
def given? (ms : Members) (k : String × String) : Option Value := (ms.get? k.1).or (ms.get? k.2)

/-- What is read of a value, if one is given. -/
def readGiven {α : Type} (read : Value → Except FieldFault (Option α)) (v? : Option Value) :
    Except FieldFault (Option α) := v?.elim (.ok none) read

variable {α : Type} {ms ms' : Members} {k : String × String} {e e' : CurlyExceptions}

/-! ### Reading key by key -/

theorem map_findMember? (ms : Members) (k : String × String) :
    (findMember? ms k.1 k.2).map Prod.snd = given? ms k := by
  rw [findMember?, given?]
  cases ms.get? k.1 with
  | some v => rfl
  | none => cases ms.get? k.2 <;> rfl

theorem readMember_eq_ok {read : Value → Except FieldFault (Option α)} {x : Option α} :
    readMember ms read k.1 k.2 = .ok x ↔ readGiven read (given? ms k) = .ok x := by
  rw [readMember, ← map_findMember?]
  -- The two sides have faults of different types, with a key and without.
  cases findMember? ms k.1 k.2 with
  | none => exact ⟨fun h => by cases h; rfl, fun h => by cases h; rfl⟩
  | some found =>
    obtain ⟨name, v⟩ := found
    show _ ↔ read v = .ok x
    dsimp only
    cases read v with
    | ok y => exact ⟨fun h => by cases h; rfl, fun h => by cases h; rfl⟩
    | error fault => exact ⟨nofun, nofun⟩

/-- What exceptions that can be read are: each value is one of its key, and each key takes part. -/
structure Reads (ms : Members) (e : CurlyExceptions) : Prop where
  flag (flag : CurlyFlag) : readGiven readFlag (given? ms flag.keys) = .ok (e.flagFor flag)
  policy (kind : ConstructKind) : readGiven readPolicy (given? ms kind.keys) = .ok (e.policyFor kind)
  known : ∀ key ∈ Members.keys ms, isKnownKey ms keys key = true

/-- **Exceptions are read key by key.** -/
theorem read_eq_ok : read (.object ms) = .ok e ↔ Reads ms e := by
  constructor
  · intro h
    simp only [read] at h
    split at h
    next hEmpty =>
      simp only [List.isEmpty_iff, List.append_eq_nil_iff, List.map_eq_nil_iff,
        List.filter_eq_nil_iff] at hEmpty
      obtain ⟨⟨⟨⟨⟨⟨hArrays, hObjects⟩, hPattern⟩, hExpression⟩, hImports⟩, hExports⟩, hUnknown⟩ := hEmpty
      cases h
      refine ⟨fun flag => ?_, fun kind => ?_, fun key hKey => by simpa using hUnknown key hKey⟩
      · cases flag with
        | arraysInObjects => exact readMember_eq_ok.1 (eq_ok_of_faultOf hArrays none)
        | objectsInObjects => exact readMember_eq_ok.1 (eq_ok_of_faultOf hObjects none)
      · cases kind with
        | objectPattern => exact readMember_eq_ok.1 (eq_ok_of_faultOf hPattern none)
        | objectExpression => exact readMember_eq_ok.1 (eq_ok_of_faultOf hExpression none)
        | importDeclaration => exact readMember_eq_ok.1 (eq_ok_of_faultOf hImports none)
        | exportDeclaration => exact readMember_eq_ok.1 (eq_ok_of_faultOf hExports none)
    next => cases h
  · intro h
    have hArrays : readMember ms readFlag "arraysInObjects" "arrays_in_objects" = _ :=
      readMember_eq_ok.2 (h.flag .arraysInObjects)
    have hObjects : readMember ms readFlag "objectsInObjects" "objects_in_objects" = _ :=
      readMember_eq_ok.2 (h.flag .objectsInObjects)
    have hPattern : readMember ms readPolicy "ObjectPattern" "object_pattern" = _ :=
      readMember_eq_ok.2 (h.policy .objectPattern)
    have hExpression : readMember ms readPolicy "ObjectExpression" "object_expression" = _ :=
      readMember_eq_ok.2 (h.policy .objectExpression)
    have hImports : readMember ms readPolicy "ImportDeclaration" "import_declaration" = _ :=
      readMember_eq_ok.2 (h.policy .importDeclaration)
    have hExports : readMember ms readPolicy "ExportNamedDeclaration" "export_named_declaration" = _ :=
      readMember_eq_ok.2 (h.policy .exportDeclaration)
    have hUnknown : (Members.keys ms).filter (fun key => !isKnownKey ms keys key) = [] := by
      rw [List.filter_eq_nil_iff]
      intro key hKey
      rw [h.known key hKey]
      decide
    simp only [read, hArrays, hObjects, hPattern, hExpression, hImports, hExports, hUnknown]
    rfl

theorem exists_reads (hFlag : ∀ flag : CurlyFlag, ∃ x, readGiven readFlag (given? ms flag.keys) = .ok x)
    (hPolicy : ∀ kind : ConstructKind, ∃ x, readGiven readPolicy (given? ms kind.keys) = .ok x)
    (hKnown : ∀ key ∈ Members.keys ms, isKnownKey ms keys key = true) : ∃ e, Reads ms e := by
  choose flag hFlag using hFlag
  choose policy hPolicy using hPolicy
  refine ⟨⟨flag .arraysInObjects, flag .objectsInObjects, policy .objectPattern,
    policy .objectExpression, policy .importDeclaration, policy .exportDeclaration⟩, ?_, ?_, hKnown⟩
  · intro f
    cases f
    · exact hFlag .arraysInObjects
    · exact hFlag .objectsInObjects
  · intro kind
    cases kind
    · exact hPolicy .objectPattern
    · exact hPolicy .objectExpression
    · exact hPolicy .importDeclaration
    · exact hPolicy .exportDeclaration

def ofItems : List Value → Members
  | [_, .object ms] => ms
  | _ => []

theorem reads_nil : Reads [] {} where
  flag flag := by cases flag <;> rfl
  policy kind := by cases kind <;> rfl
  known _ h := absurd h List.not_mem_nil

theorem reads_of_readItems {items : List Value} {config : CurlyConfig}
    (h : CurlyConfig.readItems items = .ok config) : Reads (ofItems items) config.exceptions := by
  match items with
  | [] =>
    cases h
    exact reads_nil
  | first :: rest =>
    rw [CurlyConfig.readItems] at h
    split at h
    next => cases h
    next hShort =>
      split at h
      next policy _ =>
        match rest with
        | [] =>
          cases h
          exact reads_nil
        | [v] =>
          rw [CurlyConfig.readRest] at h
          split at h
          next hRead =>
            cases h
            cases v with
            | object ms => exact read_eq_ok.1 hRead
            | _ => cases hRead
          next => cases h
        | _ :: _ :: rest => exact absurd hShort (by simp)
      next => cases h

theorem readItems_of_reads (h : Reads ms e) (policy : Policy) :
    CurlyConfig.readItems [.text policy.name, .object ms] = .ok ⟨some policy, e⟩ := by
  have hRest : CurlyConfig.readRest (some policy) [.object ms] = .ok ⟨some policy, e⟩ := by
    rw [CurlyConfig.readRest, read_eq_ok.2 h]
  cases policy with
  | always => exact hRest
  | never => exact hRest

/-! ### Exceptions that agree -/

/-- Exceptions that give the same values, except perhaps under some keys. -/
def AgreeBut (ks : List (String × String)) (ms ms' : Members) : Prop :=
  ∀ k ∈ keys, k ∉ ks → given? ms k = given? ms' k

theorem mem_keys_flag (flag : CurlyFlag) : flag.keys ∈ keys := by
  cases flag <;> decide

theorem mem_keys_kind (kind : ConstructKind) : kind.keys ∈ keys := by
  cases kind <;> decide

theorem keys_flag_ne_kind (flag : CurlyFlag) (kind : ConstructKind) : flag.keys ≠ kind.keys := by
  cases flag <;> cases kind <;> decide

theorem keys_flag_injective : Function.Injective CurlyFlag.keys := by
  intro flag flag'
  cases flag <;> cases flag' <;> decide

theorem keys_kind_injective : Function.Injective ConstructKind.keys := by
  intro kind kind'
  cases kind <;> cases kind' <;> decide

theorem readGiven_congr {read : Value → Except FieldFault (Option α)} {v v' : Option Value}
    {x x' : Option α} (h : readGiven read v = .ok x) (h' : readGiven read v' = .ok x')
    (hGiven : v = v') : x = x' := by
  rw [hGiven] at h
  exact Except.ok.inj (h.symm.trans h')

namespace AgreeBut

variable {ks : List (String × String)} (hAgree : AgreeBut ks ms ms') (h : Reads ms e) (h' : Reads ms' e')
include hAgree h h'

theorem flagFor_eq {flag : CurlyFlag} (hFlag : flag.keys ∉ ks) : e.flagFor flag = e'.flagFor flag :=
  readGiven_congr (h.flag flag) (h'.flag flag) (hAgree _ (mem_keys_flag flag) hFlag)

theorem policyFor_eq {kind : ConstructKind} (hKind : kind.keys ∉ ks) :
    e.policyFor kind = e'.policyFor kind :=
  readGiven_congr (h.policy kind) (h'.policy kind) (hAgree _ (mem_keys_kind kind) hKind)

end AgreeBut

/-! ### Setting a flag -/

/-- The value of a flag that is not given, null, or agrees with a policy. -/
def Idle (policy : Policy) (v? : Option Value) : Prop :=
  ∀ v, v? = some v → v = .null ∨ v = .bool policy.spaced

/-- A flag that is idle does not oppose the policy. -/
theorem Idle.read {policy : Policy} {v? : Option Value} {x : Option Bool} (h : Idle policy v?)
    (hRead : readGiven readFlag v? = .ok x) : (x == some (!policy.spaced)) = false := by
  cases v? with
  | none =>
    cases hRead
    rfl
  | some v =>
    rcases h v rfl with rfl | rfl
    · cases hRead
      rfl
    · cases hRead
      cases policy <;> rfl

variable {key : String} {v : Value} {flag : CurlyFlag}

theorem given?_put_self (hNone : given? ms k = none) (hKey : key = k.1 ∨ key = k.2) :
    given? (Members.put key v ms) k = some v := by
  obtain ⟨hFirst, -⟩ := Option.or_eq_none_iff.1 hNone
  rw [given?, Members.get?_put, Members.get?_put]
  rcases hKey with rfl | rfl
  · rw [if_pos rfl, Option.some_or]
  · rw [if_pos rfl, hFirst]
    split <;> rfl

theorem ne_of_keys {k' : String × String} (hk : k ∈ keys) (hk' : k' ∈ keys) (hne : k' ≠ k)
    (hKey : key = k.1 ∨ key = k.2) : k'.1 ≠ key ∧ k'.2 ≠ key := by
  have hNames : ∀ k' ∈ keys, ∀ k ∈ keys, k' ≠ k →
      (k'.1 ≠ k.1 ∧ k'.2 ≠ k.1) ∧ k'.1 ≠ k.2 ∧ k'.2 ≠ k.2 := by decide +kernel
  obtain ⟨hFirst, hSecond⟩ := hNames k' hk' k hk hne
  rcases hKey with rfl | rfl
  · exact hFirst
  · exact hSecond

theorem agreeBut_put (hk : k ∈ keys) (hKey : key = k.1 ∨ key = k.2) :
    AgreeBut [k] ms (Members.put key v ms) := by
  intro k' hk' hne
  obtain ⟨hFirst, hSecond⟩ := ne_of_keys hk hk' (fun hEq => hne (List.mem_singleton.2 hEq)) hKey
  rw [given?, given?, Members.get?_put, Members.get?_put, if_neg hFirst, if_neg hSecond]

theorem isKnownKey_iff : isKnownKey ms keys key = true ↔
    ∃ k ∈ keys, key = k.1 ∨ key = k.2 ∧ ms.get? k.1 = none := by
  simp only [isKnownKey, List.any_eq_true, Bool.or_eq_true, Bool.and_eq_true, beq_iff_eq,
    Option.isNone_iff_eq_none]

theorem isKnownKey_put (hk : k ∈ keys) (hNone : given? ms k = none) (hKey : key = k.1 ∨ key = k.2)
    (hKnown : ∀ key' ∈ Members.keys ms, isKnownKey ms keys key' = true) :
    ∀ key' ∈ Members.keys (Members.put key v ms),
      isKnownKey (Members.put key v ms) keys key' = true := by
  intro key' h
  obtain ⟨hFirst, hSecond⟩ := Option.or_eq_none_iff.1 hNone
  rw [isKnownKey_iff]
  rcases Members.mem_keys_put h with rfl | h
  · by_cases hMain : key' = k.1
    · exact ⟨k, hk, Or.inl hMain⟩
    · refine ⟨k, hk, Or.inr ⟨hKey.resolve_left hMain, ?_⟩⟩
      rw [Members.get?_put, if_neg (Ne.symm hMain), hFirst]
  · obtain ⟨k', hk', hMain | ⟨hOther, hMissing⟩⟩ := isKnownKey_iff.1 (hKnown key' h)
    · exact ⟨k', hk', Or.inl hMain⟩
    · refine ⟨k', hk', Or.inr ⟨hOther, ?_⟩⟩
      have hne : k' ≠ k := by
        rintro rfl
        exact Members.not_mem_keys hSecond (hOther ▸ h)
      rw [Members.get?_put, if_neg (ne_of_keys hk hk' hne hKey).1, hMissing]

/-- **A flag that is not given can be set**, under either of its names. -/
theorem Reads.put (h : Reads ms e) (hNone : given? ms flag.keys = none)
    (hKey : key = flag.keys.1 ∨ key = flag.keys.2) {x : Option Bool} (hValue : readFlag v = .ok x) :
    ∃ e', Reads (Members.put key v ms) e' := by
  have hAgree : AgreeBut [flag.keys] ms (Members.put key v ms) := agreeBut_put (mem_keys_flag flag) hKey
  refine exists_reads ?_ ?_ (isKnownKey_put (mem_keys_flag flag) hNone hKey h.known)
  · intro other
    by_cases hSame : other.keys = flag.keys
    · rw [hSame, given?_put_self hNone hKey]
      exact ⟨x, hValue⟩
    · rw [← hAgree _ (mem_keys_flag other) fun hMem => hSame (List.mem_singleton.1 hMem)]
      exact ⟨_, h.flag other⟩
  · intro kind
    rw [← hAgree _ (mem_keys_kind kind) fun hMem =>
      keys_flag_ne_kind flag kind (List.mem_singleton.1 hMem).symm]
    exact ⟨_, h.policy kind⟩

end CurlyExceptions

end TidySpace
