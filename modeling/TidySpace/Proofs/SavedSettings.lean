import Mathlib.Data.List.Nodup
import Mathlib.Data.List.Perm.Basic
import TidySpace.Proofs.LoadedSettings
import TidySpace.Proofs.WrittenFiles

/-! # Loading what was saved

Loading is not the inverse of saving: what a file holds is put over the standard settings. The severities
of those are empty, so the ones that were saved come back as they were. The options of those are not: a
standard rule without options of its own has the standard ones afterwards (`load_saved`).

Whether a value survives being written and read is up to the two, and asked of the one document that is
saved (`Value.Faithful`). That the document equals itself is asked too, as a number that equals no number
would not.
-/

namespace TidySpace

open scoped List

/-! ### Members with distinct keys -/

namespace Members

variable {ms more : Members} {key : String}

@[simp] theorem keys_nil : keys [] = [] := rfl

@[simp] theorem keys_cons (m : String × Value) (ms : Members) : keys (m :: ms) = m.1 :: keys ms := rfl

theorem get?_of_mem (h : ms.keys.Nodup) {m : String × Value} (hMem : m ∈ ms) : ms.get? m.1 = some m.2 := by
  induction ms with
  | nil => cases hMem
  | cons first rest ih =>
    rw [keys_cons, List.nodup_cons] at h
    rw [get?_cons]
    rcases List.mem_cons.1 hMem with rfl | hRest
    · rw [if_pos rfl]
    · have hNe : m.1 ≠ first.1 := by
        intro hKey
        exact h.1 (hKey ▸ List.mem_map_of_mem hRest)
      rw [if_neg hNe]
      exact ih h.2 hRest

/-- **Putting a member** replaces the one under its key. -/
theorem put_perm (h : ms.keys.Nodup) (key : String) (v : Value) :
    put key v ms ~ (key, v) :: ms.filter fun m => m.1 ≠ key := by
  induction ms with
  | nil => exact .refl _
  | cons first rest ih =>
    obtain ⟨k, w⟩ := first
    rw [keys_cons, List.nodup_cons] at h
    by_cases hKey : k = key
    · subst hKey
      have hRest : rest.filter (fun m => m.1 ≠ k) = rest := by
        apply List.filter_eq_self.2
        intro m hm
        rw [decide_eq_true_iff]
        rintro rfl
        exact h.1 (List.mem_map.2 ⟨m, hm, rfl⟩)
      rw [put, if_pos rfl, List.filter_cons_of_neg (by simp), hRest]
    · rw [put, if_neg hKey, List.filter_cons_of_pos (by simpa using hKey)]
      exact ((ih h.2).cons (k, w)).trans (.swap ..)

theorem nodup_keys_put (h : ms.keys.Nodup) (key : String) (v : Value) : (put key v ms).keys.Nodup := by
  have hKeys : (put key v ms).keys.Perm (key :: keys (ms.filter fun m => m.1 ≠ key)) :=
    (put_perm h key v).map Prod.fst
  rw [hKeys.nodup_iff, List.nodup_cons]
  constructor
  · intro hMem
    obtain ⟨m, hm, hKey⟩ := List.mem_map.1 hMem
    simpa [hKey] using (List.mem_filter.1 hm).2
  · exact h.sublist (List.filter_sublist.map Prod.fst)

theorem nodup_keys_putAll (h : ms.keys.Nodup) (more : Members) : (putAll ms more).keys.Nodup := by
  induction more generalizing ms with
  | nil => exact h
  | cons first rest ih => exact ih (nodup_keys_put h first.1 first.2)

/-- The members under keys that `more` does not have. -/
def without (ms more : Members) : Members := ms.filter fun m => m.1 ∉ more.keys

/-- **Putting members** over others adds to them those under other keys. -/
theorem putAll_perm (h : ms.keys.Nodup) (hMore : more.keys.Nodup) :
    putAll ms more ~ more ++ ms.without more := by
  induction more generalizing ms with
  | nil => simp [putAll, without]
  | cons first rest ih =>
    obtain ⟨k, w⟩ := first
    rw [keys_cons, List.nodup_cons] at hMore
    have hWithout : without (put k w ms) rest ~ (k, w) :: ms.without ((k, w) :: rest) := by
      have hFilter := (put_perm h k w).filter fun m => m.1 ∉ keys rest
      rw [List.filter_cons_of_pos (by simpa using hMore.1), List.filter_filter] at hFilter
      refine hFilter.trans (.of_eq ?_)
      rw [without]
      congr 1
      apply List.filter_congr
      intro m _
      simp [Bool.and_comm]
    calc putAll (put k w ms) rest
      _ ~ rest ++ without (put k w ms) rest := ih (nodup_keys_put h k w) hMore.2
      _ ~ rest ++ (k, w) :: ms.without ((k, w) :: rest) := hWithout.append_left rest
      _ ~ (k, w) :: rest ++ ms.without ((k, w) :: rest) := List.perm_middle

theorem put_of_new (h : key ∉ ms.keys) (v : Value) : put key v ms = ms ++ [(key, v)] := by
  induction ms with
  | nil => rfl
  | cons first rest ih =>
    rw [keys_cons, List.mem_cons, not_or] at h
    rw [put, if_neg (Ne.symm h.1), ih h.2]
    rfl

theorem putAll_of_new (h : keys (ms ++ more) |>.Nodup) : putAll ms more = ms ++ more := by
  induction more generalizing ms with
  | nil => simp [putAll]
  | cons first rest ih =>
    have hNew : first.1 ∉ ms.keys := by
      intro hMem
      rw [keys, List.map_append, List.nodup_append] at h
      exact h.2.2 _ hMem _ List.mem_cons_self rfl
    show putAll (put first.1 first.2 ms) rest = _
    rw [put_of_new hNew, ih (by simpa using h), List.append_assoc]
    rfl

theorem without_eq_nil_iff : ms.without more = [] ↔ ∀ key ∈ ms.keys, key ∈ more.keys := by
  rw [without, List.filter_eq_nil_iff]
  show _ ↔ ∀ key ∈ ms.map Prod.fst, key ∈ more.keys
  rw [List.forall_mem_map]
  simp

end Members

namespace Rows

def ofMembers (ms : Members) : Rows := ms.map fun m => (.text m.1, m.2)

theorem put_ofMembers (ms : Members) (key : String) (v : Value) :
    put (.text key) v (ofMembers ms) = ofMembers (Members.put key v ms) := by
  induction ms with
  | nil => rfl
  | cons first rest ih =>
    obtain ⟨k, w⟩ := first
    have hSame : (Value.text k).same (.text key) = true ↔ k = key := by
      rw [Value.same, beq_iff_eq]
    rw [Members.put]
    by_cases hKey : k = key
    · subst hKey
      rw [if_pos rfl]
      show (if _ then _ else _) = _
      rw [if_pos (hSame.2 rfl)]
      rfl
    · rw [if_neg hKey]
      show (if _ then _ else _) = _
      rw [if_neg (hSame.not.2 hKey)]
      exact congrArg _ ih

theorem putAll_ofMembers (ms more : Members) :
    putAll (ofMembers ms) (ofMembers more) = ofMembers (Members.putAll ms more) := by
  induction more generalizing ms with
  | nil => rfl
  | cons first rest ih =>
    show putAll (put (.text first.1) first.2 (ofMembers ms)) (ofMembers rest) = _
    rw [put_ofMembers, ih]
    rfl

theorem ofRows_putAll (ms more : Members) :
    Value.ofRows (putAll (ofMembers ms) (ofMembers more)) = .object (Members.putAll ms more) := by
  rw [putAll_ofMembers]
  exact Value.ofRows_map_text _

end Rows

/-! ### Equal members -/

namespace Value

variable {vs ws : Members}

theorem sameMembers_iff : sameMembers vs ws = true ↔
    ∀ m ∈ vs, ∃ w, Members.get? ws m.1 = some w ∧ m.2.same w = true := by
  induction vs with
  | nil => simp [sameMembers]
  | cons first rest ih =>
    rw [sameMembers, Bool.and_eq_true, ih, List.forall_mem_cons, Members.get?]
    cases ws.lookup first.1 <;> simp

theorem same_of_perm (h : vs ~ ws) (hKeys : vs.keys.Nodup) (hSelf : ∀ m ∈ vs, m.2.same m.2 = true) :
    (object vs).same (object ws) = true := by
  have hKeys' : ws.keys.Nodup := (h.map Prod.fst).nodup_iff.1 hKeys
  rw [same, Bool.and_eq_true, beq_iff_eq, sameMembers_iff]
  constructor
  · exact h.length_eq
  · intro m hm
    exact ⟨m.2, Members.get?_of_mem hKeys' (h.mem_iff.1 hm), hSelf m hm⟩

/-- Members with more behind them, in any order, equal the members exactly if there is no more. -/
theorem same_iff_of_perm_append {more : Members} (h : vs ~ ws ++ more) (hKeys : vs.keys.Nodup)
    (hSelf : ∀ m ∈ vs, m.2.same m.2 = true) : (object vs).same (object ws) = true ↔ more = [] := by
  constructor
  · intro hSame
    rw [same, Bool.and_eq_true, beq_iff_eq] at hSame
    have hLength := h.length_eq
    rw [List.length_append, hSame.1] at hLength
    exact List.eq_nil_of_length_eq_zero (by omega)
  · rintro rfl
    rw [List.append_nil] at h
    exact same_of_perm h hKeys hSelf

theorem same_of_mem (h : (object vs).same (object vs) = true) (hKeys : vs.keys.Nodup) {m : String × Value}
    (hm : m ∈ vs) : m.2.same m.2 = true := by
  rw [same, Bool.and_eq_true, sameMembers_iff] at h
  obtain ⟨w, hw, hSame⟩ := h.2 m hm
  rw [Members.get?_of_mem hKeys hm] at hw
  cases hw
  exact hSame

end Value

/-! ### Saved settings -/

/-- What is written of a value is read as the value, which equals itself. -/
structure Value.Faithful (write : Value → List UInt8) (reader : DocumentReader) (v : Value) : Prop where
  reads : reader (write v) = .ok (some v)
  self : v.same v = true

namespace Settings

variable {s : Settings} {file : String} {severities options : Members}

/-- Settings whose severities and options are objects. -/
structure HoldsObjects (s : Settings) (severities options : Members) : Prop where
  severities_eq : s.severities = .object severities
  options_eq : s.ruleOptions = .object options
  severities_nodup : severities.keys.Nodup
  options_nodup : options.keys.Nodup

theorem orElse_object (ms : Members) : (Value.object ms).orElse (.object []) = .object ms := by
  cases ms <;> rfl

theorem merge_severities {own : Members} (h : s.severities = .object own) (given : Members) :
    s.merge file "rule_severities" (.object given) =
      .done { s with severities := .object (own.putAll given) } := by
  dsimp only [merge]
  rw [orElse_object, h, Value.mapping?]
  exact congrArg (fun v => Logged.done { s with severities := v }) (Rows.ofRows_putAll own given)

theorem merge_options {own : Members} (h : s.ruleOptions = .object own) (given : Members) :
    s.merge file "rule_configs" (.object given) =
      .done { s with ruleOptions := .object (own.putAll given) } := by
  dsimp only [merge]
  rw [orElse_object, h]
  exact congrArg (fun v => Logged.done { s with ruleOptions := v }) (Rows.ofRows_putAll own given)

theorem mergeAll_cons {t : Settings} {key : String} {v : Value} (h : s.merge file key v = .done t)
    (rest : Rows) :
    s.mergeAll file ((.text key, v) :: rest) = t.mergeAll file rest := by
  rw [mergeAll, h]
  exact Logged.done_andThen t _

/-- **What comes of the document of settings.** -/
theorem ofDocument_toMembers (h : s.HoldsObjects severities options) :
    ofDocument file (.object s.toMembers) =
      .done { s with ruleOptions := .object (standardOptions.putAll options) } := by
  obtain ⟨enabled, perFile, total, threshold, _, _⟩ := s
  obtain ⟨rfl, rfl, hSeverities, hOptions⟩ := h
  have hNew : Members.putAll [] severities = severities := Members.putAll_of_new hSeverities
  rw [ofDocument, orElse_object]
  show (Logged.done _).andThen (standard.mergeAll file) = _
  rw [Logged.done_andThen]
  show standard.mergeAll file [(.text "enabled_rules", enabled), (.text "max_findings_per_file", perFile),
    (.text "max_total_findings", total), (.text "severity_threshold", threshold),
    (.text "rule_severities", .object severities), (.text "rule_configs", .object options)] = _
  rw [mergeAll_cons rfl, mergeAll_cons rfl, mergeAll_cons rfl, mergeAll_cons rfl,
    mergeAll_cons (merge_severities rfl severities), mergeAll_cons (merge_options rfl options), hNew]
  rfl

/-! ### Saving and loading -/

theorem same_of_toMembers (h : (Value.object s.toMembers).same (.object s.toMembers) = true) :
    s.same s = true := by
  have hNodup : s.toMembers.keys.Nodup := by
    show ["enabled_rules", "max_findings_per_file", "max_total_findings", "severity_threshold",
      "rule_severities", "rule_configs"].Nodup
    decide
  have hSelf (m : String × Value) (hm : m ∈ s.toMembers) : m.2.same m.2 = true :=
    Value.same_of_mem h hNodup hm
  simp only [toMembers, List.mem_cons, forall_eq_or_imp] at hSelf
  simp [same, hSelf]

theorem same_withOptions {a b : Value} (h : s.same s = true) :
    { s with ruleOptions := a }.same { s with ruleOptions := b } = a.same b := by
  simp_all [same]

theorem same_of_mem_standardOptions : ∀ m ∈ standardOptions, m.2.same m.2 = true := by
  rw [standardOptions]
  simp [Value.same, Value.sameItems, Value.sameMembers, Value.sameWhole]

theorem locate?_of_saveWith {write : Value → List UInt8} {t : FileTree} {path : String}
    (h : (saveWith write s path t).1.result = .ok ()) :
    ∃ p, (saveWith write s path t).2.locate? path = some (p, .file (write (.object s.toMembers))) := by
  unfold saveWith at h ⊢
  dsimp only [Logged.lift] at h ⊢
  have hWritten : (t.write path (write (.object s.toMembers))).1 = .ok () := mapError_eq_ok h
  exact FileTree.locate?_of_write hWritten

theorem loadWith_saved {write : Value → List UInt8} {reader : DocumentReader} {t : FileTree}
    {path : String}
    (h : (saveWith write s path t).1.result = .ok ())
    (hReads : reader (write (.object s.toMembers)) = .ok (some (.object s.toMembers))) :
    loadWith reader (saveWith write s path t).2 (some path) = ofDocument path (.object s.toMembers) := by
  obtain ⟨p, hLocate⟩ := locate?_of_saveWith h
  rw [loadWith_of_file hLocate, hReads]
  exact Logged.done_andThen _ _

/-- **Loading what was saved** gives no warning, and the settings with the standard options of the rules
for which they have none; so it gives equal settings exactly if they have options for each standard rule. -/
theorem load_saved {write : Value → List UInt8} {reader : DocumentReader} {t : FileTree} {path : String}
    (h : s.HoldsObjects severities options)
    (hFaithful : Value.Faithful write reader (.object s.toMembers))
    (hSaved : (saveWith write s path t).1.result = .ok ()) :
    ∃ all : Members, all ~ options ++ standardOptions.without options ∧
      loadWith reader (saveWith write s path t).2 (some path) = .done { s with ruleOptions := .object all } ∧
      { s with ruleOptions := .object all }.same
        { s with ruleOptions := .object (options ++ standardOptions.without options) } = true ∧
      ({ s with ruleOptions := .object all }.same s = true ↔
        ∀ id ∈ standardOptions.keys, id ∈ options.keys) := by
  have hNodup : standardOptions.keys.Nodup := by decide
  have hSelf := same_of_toMembers hFaithful.self
  have hPerm := Members.putAll_perm hNodup h.options_nodup
  have hKeys := Members.nodup_keys_putAll hNodup options
  have hOptions : (Value.object options).same (.object options) = true := by
    rw [← same_withOptions hSelf, ← h.options_eq]
    exact hSelf
  have hValues (m : String × Value) (hm : m ∈ standardOptions.putAll options) : m.2.same m.2 = true := by
    rcases List.mem_append.1 (hPerm.mem_iff.1 hm) with hOwn | hAdded
    · exact Value.same_of_mem hOptions h.options_nodup hOwn
    · exact same_of_mem_standardOptions m (List.mem_of_mem_filter hAdded)
  refine ⟨standardOptions.putAll options, hPerm, ?_, ?_, ?_⟩
  · rw [loadWith_saved hSaved hFaithful.reads, ofDocument_toMembers h]
  · rw [same_withOptions hSelf]
    exact Value.same_of_perm hPerm hKeys hValues
  · have hSame : { s with ruleOptions := .object (standardOptions.putAll options) }.same s =
        (Value.object (standardOptions.putAll options)).same (.object options) := by
      rw [← same_withOptions hSelf, ← h.options_eq]
    rw [hSame, Value.same_iff_of_perm_append hPerm hKeys hValues, Members.without_eq_nil_iff]

def adjusted : Settings :=
  { plain with
    severities := .object [("style.no_trailing_spaces", .text "error")]
    ruleOptions := .object [("style.object_curly_spacing", .object [("options", .list [.text "always"])])] }

def adjustedText : List UInt8 := Utf8.encode ("enabled_rules:\n- '*'\nmax_findings_per_file: 200\n" ++
  "max_total_findings: 5000\nseverity_threshold: info\nrule_severities:\n" ++
  "  style.no_trailing_spaces: error\nrule_configs:\n  style.object_curly_spacing:\n    options:\n" ++
  "    - always\n").toList

def writeAdjusted (v : Value) : List UInt8 :=
  if v.same (.object adjusted.toMembers) then adjustedText else []

def readAdjusted : DocumentReader := fun data =>
  .ok (if data = adjustedText then some (.object adjusted.toMembers) else none)

/-- Adjusted settings are saved in a folder that is made for them, and the standard options of a rule are
added when they are loaded. -/
theorem load_saved_adjusted :
    ∃ all : Members, all ~ [("style.object_curly_spacing", .object [("options", .list [.text "always"])]),
        ("style.no_trailing_spaces", .object [("skipBlankLines", .bool false)])] ∧
      loadWith readAdjusted (saveWith writeAdjusted adjusted "conf/spacelint.yml" ⟨["lib"], []⟩).2
        (some "conf/spacelint.yml") = .done { adjusted with ruleOptions := .object all } ∧
      { adjusted with ruleOptions := .object all }.same adjusted = false := by
  have hObjects : adjusted.HoldsObjects [("style.no_trailing_spaces", .text "error")]
      [("style.object_curly_spacing", .object [("options", .list [.text "always"])])] :=
    ⟨rfl, rfl, by decide, by decide⟩
  have hSelf : (Value.object adjusted.toMembers).same (.object adjusted.toMembers) = true := by
    simp [adjusted, plain, toMembers, Value.same, Value.sameItems, Value.sameMembers, Value.sameWhole,
      List.lookup_cons]
  have hReads : readAdjusted (writeAdjusted (.object adjusted.toMembers)) =
      .ok (some (.object adjusted.toMembers)) := by
    rw [writeAdjusted, if_pos hSelf, readAdjusted, if_pos rfl]
  have hSaved : (saveWith writeAdjusted adjusted "conf/spacelint.yml" ⟨["lib"], []⟩).1.result =
      .ok () := rfl
  obtain ⟨all, hAll, hLoad, -, hSame⟩ := load_saved hObjects ⟨hReads, hSelf⟩ hSaved
  refine ⟨all, hAll, hLoad, ?_⟩
  rw [Bool.eq_false_iff, Ne, hSame]
  decide

end Settings

end TidySpace
