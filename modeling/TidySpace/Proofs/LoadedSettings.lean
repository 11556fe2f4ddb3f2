import TidySpace.Proofs.Analysis
import TidySpace.Settings.File

/-! # What settings can be loaded from

A settings file falls back to the standard settings with a warning where its document is broken, and
only there. Reading the file can fail in another way, and the document can be of no use: then loading
fails. `IsSettings` says which documents are of use, field by field: the severities have to make a
mapping, the options have to be one, and other fields may be anything. Putting one field over settings
works exactly then (`merge_cases`), hence putting all of them does (`exists_mergeAll_iff`), and
`loads_iff` says for every file whether settings are loaded from it.
-/

namespace TidySpace

/-! ### Values that make mappings -/

namespace Value

def IsPair (v : Value) : Prop := ∃ key w, v.items? = .ok [key, w] ∧ key.isContainer = false

def IsMapping (v : Value) : Prop := ∃ rows, v.rows? = .ok rows

def MakesMapping (v : Value) : Prop :=
  v.IsMapping ∨ ∃ items, v.items? = .ok items ∧ ∀ item ∈ items, item.IsPair

theorem putPair_cases (rows : Rows) (v : Value) :
    (v.IsPair ∧ ∃ more, Rows.putPair rows v = .ok more) ∨
      (¬ v.IsPair ∧ ∃ m, Rows.putPair rows v = .error m) := by
  by_cases hPair : v.IsPair
  · left
    obtain ⟨key, w, hItems, hKey⟩ := id hPair
    refine ⟨hPair, rows.put key w, ?_⟩
    rw [Rows.putPair, hItems]
    show (if key.isContainer then Except.error _ else Except.ok (rows.put key w)) = _
    rw [hKey]
    rfl
  · right
    refine ⟨hPair, ?_⟩
    cases hItems : v.items? with
    | error m =>
      rw [Rows.putPair, hItems]
      exact ⟨m, rfl⟩
    | ok items =>
      rw [Rows.putPair, hItems]
      match items with
      | [] => exact ⟨_, rfl⟩
      | [_] => exact ⟨_, rfl⟩
      | _ :: _ :: _ :: _ => exact ⟨_, rfl⟩
      | [key, w] =>
        have hKey : key.isContainer = true := by
          rw [← Bool.not_eq_false]
          intro hKey
          exact hPair ⟨key, w, hItems, hKey⟩
        refine ⟨.wrongKind, ?_⟩
        show (if key.isContainer then Except.error _ else Except.ok (rows.put key w)) = _
        rw [hKey]
        rfl

theorem exists_foldlM_putPair_iff (rows : Rows) (pairs : List Value) :
    (∃ all, pairs.foldlM Rows.putPair rows = .ok all) ↔ ∀ pair ∈ pairs, pair.IsPair := by
  induction pairs generalizing rows with
  | nil => exact ⟨fun _ pair hPair => absurd hPair List.not_mem_nil, fun _ => ⟨rows, rfl⟩⟩
  | cons pair rest ih =>
    rw [List.foldlM_cons, List.forall_mem_cons]
    rcases putPair_cases rows pair with ⟨hPair, more, hMore⟩ | ⟨hPair, m, hError⟩
    · rw [hMore]
      exact (ih more).trans (and_iff_right hPair).symm
    · rw [hError]
      refine iff_of_false ?_ fun h => hPair h.1
      rintro ⟨all, hAll⟩
      cases hAll

/-- **Which values make a mapping.** -/
theorem exists_mapping?_iff (v : Value) : (∃ rows, v.mapping? = .ok rows) ↔ v.MakesMapping := by
  rw [mapping?, MakesMapping, IsMapping]
  cases hRows : v.rows? with
  | ok rows => exact iff_of_true ⟨rows, rfl⟩ (Or.inl ⟨rows, rfl⟩)
  | error m =>
    rw [or_iff_right (by simp)]
    cases hItems : v.items? with
    | error m =>
      apply iff_of_false
      · rintro ⟨rows, h⟩
        cases h
      · rintro ⟨items, h, -⟩
        cases h
    | ok items => exact (exists_foldlM_putPair_iff [] items).trans (by simp)

theorem orElse_iff {p : Value → Prop} (hEmpty : p (.object [])) (v : Value) :
    p (v.orElse (.object [])) ↔ (v.isGiven = true → p v) := by
  rw [orElse]
  by_cases hGiven : v.isGiven = true
  · rw [if_pos hGiven]
    simp [hGiven]
  · rw [if_neg hGiven]
    exact iff_of_true hEmpty fun h => absurd h hGiven

end Value

/-! ### Fields -/

namespace Settings

variable {s : Settings} {file key : String} {v : Value}

/-- A field that can be put over settings. -/
structure IsField (key v : Value) : Prop where
  severities : key = .text "rule_severities" → v.isGiven = true → v.MakesMapping
  options : key = .text "rule_configs" → v.isGiven = true → v.IsMapping

/-- A document whose fields can be put over settings. -/
def IsSettings (v : Value) : Prop :=
  v.isGiven = true → ∃ rows, v.rows? = .ok rows ∧ ∀ r ∈ rows, IsField r.1 r.2

theorem isField_severities_iff :
    IsField (.text "rule_severities") v ↔ (v.orElse (.object [])).MakesMapping := by
  rw [Value.orElse_iff (p := Value.MakesMapping) (Or.inl ⟨[], rfl⟩)]
  constructor
  · intro h
    exact h.severities rfl
  · intro h
    exact ⟨fun _ => h, fun hKey => absurd (Value.text.inj hKey) (by decide)⟩

theorem isField_options_iff :
    IsField (.text "rule_configs") v ↔ (v.orElse (.object [])).IsMapping := by
  rw [Value.orElse_iff (p := Value.IsMapping) ⟨[], rfl⟩]
  constructor
  · intro h
    exact h.options rfl
  · intro h
    exact ⟨fun hKey => absurd (Value.text.inj hKey) (by decide), fun _ => h⟩

theorem isField_of_ne {key : Value} (hSeverities : key ≠ .text "rule_severities")
    (hOptions : key ≠ .text "rule_configs") : IsField key v :=
  ⟨fun h => absurd h hSeverities, fun h => absurd h hOptions⟩

/-! ### Putting fields over settings -/

/-- Settings over which a field can be put. -/
structure HasMappings (s : Settings) : Prop where
  severities : s.severities.IsMapping
  options : s.ruleOptions.IsMapping

theorem hasMappings_standard : standard.HasMappings := ⟨⟨_, rfl⟩, ⟨_, rfl⟩⟩

theorem HasMappings.set? {t : Settings} (h : s.HasMappings) (hSet : s.set? key v = some t)
    (hSeverities : key ≠ "rule_severities") (hOptions : key ≠ "rule_configs") : t.HasMappings := by
  unfold Settings.set? at hSet
  split at hSet
  case h_5 => exact absurd rfl hSeverities
  case h_6 => exact absurd rfl hOptions
  case h_7 => cases hSet
  all_goals
    cases hSet
    exact ⟨h.severities, h.options⟩

theorem HasMappings.merge_of_ne (h : s.HasMappings) (hSeverities : key ≠ "rule_severities")
    (hOptions : key ≠ "rule_configs") : ∃ t, (s.merge file key v).result = .ok t ∧ t.HasMappings := by
  unfold merge
  split
  next => exact absurd rfl hSeverities
  next => exact absurd rfl hOptions
  next =>
    cases hSet : s.set? key v with
    | some t => exact ⟨t, rfl, h.set? hSet hSeverities hOptions⟩
    | none => exact ⟨s, rfl, h⟩

/-- **One field.** It is put over settings if it can be, and fails otherwise. -/
theorem HasMappings.merge_cases (h : s.HasMappings) (key : String) (v : Value) :
    (IsField (.text key) v ∧ ∃ t, (s.merge file key v).result = .ok t ∧ t.HasMappings) ∨
      (¬ IsField (.text key) v ∧ ∃ e, (s.merge file key v).result = .error e) := by
  by_cases hSeverities : key = "rule_severities"
  · subst hSeverities
    rw [isField_severities_iff, ← Value.exists_mapping?_iff]
    obtain ⟨own, hOwn⟩ := h.severities
    dsimp only [merge, Logged.lift]
    rw [hOwn]
    cases (v.orElse (.object [])).mapping? with
    | ok given => exact Or.inl ⟨⟨given, rfl⟩, _, rfl, ⟨_, Value.rows?_ofRows _⟩, h.options⟩
    | error m => exact Or.inr ⟨by simp, _, rfl⟩
  · by_cases hOptions : key = "rule_configs"
    · subst hOptions
      rw [isField_options_iff, Value.IsMapping]
      obtain ⟨own, hOwn⟩ := h.options
      dsimp only [merge, Logged.lift]
      rw [hOwn]
      cases (v.orElse (.object [])).rows? with
      | ok given => exact Or.inl ⟨⟨given, rfl⟩, _, rfl, h.severities, ⟨_, Value.rows?_ofRows _⟩⟩
      | error m => exact Or.inr ⟨by simp, _, rfl⟩
    · left
      exact ⟨isField_of_ne (by simpa using hSeverities) (by simpa using hOptions),
        h.merge_of_ne hSeverities hOptions⟩

/-- **All fields.** They are put over settings exactly if each of them can be. -/
theorem HasMappings.exists_mergeAll_iff (h : s.HasMappings) (file : String) (rows : Rows) :
    (∃ t, (s.mergeAll file rows).result = .ok t) ↔ ∀ r ∈ rows, IsField r.1 r.2 := by
  induction rows generalizing s with
  | nil => exact ⟨fun _ r hr => absurd hr List.not_mem_nil, fun _ => ⟨s, rfl⟩⟩
  | cons r rest ih =>
    obtain ⟨key, v⟩ := r
    rw [List.forall_mem_cons]
    cases key with
    | text key =>
      rw [mergeAll, Logged.result_bind]
      rcases h.merge_cases key v with ⟨hField, t, hMerge, hMappings⟩ | ⟨hField, e, hMerge⟩
      · rw [hMerge]
        exact (ih hMappings).trans (and_iff_right hField).symm
      · rw [hMerge]
        apply iff_of_false
        · rintro ⟨t, hAll⟩
          cases hAll
        · intro hFields
          exact hField hFields.1
    | _ => exact (ih h).trans (and_iff_right (isField_of_ne (by simp) (by simp))).symm

/-! ### Documents -/

theorem ofDocument_of_not_given (h : v.isGiven = false) : ofDocument file v = .done standard := by
  rw [ofDocument, Value.orElse, if_neg (Bool.eq_false_iff.1 h)]
  rfl

theorem ofDocument_of_given (h : v.isGiven = true) :
    (ofDocument file v).result =
      (v.rows?.mapError .mismatch).bind fun rows => (standard.mergeAll file rows).result := by
  rw [ofDocument, Value.orElse, if_pos h, Logged.result_bind]
  rfl

/-- **Which documents settings are made of.** -/
theorem exists_ofDocument_iff (file : String) (v : Value) :
    (∃ s, (ofDocument file v).result = .ok s) ↔ IsSettings v := by
  rw [IsSettings]
  cases hGiven : v.isGiven with
  | false =>
    rw [ofDocument_of_not_given hGiven]
    exact iff_of_true ⟨standard, rfl⟩ (by simp)
  | true =>
    rw [ofDocument_of_given hGiven]
    cases hRows : v.rows? with
    | ok rows => exact (hasMappings_standard.exists_mergeAll_iff file rows).trans (by simp)
    | error m =>
      apply iff_of_false
      · rintro ⟨s, h⟩
        cases h
      · intro h
        obtain ⟨rows, h, -⟩ := h rfl
        cases h

/-! ### Files -/

variable {reader : DocumentReader} {t : FileTree} {path : String} {p : Path} {data : List UInt8}

theorem loadWith_of_file (h : t.locate? path = some (p, .file data)) :
    loadWith reader t (some path) = (Logged.lift (reader data)).andThen fun
      | some v => ofDocument path v
      | none => ⟨.ok standard, [.unreadableSettings path], 0⟩ := by
  rw [loadWith, h]
  rfl

theorem loadWith_of_no_file (h : ∀ p data, t.locate? path ≠ some (p, .file data)) :
    (loadWith reader t (some path)).result = .ok standard := by
  unfold loadWith
  dsimp only
  split
  next => rfl
  next => rfl
  next hLocate => exact absurd hLocate (h _ _)

theorem exists_loadWith_of_file_iff (h : t.locate? path = some (p, .file data)) :
    (∃ s, (loadWith reader t (some path)).result = .ok s) ↔
      ∃ document, reader data = .ok document ∧ ∀ v ∈ document, IsSettings v := by
  rw [loadWith_of_file h, Logged.result_andThen]
  cases reader data with
  | error e =>
    apply iff_of_false
    · rintro ⟨s, h⟩
      cases h
    · rintro ⟨document, h, -⟩
      cases h
  | ok document =>
    cases document with
    | none => exact iff_of_true ⟨standard, rfl⟩ ⟨none, rfl, by simp⟩
    | some v => exact (exists_ofDocument_iff path v).trans (by simp)

/-- A document that is no mapping is of no use, or stands for no settings and is not remarked on. -/
theorem ofDocument_of_not_mapping (file : String) (h : ¬ v.IsMapping) :
    (ofDocument file v).result = .ok standard → (ofDocument file v).warnings = [] := by
  cases hGiven : v.isGiven with
  | false =>
    rw [ofDocument_of_not_given hGiven]
    intro _
    rfl
  | true =>
    rw [ofDocument_of_given hGiven]
    cases hRows : v.rows? with
    | ok rows => exact absurd ⟨rows, hRows⟩ h
    | error m =>
      intro hResult
      cases hResult

theorem loadWith_of_not_mapping (h : t.locate? path = some (p, .file data))
    (hOther : ∀ v, reader data = .ok (some v) → ¬ v.IsMapping) :
    ((loadWith reader t (some path)).result = .ok standard ∧
        (loadWith reader t (some path)).warnings = [.unreadableSettings path]) ↔
      reader data = .ok none := by
  rw [loadWith_of_file h]
  cases hDocument : reader data with
  | error e => simp [Logged.andThen, Logged.lift]
  | ok document =>
    cases document with
    | none => simp [Logged.andThen, Logged.lift]
    | some v =>
      have hSilent := ofDocument_of_not_mapping path (hOther v hDocument)
      apply iff_of_false
      · rintro ⟨hResult, hWarnings⟩
        rw [Logged.result_andThen] at hResult
        rw [Logged.andThen] at hWarnings
        simp [Logged.lift, hSilent hResult] at hWarnings
      · simp

/-- **Loading settings.** Settings are loaded unless the path leads to a file that fails to be read or whose
document is of no use. Where a file holds no mapping, the standard settings and one warning come of it exactly
if its document is broken. -/
theorem loads_iff (reader : DocumentReader) (t : FileTree) (path : String) :
    ((∃ s, (loadWith reader t (some path)).result = .ok s) ↔
      ∀ p data, t.locate? path = some (p, .file data) →
        ∃ document, reader data = .ok document ∧ ∀ v ∈ document, IsSettings v) ∧
    ∀ p data, t.locate? path = some (p, .file data) →
      (∀ v, reader data = .ok (some v) → ¬ v.IsMapping) →
      (((loadWith reader t (some path)).result = .ok standard ∧
          (loadWith reader t (some path)).warnings = [.unreadableSettings path]) ↔
        reader data = .ok none) := by
  constructor
  · by_cases hFile : ∃ p data, t.locate? path = some (p, .file data)
    · obtain ⟨p, data, hLocate⟩ := hFile
      rw [exists_loadWith_of_file_iff hLocate]
      constructor
      · intro h p' data' hLocate'
        cases hLocate.symm.trans hLocate'
        exact h
      · intro h
        exact h p data hLocate
    · simp only [not_exists] at hFile
      exact iff_of_true ⟨standard, loadWith_of_no_file hFile⟩ fun p data hLocate =>
        absurd hLocate (hFile p data)
  · intro p data hLocate hOther
    exact loadWith_of_not_mapping hLocate hOther

/-- Nothing is loaded from a file with a byte that begins no character, where the text of a file is read. -/
theorem load_of_stray_byte :
    (loadWith (textReader fun _ => some .null) ⟨[], [(["c.yml"], .file [0xFF])]⟩ (some "c.yml")).result =
      .error .notUtf8 := by
  have hLocate : (⟨[], [(["c.yml"], .file [0xFF])]⟩ : FileTree).locate? "c.yml" =
    some (["c.yml"], .file [0xFF]) := rfl
  have hStray : Utf8.decode? [0xFF] = none := by
    rw [Utf8.decode?, Utf8.scan, List.mapM_cons]
    rfl
  rw [loadWith_of_file hLocate, textReader, hStray]
  rfl

end Settings

end TidySpace
