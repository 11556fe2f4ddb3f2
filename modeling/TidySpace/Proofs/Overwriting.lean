import TidySpace.FileTree.Listing
import TidySpace.Proofs.Analysis
import TidySpace.Proofs.Utf8
import TidySpace.Settings.File

/-! # Overwriting files

Overwriting a file changes what it holds and nothing else. The trees before and after are `Alike`: at
each path both have a folder, or both a file, or neither anything. So path texts lead to the same
places (`Alike.spot?_eq`), paths stand for the same files (`Alike.list_eq`), and the same settings
file is found (`Alike.find?_eq`); and what is at other paths is as before (`overwrite_of_locate?`).
-/

namespace TidySpace

namespace FileTree

/-! ### Replacing an entry -/

section Replacing

variable {entries : List (Path × Entry)} {p q : Path} {e : Entry}

theorem lookup_replace (entries : List (Path × Entry)) (p q : Path) (e : Entry) :
    (entries.map fun old => if old.1 == p then (p, e) else old).lookup q =
      if q = p then (entries.lookup p).map fun _ => e else entries.lookup q := by
  induction entries with
  | nil => simp
  | cons old entries ih =>
    obtain ⟨key, value⟩ := old
    simp only [beq_iff_eq] at ih
    by_cases hKey : key = p
    · subst hKey
      by_cases hq : q = key
      · simp [hq]
      · simp [hq, List.lookup_cons, beq_eq_false_iff_ne.2 hq, ih]
    · by_cases hq : q = key
      · subst hq
        simp [hKey]
      · simp [hKey, List.lookup_cons, beq_eq_false_iff_ne.2 hq,
          beq_eq_false_iff_ne.2 (Ne.symm hKey), ih]

theorem mem_of_lookup (h : entries.lookup p = some e) : (p, e) ∈ entries := by
  induction entries with
  | nil => cases h
  | cons old entries ih =>
    obtain ⟨key, value⟩ := old
    rw [List.lookup_cons] at h
    split at h
    next hKey =>
      cases h
      rw [beq_iff_eq.1 hKey]
      exact List.mem_cons_self
    next => exact List.mem_cons_of_mem _ (ih h)

end Replacing

variable {t t' : FileTree} {p q : Path} {text : String} {data : List UInt8}

/-- A file is at a path of its own, and the working folder is not below it. -/
theorem lookup_of_get?_file (h : t.get? p = some (.file data)) :
    p.isPrefixOf t.home = false ∧ t.entries.lookup p = some (.file data) := by
  unfold get? at h
  split at h
  next => cases h
  next hInside =>
    refine ⟨Bool.eq_false_iff.2 hInside, ?_⟩
    split at h
    next e hLookup =>
      rw [hLookup]
      exact h
    next =>
      split at h <;> cases h

theorem entries_put (h : t.get? p = some (.file data)) (e : Entry) :
    (t.put p e).entries = t.entries.map fun old => if old.1 == p then (p, e) else old := by
  obtain ⟨-, hLookup⟩ := lookup_of_get?_file h
  rw [put, if_pos]
  exact List.any_eq_true.2 ⟨_, mem_of_lookup hLookup, beq_self_eq_true p⟩

@[simp] theorem home_put (t : FileTree) (p : Path) (e : Entry) : (t.put p e).home = t.home := by
  rw [put]
  split <;> rfl

/-- **What is at the paths of a tree** after a file was replaced. -/
theorem get?_put (h : t.get? p = some (.file data)) (e : Entry) (q : Path) :
    (t.put p e).get? q = if q = p then some e else t.get? q := by
  obtain ⟨hInside, hLookup⟩ := lookup_of_get?_file h
  have hAny : (t.put p e).entries.any (fun entry => q.isPrefixOf entry.1) =
      t.entries.any fun entry => q.isPrefixOf entry.1 := by
    rw [entries_put h, List.any_map]
    congr 1
    funext old
    simp only [Function.comp_apply]
    split
    next hKey => rw [beq_iff_eq.1 hKey]
    next => rfl
  unfold get?
  rw [hAny, home_put, entries_put h, lookup_replace, hLookup]
  by_cases hq : q = p
  · subst hq
    simp [hInside]
  · simp [hq]

theorem paths_put (h : t.get? p = some (.file data)) (e : Entry) :
    (t.put p e).entries.map Prod.fst = t.entries.map Prod.fst := by
  rw [entries_put h, List.map_map]
  refine List.map_congr_left fun old _ => ?_
  dsimp only [Function.comp_apply]
  split
  next hKey => exact (beq_iff_eq.1 hKey).symm
  next => rfl

/-! ### Trees that differ in what files hold -/

/-- Trees with the same folders and files, at the same paths. -/
structure Alike (t t' : FileTree) : Prop where
  kinds : ∀ p, (t.get? p).map Entry.isFile = (t'.get? p).map Entry.isFile
  home : t.home = t'.home
  paths : t.entries.map Prod.fst = t'.entries.map Prod.fst

theorem Alike.refl (t : FileTree) : Alike t t := ⟨fun _ => rfl, rfl, rfl⟩

theorem Alike.trans {t'' : FileTree} (h : Alike t t') (h' : Alike t' t'') : Alike t t'' :=
  ⟨fun p => (h.kinds p).trans (h'.kinds p), h.home.trans h'.home, h.paths.trans h'.paths⟩

/-- **A tree is alike after a file was replaced.** -/
theorem alike_put (h : t.get? p = some (.file data)) (data' : List UInt8) :
    Alike t (t.put p (.file data')) := by
  refine ⟨fun q => ?_, (home_put ..).symm, (paths_put h _).symm⟩
  rw [get?_put h]
  split
  next hq =>
    subst hq
    rw [h]
    rfl
  next => rfl

/-- Where a path text leads, if anything is there. -/
def spot? (t : FileTree) (text : String) : Option Path := (t.locate? text).map Prod.fst

theorem locate?_eq_some {e : Entry} (h : t.locate? text = some (p, e)) :
    t.spot? text = some p ∧ t.get? p = some e := by
  refine ⟨congrArg (Option.map Prod.fst) h, ?_⟩
  unfold locate? at h
  split at h
  next => cases h
  next =>
    split at h
    next =>
      obtain ⟨e', hGet, hEq⟩ := Option.map_eq_some_iff.1 h
      cases hEq
      exact hGet
    next => cases h

theorem locate?_of_spot? (h : t.spot? text = some p) : ∃ e, t.locate? text = some (p, e) := by
  obtain ⟨⟨p, e⟩, hLocate, rfl⟩ := Option.map_eq_some_iff.1 h
  exact ⟨e, hLocate⟩

/-- Path texts that lead to one place lead to the same entry. -/
theorem locate?_congr {text' : String} (h : t.spot? text = t.spot? text') :
    t.locate? text = t.locate? text' := by
  cases hLocate : t.locate? text with
  | none =>
    rw [spot?, hLocate] at h
    exact (Option.map_eq_none_iff.1 h.symm).symm
  | some found =>
    obtain ⟨p, e⟩ := found
    obtain ⟨hSpot, hGet⟩ := locate?_eq_some hLocate
    obtain ⟨e', hLocate'⟩ := locate?_of_spot? (h.symm.trans hSpot)
    have hEntry := hGet.symm.trans (locate?_eq_some hLocate').2
    rw [hLocate', Option.some.inj hEntry]

namespace Alike

variable (h : Alike t t')
include h

theorem cases_get? (p : Path) : (t.get? p = none ∧ t'.get? p = none) ∨
    (t.get? p = some .folder ∧ t'.get? p = some .folder) ∨
    ∃ data data', t.get? p = some (.file data) ∧ t'.get? p = some (.file data') := by
  have hKind := h.kinds p
  cases hGet : t.get? p with
  | none =>
    rw [hGet] at hKind
    exact Or.inl ⟨rfl, Option.map_eq_none_iff.1 hKind.symm⟩
  | some e =>
    rw [hGet] at hKind
    obtain ⟨e', hGet', hEq⟩ := Option.map_eq_some_iff.1 hKind.symm
    rw [hGet']
    cases e with
    | folder =>
      cases e' with
      | folder => exact Or.inr (Or.inl ⟨rfl, rfl⟩)
      | file => cases hEq
    | file data =>
      cases e' with
      | folder => cases hEq
      | file data' => exact Or.inr (Or.inr ⟨data, data', rfl, rfl⟩)

theorem enter_eq (p : Path) : t.enter p = t'.enter p := by
  unfold enter
  rcases h.cases_get? p with ⟨hGet, hGet'⟩ | ⟨hGet, hGet'⟩ | ⟨data, data', hGet, hGet'⟩ <;>
    rw [hGet, hGet']

theorem walk_eq (here : Path) (steps : List String) : t.walk here steps = t'.walk here steps := by
  induction steps generalizing here with
  | nil => rfl
  | cons step rest ih => rw [walk, walk, h.enter_eq here, ih]

theorem start_eq (text : String) : t.start text = t'.start text := by
  rw [start, start, h.home]

/-- **Path texts lead to the same places.** -/
theorem spot?_eq (text : String) : t.spot? text = t'.spot? text := by
  unfold spot? locate?
  rw [h.start_eq, h.walk_eq]
  split
  next => rfl
  next =>
    split
    next p _ =>
      have hKind := congrArg (Option.map fun _ => p) (h.kinds p)
      simpa only [Option.map_map, Function.comp_def] using hKind
    next => rfl

theorem isFile_eq {e e' : Entry} (hGet : t.get? p = some e) (hGet' : t'.get? p = some e') :
    e.isFile = e'.isFile := by
  have hKind := h.kinds p
  rw [hGet, hGet'] at hKind
  exact Option.some.inj hKind

theorem exists_locate? {e : Entry} (hLocate : t.locate? text = some (p, e)) :
    ∃ e', t'.locate? text = some (p, e') ∧ e.isFile = e'.isFile := by
  obtain ⟨hSpot, hGet⟩ := locate?_eq_some hLocate
  rw [h.spot?_eq] at hSpot
  obtain ⟨e', hLocate'⟩ := locate?_of_spot? hSpot
  exact ⟨e', hLocate', h.isFile_eq hGet (locate?_eq_some hLocate').2⟩

theorem locate?_eq_none (hNone : t.locate? text = none) : t'.locate? text = none := by
  have hSpot := h.spot?_eq text
  rw [spot?, hNone] at hSpot
  exact Option.map_eq_none_iff.1 hSpot.symm

theorem cases_locate? (text : String) : (t.locate? text = none ∧ t'.locate? text = none) ∨
    (∃ p, t.locate? text = some (p, .folder) ∧ t'.locate? text = some (p, .folder)) ∨
    ∃ p data data', t.locate? text = some (p, .file data) ∧ t'.locate? text = some (p, .file data') := by
  cases hLocate : t.locate? text with
  | none => exact Or.inl ⟨rfl, h.locate?_eq_none hLocate⟩
  | some found =>
    obtain ⟨p, e⟩ := found
    obtain ⟨e', hLocate', hKind⟩ := h.exists_locate? hLocate
    cases e with
    | folder =>
      cases e' with
      | folder => exact Or.inr (Or.inl ⟨p, rfl, hLocate'⟩)
      | file => cases hKind
    | file data =>
      cases e' with
      | folder => cases hKind
      | file data' => exact Or.inr (Or.inr ⟨p, data, data', rfl, hLocate'⟩)

end Alike

/-! ### Listing and settings -/

namespace Alike

variable (h : Alike t t')
include h

theorem namesIn_eq (p : Path) : t.namesIn p = t'.namesIn p := by
  rw [namesIn, namesIn, places, places, h.home, h.paths]

theorem any_isFile_eq (ask : Bool → Bool) (p : Path) :
    ((t.get? p).any fun e => ask e.isFile) = (t'.get? p).any fun e => ask e.isFile := by
  have hKind := congrArg (Option.any ask) (h.kinds p)
  rwa [Option.any_map, Option.any_map] at hKind

theorem filesIn_eq (p : Path) : t.filesIn p = t'.filesIn p := by
  rw [filesIn, filesIn, h.namesIn_eq]
  exact List.filter_congr fun name _ => h.any_isFile_eq id (p ++ [name])

theorem foldersIn_eq (p : Path) : t.foldersIn p = t'.foldersIn p := by
  rw [foldersIn, foldersIn, h.namesIn_eq]
  exact List.filter_congr fun name _ =>
    congrArg (· && !isIgnored name) (h.any_isFile_eq not (p ++ [name]))

theorem walkBelow_eq (extensions : List String) (folder : String) (p : Path) :
    t.walkBelow extensions folder p = t'.walkBelow extensions folder p := by
  induction folder, p using walkBelow.induct t with
  | case1 folder p ih =>
    rw [walkBelow_eq_append, walkBelow_eq_append, h.filesIn_eq, h.foldersIn_eq]
    have hBelow : ∀ name ∈ t'.foldersIn p,
        t.walkBelow extensions (Path.join folder name) (p ++ [name]) =
          t'.walkBelow extensions (Path.join folder name) (p ++ [name]) :=
      fun name hName => ih name (h.foldersIn_eq p ▸ hName)
    rw [List.flatMap_def, List.flatMap_def, List.map_congr_left hBelow]

theorem filesAt_eq (extensions : List String) (path : String) :
    t.filesAt extensions path = t'.filesAt extensions path := by
  unfold filesAt
  rcases h.cases_locate? path with ⟨hHere, hThere⟩ | ⟨p, hHere, hThere⟩ | ⟨p, _, _, hHere, hThere⟩
  · rw [hHere, hThere]
  · rw [hHere, hThere]
    exact congrArg Logged.done (h.walkBelow_eq extensions path p)
  · rw [hHere, hThere]

/-- **Paths stand for the same files.** -/
theorem list_eq (extensions : List String) (paths : List String) :
    (t.list extensions paths).result = (t'.list extensions paths).result := by
  rw [list, list, funext (h.filesAt_eq extensions)]

theorem isSome_locate? (text : String) : (t.locate? text).isSome = (t'.locate? text).isSome := by
  have hSpot := congrArg Option.isSome (h.spot?_eq text)
  rwa [spot?, spot?, Option.isSome_map, Option.isSome_map] at hSpot

theorem absolute_eq (text : String) : t.absolute text = t'.absolute text := by
  rw [absolute, absolute, h.start_eq]

theorem searchStart_eq (text : String) :
    Settings.searchStart t text = Settings.searchStart t' text := by
  unfold Settings.searchStart
  rw [h.absolute_eq]
  dsimp only
  rcases h.cases_locate? (Path.rootText text ++ Path.render (t'.absolute text)) with
    ⟨hHere, hThere⟩ | ⟨p, hHere, hThere⟩ | ⟨p, _, _, hHere, hThere⟩ <;>
    rw [hHere, hThere]

/-- **The same settings file is found.** -/
theorem find?_eq (start : String) : Settings.find? t start = Settings.find? t' start := by
  have hFind (root : String) : Settings.findIn? t root = Settings.findIn? t' root := by
    funext folder
    rw [Settings.findIn?, Settings.findIn?]
    simp only [h.isSome_locate?]
  rw [Settings.find?, Settings.find?, hFind, h.searchStart_eq]

theorem loadWith_eq {reader : DocumentReader} {path : Option String}
    (hFile : ∀ text ∈ path, ∀ p, t.spot? text = some p → t'.get? p = t.get? p) :
    Settings.loadWith reader t path = Settings.loadWith reader t' path := by
  cases path with
  | none => rfl
  | some text =>
    have hLocate : t.locate? text = t'.locate? text := by
      cases hLocate : t.locate? text with
      | none => exact (h.locate?_eq_none hLocate).symm
      | some found =>
        obtain ⟨p, e⟩ := found
        obtain ⟨hSpot, hGet⟩ := locate?_eq_some hLocate
        obtain ⟨e', hLocate', -⟩ := h.exists_locate? hLocate
        have hGet' := (locate?_eq_some hLocate').2
        rw [hFile text rfl p hSpot, hGet] at hGet'
        rw [hLocate', Option.some.inj hGet']
    unfold Settings.loadWith
    dsimp only
    rw [hLocate]

end Alike

/-! ### Overwriting -/

/-- **Overwriting a file** leaves a tree that is alike, with the new bytes at the place of the file. -/
theorem overwrite_of_locate? (h : t.locate? text = some (p, .file data)) (data' : List UInt8) :
    Alike t (t.overwrite text data') ∧
      ∀ q, (t.overwrite text data').get? q = if q = p then some (.file data') else t.get? q := by
  have hGet := (locate?_eq_some h).2
  rw [overwrite, h]
  exact ⟨alike_put hGet _, get?_put hGet _⟩

theorem readText?_eq_some {cs : List Char} : t.readText? text = some cs ↔
    ∃ p, t.locate? text = some (p, .file (Utf8.encode cs)) := by
  rw [readText?, read?]
  constructor
  · intro h
    split at h
    next p data hLocate =>
      obtain rfl := Utf8.eq_encode_of_decode? h
      exact ⟨p, hLocate⟩
    next => cases h
  · rintro ⟨p, hLocate⟩
    rw [hLocate]
    exact Utf8.decode?_encode cs

end FileTree

end TidySpace
