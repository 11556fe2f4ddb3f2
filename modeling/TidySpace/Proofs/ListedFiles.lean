import TidySpace.Project
import TidySpace.Proofs.Overwriting

/-! # Which files are listed

A walk goes down from a folder, looks at what stands in each folder, and leaves some folders out before
it would go into them. The files that it comes by are those to which names lead down (`LeadsDown`)
without a folder on the way that is left out (`mem_walkBelow`). What a path stands for is said without
the walk (`StandsFor`), and the list of files for paths is that of all that some path stands for, in
order and without repetition (`files_of_paths`).
-/

namespace TidySpace

namespace FileTree

variable {t : FileTree} {p q rest : Path} {name : String} {names : List String}

/-! ### What stands in a folder -/

theorem below?_eq_some : below? p q = some rest ↔ q = p ++ rest := by
  fun_induction below? p q with
  | case1 q => simp [eq_comm]
  | case2 => simp
  | case3 a p q ih => simp [ih]
  | case4 a p b q hNe => simp [Ne.symm hNe]

theorem mem_namesIn : name ∈ t.namesIn p ↔ ∃ rest, p ++ name :: rest ∈ t.places := by
  rw [namesIn, List.mem_eraseDups, List.mem_filterMap]
  constructor
  · rintro ⟨q, hq, hName⟩
    obtain ⟨rest, hBelow, hHead⟩ := Option.bind_eq_some_iff.1 hName
    obtain rfl := below?_eq_some.1 hBelow
    cases rest with
    | nil => cases hHead
    | cons first rest =>
      obtain rfl := Option.some.inj hHead
      exact ⟨rest, hq⟩
  · rintro ⟨rest, hPlace⟩
    exact ⟨_, hPlace, Option.bind_eq_some_iff.2 ⟨name :: rest, below?_eq_some.2 rfl, rfl⟩⟩

theorem mem_places_of_get?_file {data : List UInt8} (h : t.get? p = some (.file data)) :
    p ∈ t.places :=
  List.mem_cons_of_mem _ (List.mem_map_of_mem (f := Prod.fst) (mem_of_lookup (lookup_of_get?_file h).2))

theorem mem_filesIn : name ∈ t.filesIn p ↔ ∃ data, t.get? (p ++ [name]) = some (.file data) := by
  rw [filesIn, List.mem_filter, Option.any_eq_true]
  constructor
  · rintro ⟨-, e, hGet, hFile⟩
    cases e with
    | folder => cases hFile
    | file data => exact ⟨data, hGet⟩
  · rintro ⟨data, hGet⟩
    exact ⟨mem_namesIn.2 ⟨[], mem_places_of_get?_file hGet⟩, _, hGet, rfl⟩

theorem mem_foldersIn : name ∈ t.foldersIn p ↔
    name ∈ t.namesIn p ∧ t.get? (p ++ [name]) = some .folder ∧ isIgnored name = false := by
  rw [foldersIn, List.mem_filter, Bool.and_eq_true, Option.any_eq_true, Bool.not_eq_true']
  refine and_congr_right fun _ => and_congr_left fun _ => ?_
  constructor
  · rintro ⟨e, hGet, hFolder⟩
    cases e with
    | folder => exact hGet
    | file => cases hFolder
  · exact fun hGet => ⟨_, hGet, rfl⟩

/-! ### The walk -/

/-- Names lead down from the folder at a path, from folder to folder, and there is a file in the last
one. -/
inductive LeadsDown (t : FileTree) : Path → List String → String → Prop
  | file {p : Path} {name : String} {data : List UInt8}
    (h : t.get? (p ++ [name]) = some (.file data)) : LeadsDown t p [] name
  | folder {p : Path} {first : String} {names : List String} {name : String}
    (h : t.get? (p ++ [first]) = some .folder) (hRest : LeadsDown t (p ++ [first]) names name) :
    LeadsDown t p (first :: names) name

theorem LeadsDown.mem_places (h : t.LeadsDown p names name) : p ++ names ++ [name] ∈ t.places := by
  induction h with
  | file hGet => simpa using mem_places_of_get?_file hGet
  | folder _ _ ih => simpa using ih

theorem LeadsDown.mem_namesIn {first : String} (h : t.LeadsDown (p ++ [first]) names name) :
    first ∈ t.namesIn p := by
  have hPlace := h.mem_places
  exact FileTree.mem_namesIn.2 ⟨names ++ [name], by simpa using hPlace⟩

/-- **The walk lists what names lead down to**, if it is named as the language's files are and no folder
on the way is left out. -/
theorem mem_walkBelow {extensions : List String} {folder file : String} :
    file ∈ t.walkBelow extensions folder p ↔ ∃ names name, t.LeadsDown p names name ∧
      (∀ n ∈ names, isIgnored n = false) ∧ hasExtension extensions name = true ∧
        file = Path.join (names.foldl Path.join folder) name := by
  induction folder, p using walkBelow.induct t with
  | case1 folder p ih =>
    rw [walkBelow_eq_append, List.mem_append, List.mem_map, List.mem_flatMap]
    constructor
    · rintro (⟨name, hName, rfl⟩ | ⟨first, hFirst, hFile⟩)
      · obtain ⟨hIn, hNamed⟩ := List.mem_filter.1 hName
        obtain ⟨data, hGet⟩ := mem_filesIn.1 hIn
        exact ⟨[], name, .file hGet, fun n hn => absurd hn List.not_mem_nil, hNamed, rfl⟩
      · obtain ⟨-, hGet, hEntered⟩ := mem_foldersIn.1 hFirst
        obtain ⟨names, name, hDown, hWay, hNamed, rfl⟩ := (ih first hFirst).1 hFile
        exact ⟨first :: names, name, .folder hGet hDown, List.forall_mem_cons.2 ⟨hEntered, hWay⟩,
          hNamed, rfl⟩
    · rintro ⟨names, name, hDown, hWay, hNamed, rfl⟩
      cases hDown with
      | file hGet =>
        exact Or.inl ⟨name, List.mem_filter.2 ⟨mem_filesIn.2 ⟨_, hGet⟩, hNamed⟩, rfl⟩
      | @folder _ first names _ hGet hRest =>
        obtain ⟨hEntered, hWay⟩ := List.forall_mem_cons.1 hWay
        have hFirst := mem_foldersIn.2 ⟨hRest.mem_namesIn, hGet, hEntered⟩
        exact Or.inr ⟨first, hFirst, (ih first hFirst).2 ⟨names, name, hRest, hWay, hNamed, rfl⟩⟩

/-! ### What paths stand for -/

def IsSource (name : String) : Prop :=
  ∃ extension ∈ Language.javascript.extensions, extension.toList <:+ name.toList

def IsLeftOut (name : String) : Prop := ['.'] <+: name.toList ∨ name ∈ passedOver

/-- A file for which a path stands: the one at the path itself, or one below the folder at the path, to
which no folder leads that is left out. The folder at the path may have any name. -/
inductive StandsFor (t : FileTree) (path : String) : String → Prop
  | itself {p : Path} {data : List UInt8} (h : t.locate? path = some (p, .file data))
    (hName : IsSource path) : StandsFor t path path
  | below {p : Path} {names : List String} {name : String} (h : t.locate? path = some (p, .folder))
    (hDown : t.LeadsDown p names name) (hWay : ∀ n ∈ names, ¬ IsLeftOut n) (hName : IsSource name) :
    StandsFor t path (Path.join (names.foldl Path.join path) name)

theorem hasExtension_iff : hasExtension Language.javascript.extensions name = true ↔ IsSource name := by
  simp [hasExtension, IsSource]

theorem isIgnored_eq_false_iff : isIgnored name = false ↔ ¬ IsLeftOut name := by
  rw [isIgnored, IsLeftOut, Bool.or_eq_false_iff, not_or, beq_eq_false_iff_ne, Bool.eq_false_iff,
    ne_eq, ne_eq, List.contains_iff_mem]
  refine and_congr_left fun _ => not_congr ?_
  cases name.toList with
  | nil => simp
  | cons c cs => simp [List.cons_prefix_cons, eq_comm]

theorem mem_walkBelow_iff {path file : String} (hLocate : t.locate? path = some (p, .folder)) :
    file ∈ t.walkBelow Language.javascript.extensions path p ↔ t.StandsFor path file := by
  rw [mem_walkBelow]
  simp only [isIgnored_eq_false_iff, hasExtension_iff]
  constructor
  · rintro ⟨names, name, hDown, hWay, hName, rfl⟩
    exact .below hLocate hDown hWay hName
  · rintro (⟨h, -⟩ | ⟨h, hDown, hWay, hName⟩)
    · cases hLocate.symm.trans h
    · obtain ⟨rfl, -⟩ := Prod.mk.inj (Option.some.inj (hLocate.symm.trans h))
      exact ⟨_, _, hDown, hWay, hName, rfl⟩

/-- **One path**: the files for which it stands, and a warning where nothing is there. -/
theorem filesAt_cases (t : FileTree) (path : String) :
    (∃ files, (t.filesAt Language.javascript.extensions path).result = .ok files ∧
      ∀ file, file ∈ files ↔ t.StandsFor path file) ∧
    (t.filesAt Language.javascript.extensions path).warnings =
      if (t.locate? path).isNone then [.missingPath path] else [] := by
  unfold filesAt
  cases hLocate : t.locate? path with
  | none =>
    refine ⟨⟨[], rfl, fun file => iff_of_false List.not_mem_nil ?_⟩, rfl⟩
    rintro (⟨h, -⟩ | ⟨h, -⟩)
    · cases hLocate.symm.trans h
    · cases hLocate.symm.trans h
  | some found =>
    obtain ⟨p, e⟩ := found
    cases e with
    | folder => exact ⟨⟨_, rfl, fun file => mem_walkBelow_iff hLocate⟩, rfl⟩
    | file data =>
      refine ⟨⟨_, rfl, fun file => ?_⟩, rfl⟩
      constructor
      · intro hFile
        split at hFile
        next hName =>
          obtain rfl := List.mem_singleton.1 hFile
          exact .itself hLocate (hasExtension_iff.1 hName)
        next => cases hFile
      · rintro (⟨h, hName⟩ | ⟨h, -⟩)
        · rw [if_pos (hasExtension_iff.2 hName)]
          exact List.mem_singleton_self path
        · cases hLocate.symm.trans h

theorem result_filesAt (t : FileTree) (path : String) :
    (t.filesAt Language.javascript.extensions path).result =
      .ok (t.filesAt Language.javascript.extensions path).listed := by
  obtain ⟨⟨files, hFiles, -⟩, -⟩ := filesAt_cases t path
  rw [Logged.listed_of_ok hFiles, hFiles]

theorem mem_listed_filesAt {path file : String} :
    file ∈ (t.filesAt Language.javascript.extensions path).listed ↔ t.StandsFor path file := by
  obtain ⟨⟨files, hFiles, hStands⟩, -⟩ := filesAt_cases t path
  rw [Logged.listed_of_ok hFiles, hStands]

end FileTree

namespace Project

open FileTree

variable {t : FileTree} {paths : List String}

theorem result_files (t : FileTree) (paths : List String) : (files t paths).result =
    .ok (Text.ascending
      (paths.flatMap fun path => (t.filesAt Language.javascript.extensions path).listed)) := by
  rw [files, list, Logged.result_bind, Logged.gather_eq_ok fun path _ => result_filesAt t path]
  rfl

theorem warnings_files (t : FileTree) (paths : List String) : (files t paths).warnings =
    (paths.filter fun path => (t.locate? path).isNone).map .missingPath := by
  rw [files, list, Logged.warnings_bind_of_silent _ fun _ => rfl,
    Logged.warnings_gather fun path _ => ⟨_, result_filesAt t path⟩]
  induction paths with
  | nil => rfl
  | cons path rest ih =>
    rw [List.flatMap_cons, (filesAt_cases t path).2, List.filter_cons, ih]
    split <;> simp

/-- **The files of a project** are all that the paths stand for, in order and each once, whatever the
order of the paths and however often each is given. There is a warning for each path at which nothing
is. -/
theorem files_of_paths (t : FileTree) (paths : List String) :
    ∃ listed, (files t paths).result = .ok listed ∧ listed.Pairwise (· < ·) ∧
      (∀ file, file ∈ listed ↔ ∃ path ∈ paths, t.StandsFor path file) ∧
      (∀ paths', (∀ path, path ∈ paths' ↔ path ∈ paths) → (files t paths').result = .ok listed) ∧
      (files t paths).warnings =
        (paths.filter fun path => (t.locate? path).isNone).map .missingPath := by
  have hMem (paths : List String) (file : String) : file ∈ paths.flatMap (fun path =>
      (t.filesAt Language.javascript.extensions path).listed) ↔
        ∃ path ∈ paths, t.StandsFor path file := by
    rw [List.mem_flatMap]
    exact exists_congr fun path => and_congr_right fun _ => mem_listed_filesAt
  refine ⟨_, result_files t paths, Text.pairwise_ascending _, ?_, ?_, warnings_files t paths⟩
  · intro file
    rw [Text.mem_ascending, hMem]
  · intro paths' hSame
    rw [result_files]
    refine congrArg Except.ok (Text.ascending_congr fun file => ?_)
    simp only [hMem, hSame]

end Project

end TidySpace
