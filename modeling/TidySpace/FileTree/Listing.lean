import TidySpace.FileTree
import TidySpace.Logged
import TidySpace.Text.Ascending

/-! # Listing files

The files that paths stand for: a file stands for itself, a folder for the files below it. Files are
listed if their names end as those of the language do. Below a folder, hidden folders and those that
hold dependencies or products are passed over; the folder itself is never tested.
-/

namespace TidySpace.FileTree

def passedOver : List String := ["node_modules", "__pycache__", "dist", "build", "coverage"]

def isIgnored (name : String) : Bool :=
  name.toList.head? == some '.' || passedOver.contains name

def hasExtension (extensions : List String) (name : String) : Bool :=
  extensions.any fun ext => ext.toList.isSuffixOf name.toList

def namesIn (t : FileTree) (p : Path) : List String :=
  (t.places.filterMap fun q => (below? p q).bind List.head?).eraseDups

def depth (t : FileTree) : Nat := (t.places.map List.length).foldr max 0

theorem length_below? {p q rest : Path} (h : below? p q = some rest) :
    p.length + rest.length = q.length := by
  fun_induction below? p q with
  | case1 q => simp_all
  | case2 => cases h
  | case3 p q b ih => simp [← ih h]; omega
  | case4 => cases h

theorem length_le_depth {t : FileTree} {p : Path} (h : p ∈ t.places) : p.length ≤ t.depth := by
  rw [depth]
  generalize t.places = places at h ⊢
  induction places with
  | nil => cases h
  | cons q places ih =>
    rw [List.map_cons, List.foldr_cons]
    rcases List.mem_cons.1 h with rfl | h
    · exact Nat.le_max_left ..
    · exact Nat.le_trans (ih h) (Nat.le_max_right ..)

theorem length_lt_depth {t : FileTree} {p : Path} {name : String} (h : name ∈ t.namesIn p) :
    p.length < t.depth := by
  obtain ⟨q, hq, hName⟩ := List.mem_filterMap.1 (List.mem_eraseDups.1 h)
  obtain ⟨rest, hBelow, hHead⟩ := Option.bind_eq_some_iff.1 hName
  have hLength := length_below? hBelow
  have hDepth := length_le_depth hq
  cases rest with
  | nil => cases hHead
  | cons =>
    rw [List.length_cons] at hLength
    omega

def filesIn (t : FileTree) (p : Path) : List String :=
  (t.namesIn p).filter fun name => (t.get? (p ++ [name])).any (·.isFile)

def foldersIn (t : FileTree) (p : Path) : List String :=
  (t.namesIn p).filter fun name => (t.get? (p ++ [name])).any (!·.isFile) && !isIgnored name

/-- The files listed below a folder, which is given with its path text: those in the folder, and those
below each folder in it that is not left out. -/
def walkBelow (t : FileTree) (extensions : List String) (folder : String) (p : Path) :
    List String :=
  ((t.filesIn p).filter (hasExtension extensions)).map (Path.join folder) ++
    (t.foldersIn p).attach.flatMap fun ⟨name, _h⟩ =>
      walkBelow t extensions (Path.join folder name) (p ++ [name])
termination_by t.depth - p.length
decreasing_by
  have hDepth := length_lt_depth (List.mem_filter.1 _h).1
  rw [List.length_append, List.length_singleton]
  omega

theorem walkBelow_eq_append (t : FileTree) (extensions : List String) (folder : String) (p : Path) :
    t.walkBelow extensions folder p =
      ((t.filesIn p).filter (hasExtension extensions)).map (Path.join folder) ++
        (t.foldersIn p).flatMap fun name =>
          t.walkBelow extensions (Path.join folder name) (p ++ [name]) := by
  have hAttach := List.flatMap_subtype (l := (t.foldersIn p).attach)
    (f := fun ⟨name, _⟩ => t.walkBelow extensions (Path.join folder name) (p ++ [name]))
    (g := fun name => t.walkBelow extensions (Path.join folder name) (p ++ [name])) fun _ _ => rfl
  rw [walkBelow, hAttach, List.unattach_attach]

def filesAt (t : FileTree) (extensions : List String) (path : String) : Logged (List String) :=
  match t.locate? path with
  | some (_, .file _) => .done (if hasExtension extensions path then [path] else [])
  | some (p, .folder) => .done (t.walkBelow extensions path p)
  | none => do
    Logged.warn (.missingPath path)
    return []

/-- The files that paths stand for, in order and each once. -/
def list (t : FileTree) (extensions : List String) (paths : List String) :
    Logged (List String) := do
  let files ← Logged.gather (t.filesAt extensions) paths
  return Text.ascending files

end TidySpace.FileTree
