import Mathlib.Data.List.Basic
import TidySpace.FileTree.Writing
import TidySpace.Proofs.Analysis
import TidySpace.Proofs.Overwriting

/-! # Written files

A file that was written is where its path text leads. The step that carries this is `put`: it takes no
folder away, so the steps that led to the place of the file before it was put there still do.
-/

namespace TidySpace

namespace FileTree

variable {t t' : FileTree} {p q : Path} {text : String} {data : List UInt8}

/-! ### Putting a file where no folder is -/

theorem put_of_none (h : t.get? p = none) (e : Entry) :
    p.isPrefixOf t.home = false ∧ t.entries.lookup p = none ∧
      (t.put p e).entries = t.entries ++ [(p, e)] := by
  unfold get? at h
  split at h
  next => cases h
  next hInside =>
    split at h
    next => cases h
    next hLookup =>
      split at h
      next => cases h
      next hBelow =>
        refine ⟨Bool.eq_false_iff.2 hInside, hLookup, ?_⟩
        rw [put, if_neg]
        intro hAny
        -- an entry at the path itself would make a folder of it
        apply hBelow
        obtain ⟨entry, hEntry, hKey⟩ := List.any_eq_true.1 hAny
        refine List.any_eq_true.2 ⟨entry, hEntry, ?_⟩
        rw [beq_iff_eq.1 hKey]
        simp

theorem get?_put_self (h : t.get? p ≠ some .folder) (data : List UInt8) :
    (t.put p (.file data)).get? p = some (.file data) := by
  cases hGet : t.get? p with
  | none =>
    obtain ⟨hInside, hLookup, hEntries⟩ := put_of_none hGet (.file data)
    rw [get?, home_put, hEntries, List.lookup_append, hLookup]
    simp [hInside]
  | some e =>
    cases e with
    | folder => exact absurd hGet h
    | file => rw [get?_put hGet, if_pos rfl]

theorem get?_put_folder (h : t.get? p ≠ some .folder) (data : List UInt8)
    (hFolder : t.get? q = some .folder) : (t.put p (.file data)).get? q = some .folder := by
  have hNe : q ≠ p := by
    rintro rfl
    exact h hFolder
  cases hGet : t.get? p with
  | none =>
    obtain ⟨-, -, hEntries⟩ := put_of_none hGet (.file data)
    have hNew : [(p, Entry.file data)].lookup q = none := by
      rw [List.lookup_cons, beq_eq_false_iff_ne.2 hNe]
      rfl
    rw [get?, home_put, hEntries, List.lookup_append, List.any_append, hNew, Option.or_none]
    rw [get?] at hFolder
    split at hFolder
    next hAbove => rw [if_pos hAbove]
    next hInside =>
      rw [if_neg hInside]
      split at hFolder
      next => exact hFolder
      next =>
        -- a folder without an entry of its own: what stands below it is still there
        split at hFolder
        next hBelow =>
          rw [hBelow]
          rfl
        next => cases hFolder
  | some e =>
    cases e with
    | folder => exact absurd hGet h
    | file => rw [get?_put hGet, if_neg hNe, hFolder]

/-! ### Following steps -/

theorem enter_eq_ok : t.enter p = .ok () ↔ t.get? p = some .folder := by
  rw [enter]
  split <;> simp_all

/-- Steps are followed if the first one starts at a folder and is short enough, and the others can be
followed from where it leads. -/
theorem walk_cons_eq_ok {here : Path} {step : String} {rest : List String} :
    t.walk here (step :: rest) = .ok p ↔ t.get? here = some .folder ∧
      step.utf8ByteSize ≤ Path.maxName ∧ t.walk (here.next step) rest = .ok p := by
  rw [← enter_eq_ok, walk]
  constructor
  · intro h
    obtain ⟨⟨⟩, hEnter, h⟩ := bind_eq_ok h
    obtain ⟨hShort, h⟩ := guard_eq_ok h
    exact ⟨hEnter, Nat.le_of_not_lt hShort, h⟩
  · rintro ⟨hEnter, hShort, hRest⟩
    rw [hEnter]
    show (if _ then _ else _) = _
    rw [if_neg (Nat.not_lt_of_le hShort)]
    exact hRest

theorem walk_append_eq_ok {here : Path} {steps more : List String} :
    t.walk here (steps ++ more) = .ok q ↔ ∃ p, t.walk here steps = .ok p ∧ t.walk p more = .ok q := by
  induction steps generalizing here with
  | nil => simp [walk]
  | cons step rest ih =>
    simp only [List.cons_append, walk_cons_eq_ok, ih]
    constructor
    · rintro ⟨hFolder, hShort, p, hRest, hMore⟩
      exact ⟨p, ⟨hFolder, hShort, hRest⟩, hMore⟩
    · rintro ⟨p, ⟨hFolder, hShort, hRest⟩, hMore⟩
      exact ⟨hFolder, hShort, p, hRest, hMore⟩

/-- Steps lead where they led before, if folders stay. -/
theorem walk_mono (hFolders : ∀ q, t.get? q = some .folder → t'.get? q = some .folder) {here : Path}
    {steps : List String} (h : t.walk here steps = .ok p) : t'.walk here steps = .ok p := by
  induction steps generalizing here with
  | nil => exact h
  | cons step rest ih =>
    obtain ⟨hFolder, hShort, hRest⟩ := walk_cons_eq_ok.1 h
    exact walk_cons_eq_ok.2 ⟨hFolders here hFolder, hShort, ih hRest⟩

/-! ### Writing -/

/-- The last step is taken in a folder, to which the other steps lead. -/
theorem lastStep_eq_ok {here : Path} {name : String} (h : t.lastStep text = .ok (here, name)) :
    (text.isEmpty || decide (Path.maxText < text.utf8ByteSize)) = false ∧
      t.walk (t.start text) (Path.steps text).dropLast = .ok here ∧ t.get? here = some .folder ∧
      (Path.steps text).getLast?.getD "" = name ∧ ¬ Path.maxName < name.utf8ByteSize := by
  obtain ⟨hGiven, h⟩ := guard_eq_ok h
  obtain ⟨-, h⟩ := guard_eq_ok h
  obtain ⟨hText, h⟩ := guard_eq_ok h
  obtain ⟨here', hWalk, h⟩ := bind_eq_ok h
  obtain ⟨⟨⟩, hEnter, h⟩ := bind_eq_ok h
  obtain ⟨hName, h⟩ := guard_eq_ok h
  cases h
  exact ⟨by simp [hGiven, hText], hWalk, enter_eq_ok.1 hEnter, rfl, hName⟩

/-- **A file that was put is where its path text leads.** -/
theorem locate?_of_putFile {written : FileTree} (h : t.putFile text data = .ok written) :
    ∃ p, written.locate? text = some (p, .file data) := by
  obtain ⟨⟨here, name⟩, hStep, h⟩ := bind_eq_ok h
  obtain ⟨hText, hWalk, hFolder, hName, hShort⟩ := lastStep_eq_ok hStep
  obtain ⟨hMoves, h⟩ := guard_eq_ok h
  rw [Bool.or_eq_true, not_or] at hMoves
  have hNot : t.get? (here ++ [name]) ≠ some .folder := by
    intro hHere
    rw [hHere] at h
    cases h
  obtain rfl : t.put (here ++ [name]) (.file data) = written := by
    split at h
    next hHere => exact absurd hHere hNot
    next =>
      cases h
      rfl
  have hStays : ∀ q, t.get? q = some .folder →
      (t.put (here ++ [name]) (.file data)).get? q = some .folder :=
    fun q => get?_put_folder hNot data
  have hSteps : Path.steps text = (Path.steps text).dropLast ++ [name] := by
    cases hLast : (Path.steps text).getLast? with
    | none =>
      rw [hLast] at hName
      subst hName
      exact absurd rfl hMoves.1
    | some last =>
      rw [hLast] at hName
      subst hName
      exact (List.dropLast_append_getLast? last hLast).symm
  have hNext : here.next name = here ++ [name] := by
    rw [Path.next, if_neg hMoves.1, if_neg (by simpa using hMoves.2)]
  have hWalks : (t.put (here ++ [name]) (.file data)).walk (t.start text) (Path.steps text) =
      .ok (here ++ [name]) := by
    rw [hSteps, walk_append_eq_ok]
    refine ⟨here, walk_mono hStays hWalk, walk_cons_eq_ok.2 ⟨hStays here hFolder, ?_, ?_⟩⟩
    · exact Nat.le_of_not_lt hShort
    · rw [hNext]
      rfl
  have hStart : (t.put (here ++ [name]) (.file data)).start text = t.start text := by
    rw [start, start, home_put]
  refine ⟨here ++ [name], ?_⟩
  rw [locate?, hText, if_neg Bool.false_ne_true, hStart, hWalks]
  exact congrArg (Option.map _) (get?_put_self hNot data)

/-- **A written file is where its path text leads.** -/
theorem locate?_of_write (h : (t.write text data).1 = .ok ()) :
    ∃ p, (t.write text data).2.locate? text = some (p, .file data) := by
  unfold write at h ⊢
  dsimp only at h ⊢
  split at h
  next written hPut =>
    obtain ⟨⟨⟩, -, hPut⟩ := bind_eq_ok hPut
    exact locate?_of_putFile hPut
  next => cases h

end FileTree

end TidySpace
