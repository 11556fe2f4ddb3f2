import Mathlib
import TidySpace.Project
import TidySpace.Proofs.Analysis
import TidySpace.Proofs.Slices

/-! # Workers

One worker analyses files one after another, and leaves the rest alone once there are enough findings.
Several workers analyse all files, and what is too much is cut off at the end. The lone worker has
analysed the first files (`exists_front`), and if it has left some out, it has found enough by then. So
what it does not find stands behind the limit, and the limit leaves the same findings in both cases
(`run_of_gather`, `run_workers`).
-/

namespace TidySpace.Batch

variable {grammar : Grammar} {t : FileTree} {s : Settings} {rules : List Rule} {files : List String}

/-! ### One file -/

theorem result_readText (t : FileTree) (path : String) :
    (readText t path).result = .ok (t.readText? path) := by
  unfold readText
  split
  next text hText => rw [hText]; rfl
  next hNone => rw [hNone]; rfl

theorem result_ofFile (path : String) : (ofFile grammar t s rules path).result =
    match t.readText? path with
    | some text => (Analysis.run grammar s rules path text).result
    | none => .ok [] := by
  rw [ofFile, Logged.result_bind, result_readText]
  cases t.readText? path <;> rfl

theorem mem_of_ofFile {path : String} {findings : List Finding}
    (h : (ofFile grammar t s rules path).result = .ok findings) {f : Finding} (hf : f ∈ findings) :
    ∃ text, t.readText? path = some text ∧
      (Analysis.run grammar s rules path text).result = .ok findings := by
  rw [result_ofFile] at h
  split at h
  next text hText => exact ⟨text, hText, h⟩
  next =>
    cases h
    exact absurd hf List.not_mem_nil

/-! ### One worker -/

section OneByOne

variable {analyze : String → Logged (List Finding)} {m : Nat} {found : List Finding}

theorem result_oneByOne_cons {path : String} {here : List Finding}
    (hHere : (analyze path).result = .ok here) (m : Nat) (found : List Finding) (rest : List String) :
    (oneByOne analyze (.int m) found (path :: rest)).result =
      if m ≤ (found ++ here).length then .ok (found ++ here)
      else (oneByOne analyze (.int m) (found ++ here) rest).result := by
  have hReaches : reaches (found ++ here).length (.int m) =
      .ok (decide (m ≤ (found ++ here).length)) := by
    rw [reaches]
    simp only [Int.ofNat_le]
  rw [oneByOne, Logged.result_bind, hHere]
  show (Logged.lift ((reaches (found ++ here).length (.int m)).mapError .mismatch) >>= _).result = _
  rw [Logged.result_bind, hReaches]
  by_cases hEnough : m ≤ (found ++ here).length
  · rw [if_pos hEnough, decide_eq_true hEnough]
    rfl
  · rw [if_neg hEnough, decide_eq_false hEnough]
    rfl

/-- **One worker analyses the first files**, and if these are not all, it has found enough. -/
theorem exists_front {each : String → List Finding}
    (hEach : ∀ path ∈ files, (analyze path).result = .ok (each path)) (m : Nat)
    (found : List Finding) :
    ∃ front back, files = front ++ back ∧
      (oneByOne analyze (.int m) found files).result = .ok (found ++ front.flatMap each) ∧
      (back = [] ∨ m ≤ (found ++ front.flatMap each).length) := by
  induction files generalizing found with
  | nil => exact ⟨[], [], rfl, by rw [List.flatMap_nil, List.append_nil]; rfl, Or.inl rfl⟩
  | cons path rest ih =>
    rw [result_oneByOne_cons (hEach path List.mem_cons_self)]
    by_cases hEnough : m ≤ (found ++ each path).length
    · refine ⟨[path], rest, rfl, ?_, Or.inr ?_⟩
      · rw [if_pos hEnough, List.flatMap_singleton]
      · rw [List.flatMap_singleton]
        exact hEnough
    · obtain ⟨front, back, rfl, hRun, hEnd⟩ :=
        ih (fun path hPath => hEach path (List.mem_cons_of_mem _ hPath)) (found ++ each path)
      rw [List.append_assoc, ← List.flatMap_cons] at hRun hEnd
      refine ⟨path :: front, back, rfl, ?_, hEnd⟩
      rw [if_neg hEnough, hRun]

/-- What one worker leaves out stands behind the limit. -/
theorem exists_oneByOne {each : String → List Finding}
    (hEach : ∀ path ∈ files, (analyze path).result = .ok (each path)) (m : Nat) :
    ∃ part, (oneByOne analyze (.int m) [] files).result = .ok part ∧
      part.take m = (files.flatMap each).take m := by
  obtain ⟨front, back, rfl, hRun, hEnd⟩ := exists_front hEach m []
  refine ⟨front.flatMap each, hRun, ?_⟩
  rw [List.flatMap_append]
  rcases hEnd with rfl | hEnough
  · rw [List.flatMap_nil, List.append_nil]
  · exact (List.take_append_of_le_length hEnough).symm

theorem mem_of_oneByOne {limit : Value} {part : List Finding}
    (h : (oneByOne analyze limit found files).result = .ok part) {f : Finding} (hf : f ∈ part) :
    f ∈ found ∨ ∃ path ∈ files, ∃ here, (analyze path).result = .ok here ∧ f ∈ here := by
  induction files generalizing found with
  | nil =>
    cases h
    exact Or.inl hf
  | cons path rest ih =>
    rw [oneByOne, Logged.result_bind] at h
    obtain ⟨here, hHere, h⟩ := bind_eq_ok h
    rw [Logged.result_bind] at h
    obtain ⟨enough, -, h⟩ := bind_eq_ok h
    have hLater : f ∈ found ++ here ∨
        ∃ path ∈ rest, ∃ here, (analyze path).result = .ok here ∧ f ∈ here := by
      cases enough with
      | true =>
        cases h
        exact Or.inl hf
      | false => exact ih h
    rcases hLater with hMem | ⟨path', hPath', hFound⟩
    · rcases List.mem_append.1 hMem with hMem | hMem
      · exact Or.inl hMem
      · exact Or.inr ⟨path, List.mem_cons_self, here, hHere, hMem⟩
    · exact Or.inr ⟨path', List.mem_cons_of_mem path hPath', hFound⟩

end OneByOne

/-! ### Any number of workers -/

/-- **Files are analysed up to the limit**, however many workers there are. -/
theorem run_of_gather {m : Nat} {all : List Finding} (hLimit : s.maxTotal = .int m)
    (h : (Logged.gather (ofFile grammar t s rules) files).result = .ok all) (jobs : Int) :
    (run grammar t s rules files jobs).result = .ok (all.take m) := by
  have hCut (part : List Finding) : Settings.cut s.maxTotal part = .ok (part.take m) := by
    rw [hLimit, Settings.cut, takeTo_natCast]
  rw [run]
  split
  next =>
    obtain ⟨hEach, rfl⟩ := Logged.of_gather_eq_ok h
    obtain ⟨part, hPart, hTake⟩ := exists_oneByOne hEach m
    rw [Logged.result_bind, hLimit, hPart]
    show (Settings.cut (.int m) part).mapError Failure.mismatch = _
    rw [← hLimit, hCut, hTake]
    rfl
  next =>
    rw [Logged.result_bind, h]
    show (Settings.cut s.maxTotal all).mapError Failure.mismatch = _
    rw [hCut]
    rfl

/-- **What workers find is in the files**, as they are read. -/
theorem mem_of_run {jobs : Int} {findings : List Finding}
    (h : (run grammar t s rules files jobs).result = .ok findings) {f : Finding} (hf : f ∈ findings) :
    ∃ path ∈ files, ∃ text found, t.readText? path = some text ∧
      (Analysis.run grammar s rules path text).result = .ok found ∧ f ∈ found := by
  obtain ⟨path, hPath, found, hFound, hf⟩ :
      ∃ path ∈ files, ∃ found, (ofFile grammar t s rules path).result = .ok found ∧ f ∈ found := by
    rw [run] at h
    split at h
    next =>
      rw [Logged.result_bind] at h
      obtain ⟨all, hAll, hCut⟩ := bind_eq_ok h
      have hMem : f ∈ all := (Settings.cut_sublist (mapError_eq_ok hCut)).subset hf
      exact (mem_of_oneByOne hAll hMem).resolve_left List.not_mem_nil
    next =>
      rw [Logged.result_bind] at h
      obtain ⟨all, hAll, hCut⟩ := bind_eq_ok h
      have hMem : f ∈ all := (Settings.cut_sublist (mapError_eq_ok hCut)).subset hf
      obtain ⟨hEach, rfl⟩ := Logged.of_gather_eq_ok hAll
      obtain ⟨path, hPath, hf⟩ := List.mem_flatMap.1 hMem
      exact ⟨path, hPath, _, hEach path hPath, hf⟩
  obtain ⟨text, hText, hRun⟩ := mem_of_ofFile hFound hf
  exact ⟨path, hPath, text, found, hText, hRun, hf⟩

/-- **It does not matter how many workers there are.** If every file can be analysed, one worker finds
the first findings of the files up to the limit, and several workers find the same. -/
theorem run_workers (grammar : Grammar) (t : FileTree) (s : Settings) (rules : List Rule)
    (files : List String) (m : Nat) (hLimit : s.maxTotal = .int m)
    (hFiles : ∀ path ∈ files, ∃ found, (ofFile grammar t s rules path).result = .ok found) :
    (run grammar t s rules files 1).result =
        .ok ((files.flatMap fun path => (ofFile grammar t s rules path).listed).take m) ∧
      ∀ jobs, 1 < jobs →
        (run grammar t s rules files jobs).result = (run grammar t s rules files 1).result := by
  have hEach : ∀ path ∈ files, (ofFile grammar t s rules path).result =
      .ok (ofFile grammar t s rules path).listed := by
    intro path hPath
    obtain ⟨found, hFound⟩ := hFiles path hPath
    rw [Logged.listed_of_ok hFound, hFound]
  have hRun := run_of_gather hLimit (Logged.gather_eq_ok hEach)
  refine ⟨hRun 1, ?_⟩
  intro jobs _
  rw [hRun jobs, hRun 1]

section Shelf

/-- A file that is not UTF-8, an empty one, one with two findings, and one with another. -/
def shelf : FileTree :=
  ⟨[], [(["a.js"], .file [0xff]), (["b.js"], .file []),
    (["c.js"], .file (Utf8.encode "x \ny ".toList)), (["d.js"], .file (Utf8.encode "z ".toList))]⟩

def spaceAt (file : String) (start line : Nat) : Finding :=
  ⟨TrailingSpaces.id, TrailingSpaces.message, file, start, start + 1, .text "warn",
    some [⟨start, start + 1, []⟩], .object [("node_type", .text "program")], some line, some 2⟩

def oneInAll : Settings := { Settings.standard with maxTotal := .int 1 }

theorem ofFile_shelf (path : String) (hPath : path ∈ ["a.js", "b.js", "c.js", "d.js"]) :
    (ofFile (fun _ => none) shelf oneInAll Standard.rules path).result =
      .ok (if path = "c.js" then [spaceAt "c.js" 1 1, spaceAt "c.js" 4 2]
        else if path = "d.js" then [spaceAt "d.js" 1 1] else []) := by
  simp only [List.mem_cons, List.not_mem_nil, or_false] at hPath
  rcases hPath with rfl | rfl | rfl | rfl
  · cbv
  · cbv
  · cbv
  · cbv

/-- The limit falls between the two findings of one file. -/
theorem run_workers_shelf :
    (run (fun _ => none) shelf oneInAll Standard.rules ["a.js", "b.js", "c.js", "d.js"] 1).result =
        .ok [spaceAt "c.js" 1 1] ∧
      (run (fun _ => none) shelf oneInAll Standard.rules ["a.js", "b.js", "c.js", "d.js"] 4).result =
        .ok [spaceAt "c.js" 1 1] := by
  obtain ⟨hOne, hMany⟩ := run_workers (fun _ => none) shelf oneInAll Standard.rules
    ["a.js", "b.js", "c.js", "d.js"] 1 rfl fun path hPath => ⟨_, ofFile_shelf path hPath⟩
  have hFirst : (run (fun _ => none) shelf oneInAll Standard.rules
      ["a.js", "b.js", "c.js", "d.js"] 1).result = .ok [spaceAt "c.js" 1 1] := by
    simp only [List.flatMap_cons, List.flatMap_nil] at hOne
    rw [hOne, Logged.listed_of_ok (ofFile_shelf "a.js" (by decide)),
      Logged.listed_of_ok (ofFile_shelf "b.js" (by decide)),
      Logged.listed_of_ok (ofFile_shelf "c.js" (by decide))]
    rfl
  exact ⟨hFirst, (hMany 4 (by decide)).trans hFirst⟩

end Shelf

end TidySpace.Batch
