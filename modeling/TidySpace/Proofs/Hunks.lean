import TidySpace.Diff.Unified
import TidySpace.Proofs.Scripts

/-! # What hunks say

Hunks *lead* from one list of lines to another if each stands on both sides where it says, has the lines
of both sides there, and all lines outside of the hunks are the same (`Leads`). The hunks of a script lead
from its left side to its right (`leads_hunks`): cutting a long kept stretch, leaving hunks without a
change out and shortening the ends moves kept lines out of the hunks and nothing else. So there are no
hunks exactly if both lists are the same (`hunks_eq_nil_iff`).

Every hunk but the first begins with kept lines, so a line of a hunk that is not the last one is not the
last line of its list (`Leads.mem_dropLast`).
-/

namespace TidySpace.Diff

def Hunk.lefts (h : Hunk) : List String := h.segments.flatMap Segment.left

def Hunk.rights (h : Hunk) : List String := h.segments.flatMap Segment.right

/-- Hunks that lead from the lines `a`, of which the first has number `i`, to the lines `b`, of which the
first has number `j`; both count from zero. -/
inductive Leads : Nat → Nat → List Hunk → List String → List String → Prop where
  | done (i j : Nat) (kept : List String) : Leads i j [] kept kept
  | hunk {i j : Nat} (kept : List String) {h : Hunk} {hs : List Hunk} {a b : List String}
      (hLeft : h.left = i + kept.length) (hRight : h.right = j + kept.length)
      (hRest : Leads (h.left + h.lefts.length) (h.right + h.rights.length) hs a b) :
      Leads i j (h :: hs) (kept ++ (h.lefts ++ a)) (kept ++ (h.rights ++ b))

def StartsAt (i j : Nat) (hs : List Hunk) : Prop := ∀ first ∈ hs.head?, first.left = i ∧ first.right = j

namespace Leads

variable {i j : Nat} {hs : List Hunk} {a b : List String}

theorem skip (kept : List String) (h : Leads (i + kept.length) (j + kept.length) hs a b) :
    Leads i j hs (kept ++ a) (kept ++ b) := by
  cases h with
  | done => exact .done i j (kept ++ a)
  | @hunk _ _ same first rest a b hLeft hRight hRest =>
    rw [← List.append_assoc kept, ← List.append_assoc kept]
    refine .hunk (kept ++ same) ?_ ?_ hRest
    · rw [hLeft, List.length_append, Nat.add_assoc]
    · rw [hRight, List.length_append, Nat.add_assoc]

theorem append (h : Leads i j hs a b) (kept : List String) : Leads i j hs (a ++ kept) (b ++ kept) := by
  induction h with
  | done i j same => exact .done i j (same ++ kept)
  | hunk same hLeft hRight hRest ih =>
    rw [List.append_assoc same, List.append_assoc same, List.append_assoc, List.append_assoc]
    exact .hunk same hLeft hRight ih

theorem rights_eq_lefts {h : Hunk} (hKept : h.segments.any Segment.isChange = false) :
    h.rights = h.lefts := by
  rw [Hunk.rights, Hunk.lefts, List.flatMap_def, List.flatMap_def]
  refine congrArg List.flatten (List.map_congr_left fun s hs => ?_)
  cases s with
  | keep lines => rfl
  | change removed added => exact absurd rfl (List.any_eq_false.1 hKept _ hs)

theorem filter (h : Leads i j hs a b) :
    Leads i j (hs.filter (·.segments.any Segment.isChange)) a b := by
  induction h with
  | done i j same => exact .done i j same
  | @hunk i j same h hs a b hLeft hRight hRest ih =>
    rw [List.filter_cons]
    split
    next => exact .hunk same hLeft hRight ih
    next hNone =>
      have hSame := rights_eq_lefts (Bool.eq_false_iff.2 hNone)
      rw [hLeft, hRight, hSame] at ih
      rw [hSame]
      exact skip same (skip h.lefts ih)

/-- One more segment in front of the first hunk, where this starts right behind the segment. -/
theorem prepend {s : Segment} (h : Leads (i + s.left.length) (j + s.right.length) hs a b)
    (hStarts : StartsAt (i + s.left.length) (j + s.right.length) hs) :
    Leads i j (consSegment i j s hs) (s.left ++ a) (s.right ++ b) := by
  cases h with
  | done =>
    have hOne := Leads.hunk (h := ⟨i, j, [s]⟩) [] rfl rfl (.done _ _ a)
    simpa [Hunk.lefts, Hunk.rights, consSegment] using hOne
  | @hunk _ _ kept first rest a b hLeft hRight hRest =>
    obtain ⟨hFirst, -⟩ := hStarts first rfl
    obtain rfl : kept = [] := List.length_eq_zero_iff.1 (by omega)
    have hOne := @Leads.hunk i j [] ⟨i, j, s :: first.segments⟩ rest a b rfl rfl
      (by simpa [Hunk.lefts, Hunk.rights, hLeft, hRight, Nat.add_assoc] using hRest)
    simpa [Hunk.lefts, Hunk.rights, consSegment] using hOne

end Leads

/-! ### Hunks of a script -/

theorem startsAt_consSegment (i j : Nat) (s : Segment) (hs : List Hunk) :
    StartsAt i j (consSegment i j s hs) := by
  intro first hFirst
  cases hs <;>
  · cases hFirst
    exact ⟨rfl, rfl⟩

theorem startsAt_hunksFrom (i j : Nat) (segments : List Segment) :
    StartsAt i j (hunksFrom i j segments) := by
  cases segments with
  | nil => intro first hFirst; cases hFirst
  | cons s rest =>
    cases s with
    | keep lines =>
      rw [hunksFrom]
      split
      next =>
        intro first hFirst
        cases hFirst
        exact ⟨rfl, rfl⟩
      next => exact startsAt_consSegment i j _ _
    | change removed added => exact startsAt_consSegment i j _ _

/-- A long kept stretch: what ends one hunk, what is in none, and what starts the next. -/
theorem exists_mid {lines : List String} (hLong : 2 * context < lines.length) :
    ∃ mid, lines.take context ++ (mid ++ lines.drop (lines.length - context)) = lines ∧
      (lines.take context).length + mid.length = lines.length - context := by
  refine ⟨(lines.drop context).take (lines.length - 2 * context), ?_, ?_⟩
  · have hDrop : lines.drop (lines.length - context) =
        (lines.drop context).drop (lines.length - 2 * context) := by
      rw [List.drop_drop, (by omega : context + (lines.length - 2 * context) = lines.length - context)]
    rw [hDrop, List.take_append_drop, List.take_append_drop]
  · rw [List.length_take, List.length_take, List.length_drop]
    omega

theorem Leads.hunk_cons {i j : Nat} {front mid back : List String} {hs : List Hunk} {a b : List String}
    (h : Leads (i + (front.length + mid.length + back.length))
      (j + (front.length + mid.length + back.length)) hs a b)
    (hStarts : StartsAt (i + (front.length + mid.length + back.length))
      (j + (front.length + mid.length + back.length)) hs) :
    Leads i j (⟨i, j, [.keep front]⟩ :: consSegment (i + (front.length + mid.length))
        (j + (front.length + mid.length)) (.keep back) hs)
      (front ++ (mid ++ (back ++ a))) (front ++ (mid ++ (back ++ b))) := by
  simp only [← Nat.add_assoc] at h hStarts ⊢
  have hNext := (h.prepend (s := .keep back) hStarts).skip mid
  have hFirst := Leads.hunk (h := ⟨i, j, [.keep front]⟩) [] rfl rfl
    (by simpa [Hunk.lefts, Hunk.rights, Segment.left, Segment.right] using hNext)
  simpa [Hunk.lefts, Hunk.rights, Segment.left, Segment.right] using hFirst

theorem leads_hunksFrom (i j : Nat) (segments : List Segment) :
    Leads i j (hunksFrom i j segments) (segments.flatMap Segment.left)
      (segments.flatMap Segment.right) := by
  induction segments generalizing i j with
  | nil => exact .done i j []
  | cons s rest ih =>
    rw [List.flatMap_cons, List.flatMap_cons]
    cases s with
    | change removed added => exact (ih _ _).prepend (startsAt_hunksFrom _ _ rest)
    | keep lines =>
      have hLater := ih (i + lines.length) (j + lines.length)
      have hStarts := startsAt_hunksFrom (i + lines.length) (j + lines.length) rest
      rw [hunksFrom]
      split
      next hLong =>
        obtain ⟨mid, hCut, hLength⟩ := exists_mid hLong
        have hBack : lines.length = (lines.take context).length + mid.length +
            (lines.drop (lines.length - context)).length := by
          rw [hLength, List.length_drop]
          omega
        rw [hBack] at hLater hStarts
        have hBoth := hLater.hunk_cons hStarts
        have hJoin : ∀ tail, lines.take context ++
            (mid ++ (lines.drop (lines.length - context) ++ tail)) = lines ++ tail := fun tail => by
          rw [← List.append_assoc mid, ← List.append_assoc, hCut]
        rw [← hBack, hLength, hJoin, hJoin] at hBoth
        exact hBoth
      next => exact hLater.prepend hStarts

/-- What is cut off at the end is kept. -/
theorem exists_trimEnd (segments : List Segment) : ∃ kept,
    segments.flatMap Segment.left = (trimEnd segments).flatMap Segment.left ++ kept ∧
      segments.flatMap Segment.right = (trimEnd segments).flatMap Segment.right ++ kept := by
  fun_induction trimEnd segments with
  | case1 => exact ⟨[], rfl, rfl⟩
  | case2 lines =>
    refine ⟨lines.drop context, ?_, ?_⟩ <;>
      simp [Segment.left, Segment.right]
  | case3 s rest _ ih =>
    obtain ⟨kept, hLeft, hRight⟩ := ih
    refine ⟨kept, ?_, ?_⟩
    · rw [List.flatMap_cons, List.flatMap_cons, hLeft, List.append_assoc]
    · rw [List.flatMap_cons, List.flatMap_cons, hRight, List.append_assoc]

/-- **The hunks of a script lead from its left side to its right.** -/
theorem leads_hunks (a b : List String) : Leads 0 0 (hunks (script a b)) a b := by
  have hAll : ∀ segments, Leads 0 0 (hunks segments) (segments.flatMap Segment.left)
      (segments.flatMap Segment.right) := by
    intro segments
    unfold hunks
    refine Leads.filter ?_
    split
    next lines rest =>
      obtain ⟨kept, hLeft, hRight⟩ := exists_trimEnd rest
      generalize hSkipped : lines.length - context = skipped
      have hTake : (lines.take skipped).length = skipped := by
        rw [List.length_take]
        omega
      have hRest : Leads (0 + (lines.take skipped).length) (0 + (lines.take skipped).length)
          (hunksFrom skipped skipped (.keep (lines.drop skipped) :: trimEnd rest))
          (lines.drop skipped ++ (rest.flatMap Segment.left))
          (lines.drop skipped ++ (rest.flatMap Segment.right)) := by
        rw [hLeft, hRight, ← List.append_assoc, ← List.append_assoc, Nat.zero_add, hTake]
        exact (leads_hunksFrom skipped skipped _).append kept
      have hBoth := hRest.skip (lines.take skipped)
      rwa [← List.append_assoc, ← List.append_assoc, List.take_append_drop] at hBoth
    next =>
      obtain ⟨kept, hLeft, hRight⟩ := exists_trimEnd segments
      rw [hLeft, hRight]
      exact (leads_hunksFrom 0 0 _).append kept
  have hScript := hAll (script a b)
  rwa [script, scriptFrom_left, scriptFrom_right] at hScript

/-- **Equal lists, and no others, have no hunks.** -/
theorem hunks_eq_nil_iff {a b : List String} : hunks (script a b) = [] ↔ a = b := by
  constructor
  · intro hNil
    have hLeads := leads_hunks a b
    rw [hNil] at hLeads
    cases hLeads
    rfl
  · rintro rfl
    rw [script_self]
    split
    next => rfl
    next =>
      have hShort : ¬ 2 * context < (a.drop (a.length - context)).length := by
        rw [List.length_drop]
        omega
      unfold hunks
      simp only [trimEnd, hunksFrom, if_neg hShort, consSegment]
      rfl

/-! ### Lines of hunks -/

theorem Leads.mem {i j : Nat} {hs : List Hunk} {a b : List String} (h : Leads i j hs a b) :
    ∀ h ∈ hs, (∀ line ∈ h.lefts, line ∈ a) ∧ ∀ line ∈ h.rights, line ∈ b := by
  induction h with
  | done => exact fun h hMem => absurd hMem List.not_mem_nil
  | @hunk i j kept first rest a b hLeft hRight hRest ih =>
    rw [List.forall_mem_cons]
    refine ⟨⟨fun line hLine => ?_, fun line hLine => ?_⟩, fun h hMem => ⟨fun line hLine => ?_,
      fun line hLine => ?_⟩⟩
    · exact List.mem_append_right _ (List.mem_append_left _ hLine)
    · exact List.mem_append_right _ (List.mem_append_left _ hLine)
    · exact List.mem_append_right _ (List.mem_append_right _ ((ih h hMem).1 line hLine))
    · exact List.mem_append_right _ (List.mem_append_right _ ((ih h hMem).2 line hLine))

theorem tail_consSegment (i j : Nat) (s : Segment) (hs : List Hunk) :
    (consSegment i j s hs).tail = hs.tail := by
  cases hs <;> rfl

theorem mem_consSegment {i j : Nat} {s : Segment} {hs : List Hunk} {h : Hunk}
    (hMem : h ∈ consSegment i j s hs) : (∃ rest, h.segments = s :: rest) ∨ h ∈ hs.tail := by
  cases hs with
  | nil => exact Or.inl ⟨[], by rw [List.mem_singleton.1 hMem]⟩
  | cons first hs =>
    rcases List.mem_cons.1 hMem with rfl | hMem
    · exact Or.inl ⟨first.segments, rfl⟩
    · exact Or.inr hMem

theorem ne_nil_of_mem_tail_hunksFrom {segments : List Segment} {i j : Nat} {h : Hunk}
    (hMem : h ∈ (hunksFrom i j segments).tail) : h.lefts ≠ [] ∧ h.rights ≠ [] := by
  induction segments generalizing i j with
  | nil => exact absurd hMem List.not_mem_nil
  | cons s rest ih =>
    cases s with
    | change removed added =>
      rw [hunksFrom, tail_consSegment] at hMem
      exact ih hMem
    | keep lines =>
      rw [hunksFrom] at hMem
      split at hMem
      next hLong =>
        have hSome : lines.drop (lines.length - context) ≠ [] := by
          have hContext : context = 3 := rfl
          rw [Ne, List.drop_eq_nil_iff]
          omega
        rcases mem_consSegment hMem with ⟨more, hSegments⟩ | hMem
        · rw [Hunk.lefts, Hunk.rights, hSegments, List.flatMap_cons, List.flatMap_cons]
          exact ⟨List.append_ne_nil_of_left_ne_nil hSome _, List.append_ne_nil_of_left_ne_nil hSome _⟩
        · exact ih hMem
      next =>
        rw [tail_consSegment] at hMem
        exact ih hMem

/-- Every hunk but the first begins with kept lines. -/
theorem ne_nil_of_mem_tail {segments : List Segment} {h : Hunk} (hMem : h ∈ (hunks segments).tail) :
    h.lefts ≠ [] ∧ h.rights ≠ [] := by
  unfold hunks at hMem
  have hMem := (List.filter_sublist.tail).subset hMem
  split at hMem <;> exact ne_nil_of_mem_tail_hunksFrom hMem

theorem Leads.mem_dropLast {i j : Nat} {hs : List Hunk} {a b : List String} (h : Leads i j hs a b)
    (hLater : ∀ h ∈ hs.tail, h.lefts ≠ [] ∧ h.rights ≠ []) : ∀ h ∈ hs.dropLast,
      (∀ line ∈ h.lefts, line ∈ a.dropLast) ∧ ∀ line ∈ h.rights, line ∈ b.dropLast := by
  induction h with
  | done => exact fun h hMem => absurd hMem List.not_mem_nil
  | @hunk i j kept first rest a b hLeft hRight hRest ih =>
    cases rest with
    | nil => exact fun h hMem => absurd hMem List.not_mem_nil
    | cons next rest =>
      have hSome : a ≠ [] ∧ b ≠ [] := by
        obtain ⟨hLefts, hRights⟩ := hLater next List.mem_cons_self
        cases hRest with
        | hunk same _ _ _ => exact ⟨by simp [hLefts], by simp [hRights]⟩
      have hDrop : ∀ {xs ys : List String}, ys ≠ [] →
          (kept ++ (xs ++ ys)).dropLast = kept ++ (xs ++ ys.dropLast) := fun hNe => by
        rw [List.dropLast_append_of_ne_nil (List.append_ne_nil_of_right_ne_nil _ hNe),
          List.dropLast_append_of_ne_nil hNe]
      rw [hDrop hSome.1, hDrop hSome.2]
      intro h hMem
      rw [List.dropLast_cons_of_ne_nil (List.cons_ne_nil next rest), List.mem_cons] at hMem
      rcases hMem with rfl | hMem
      · exact ⟨fun line hLine => List.mem_append_right _ (List.mem_append_left _ hLine),
          fun line hLine => List.mem_append_right _ (List.mem_append_left _ hLine)⟩
      · obtain ⟨hLefts, hRights⟩ := ih (fun h hTail => hLater h (List.mem_of_mem_tail hTail)) h hMem
        exact ⟨fun line hLine => List.mem_append_right _ (List.mem_append_right _ (hLefts line hLine)),
          fun line hLine => List.mem_append_right _ (List.mem_append_right _ (hRights line hLine))⟩

end TidySpace.Diff
