/-! # Ascending lists of texts

Texts in order without repetitions. The order is that of the characters' numbers.
-/

namespace TidySpace.Text

/-- Puts a text into its place among texts in order, unless it is there. -/
def insertAscending (s : String) : List String → List String
  | [] => [s]
  | t :: ts => if s < t then s :: t :: ts else if s = t then t :: ts else t :: insertAscending s ts

def ascending (texts : List String) : List String := texts.foldr insertAscending []

theorem mem_insertAscending {s t : String} {ts : List String} :
    t ∈ insertAscending s ts ↔ t = s ∨ t ∈ ts := by
  induction ts with
  | nil => simp [insertAscending]
  | cons u us ih =>
    unfold insertAscending
    split
    · simp
    split
    next h => subst h; simp
    · simp only [List.mem_cons, ih]
      exact ⟨fun h => by rcases h with h | h | h <;> simp [h],
        fun h => by rcases h with h | h | h <;> simp [h]⟩

@[simp] theorem mem_ascending {t : String} {texts : List String} :
    t ∈ ascending texts ↔ t ∈ texts := by
  induction texts with
  | nil => simp [ascending]
  | cons s texts ih => simp [ascending, mem_insertAscending, ← ih]

theorem pairwise_insertAscending (s : String) {ts : List String} (h : ts.Pairwise (· < ·)) :
    (insertAscending s ts).Pairwise (· < ·) := by
  induction ts with
  | nil => exact List.pairwise_singleton ..
  | cons t ts ih =>
    have hTail := (List.pairwise_cons.1 h).2
    have hHead := (List.pairwise_cons.1 h).1
    unfold insertAscending
    split
    next hLt =>
      refine List.pairwise_cons.2 ⟨fun u hu => ?_, h⟩
      rcases List.mem_cons.1 hu with rfl | hu
      · exact hLt
      · exact String.lt_trans hLt (hHead u hu)
    next hNotLt =>
      split
      next => exact h
      next hNe =>
        have hAfter : t < s := by
          refine String.not_le.1 fun hLe => hNe (String.le_antisymm hLe ?_)
          exact String.not_lt.1 hNotLt
        refine List.pairwise_cons.2 ⟨fun u hu => ?_, ih hTail⟩
        rcases mem_insertAscending.1 hu with rfl | hu
        · exact hAfter
        · exact hHead u hu

theorem pairwise_ascending (texts : List String) : (ascending texts).Pairwise (· < ·) := by
  induction texts with
  | nil => exact List.Pairwise.nil
  | cons s texts ih => exact pairwise_insertAscending s ih

theorem nodup_ascending (texts : List String) : (ascending texts).Nodup := by
  refine (pairwise_ascending texts).imp ?_
  rintro s t hLt rfl
  exact String.lt_irrefl s hLt

/-- **Which texts there are decides how they are listed.** -/
theorem ascending_congr {texts texts' : List String} (h : ∀ t, t ∈ texts ↔ t ∈ texts') :
    ascending texts = ascending texts' := by
  refine List.Perm.eq_of_pairwise ?_ (pairwise_ascending texts)
    (pairwise_ascending texts') ?_
  · intro a b _ _ hLt hLt'
    exact absurd hLt' (String.lt_asymm hLt)
  · refine (List.perm_ext_iff_of_nodup (nodup_ascending texts) (nodup_ascending texts')).2 ?_
    intro t
    rw [mem_ascending, mem_ascending]
    exact h t

end TidySpace.Text
