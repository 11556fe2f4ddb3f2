import Mathlib.Algebra.Ring.Int.Defs
import TidySpace.Edit
import TidySpace.Proofs.Slices

/-! # Splicing ordered edits

`Edit.select` accepts edits that are in order and do not overlap (`ordered_select`), and
`Edit.spliceAll` splices them from the last to the first. On such edits the order of splicing does
not show. `spliceAll_cons` reads the result off from the left: what stands before the first edit,
its replacement, and the result of the other edits on what stands behind it. `spliceAll_append`
cuts buffer and edits at any place that no edit spans.

Where an offset goes is then a matter of counting. `moveStart` moves the start of a range by what
the edits that stop before it add, and `moveStop` the stop of a range by what the edits that start
before it add; they differ only where something is inserted. `slice_kept` says that the bytes of
a range that no edit touches are found again between the moved offsets.
-/

namespace TidySpace

namespace Edit

/-! ### Edits in order -/

/-- Edits in order whose ranges do not overlap. -/
structure Ordered (es : List Edit) : Prop where
  apart : es.Pairwise fun e f => e.stop ≤ f.start
  forward : ∀ e ∈ es, e.start ≤ e.stop

def Within (n : Nat) (es : List Edit) : Prop := ∀ e ∈ es, 0 ≤ e.start ∧ e.stop ≤ n

theorem Ordered.tail {e : Edit} {es : List Edit} (h : Ordered (e :: es)) : Ordered es :=
  ⟨(List.pairwise_cons.1 h.apart).2, fun f hf => h.forward f (List.mem_cons_of_mem e hf)⟩

theorem Ordered.head_le {e : Edit} {es : List Edit} (h : Ordered (e :: es)) :
    ∀ f ∈ es, e.stop ≤ f.start :=
  (List.pairwise_cons.1 h.apart).1

theorem Ordered.sublist {es fs : List Edit} (h : Ordered es) (hSub : fs.Sublist es) : Ordered fs :=
  ⟨h.apart.sublist hSub, fun e he => h.forward e (hSub.subset he)⟩

/-- The edit of the rest of a buffer, where `n` bytes before it are left out. -/
def back (n : Nat) (e : Edit) : Edit := { e with start := e.start - n, stop := e.stop - n }

@[simp] theorem start_back (n : Nat) (e : Edit) : (e.back n).start = e.start - n := rfl

@[simp] theorem stop_back (n : Nat) (e : Edit) : (e.back n).stop = e.stop - n := rfl

@[simp] theorem replacement_back (n : Nat) (e : Edit) :
    (e.back n).replacement = e.replacement := rfl

theorem Ordered.map_back {es : List Edit} (h : Ordered es) (n : Nat) :
    Ordered (es.map (back n)) := by
  refine ⟨List.pairwise_map.2 (h.apart.imp fun hEF => ?_), ?_⟩
  · simp only [stop_back, start_back]
    omega
  · simp only [List.mem_map, forall_exists_index, and_imp, forall_apply_eq_imp_iff₂, start_back,
      stop_back]
    intro e he
    have := h.forward e he
    omega

/-! ### What is selected -/

theorem selectFrom_ordered (last : Option Edit) (es : List Edit) :
    (∀ f ∈ (selectFrom last es).accepted, last.elim (-1) stop ≤ f.start) ∧
      Ordered (selectFrom last es).accepted := by
  induction es generalizing last with
  | nil => exact ⟨by simp [selectFrom], List.Pairwise.nil, by simp [selectFrom]⟩
  | cons e es ih =>
    rw [selectFrom]
    split
    next => exact ih last
    next hSkip =>
      split
      next => exact ih last
      next =>
        obtain ⟨hBehind, hRest⟩ := ih (some e)
        refine ⟨?_, List.pairwise_cons.2 ⟨hBehind, hRest.apart⟩, ?_⟩
        · intro f hf
          rcases List.mem_cons.1 hf with rfl | hf
          · omega
          · have : e.stop ≤ f.start := hBehind f hf
            omega
        · intro f hf
          rcases List.mem_cons.1 hf with rfl | hf
          · omega
          · exact hRest.forward f hf

theorem selectFrom_subset (last : Option Edit) (es : List Edit) :
    (selectFrom last es).accepted ⊆ es := by
  induction es generalizing last with
  | nil => exact List.Subset.refl _
  | cons e es ih =>
    rw [selectFrom]
    split
    next => exact fun f hf => List.mem_cons_of_mem e (ih last hf)
    next =>
      split
      next => exact fun f hf => List.mem_cons_of_mem e (ih last hf)
      next => exact List.cons_subset_cons e (ih (some e))

/-- **The accepted edits are in order and do not overlap.** -/
theorem ordered_select (es : List Edit) : Ordered (select es).accepted :=
  (selectFrom_ordered none (sort es)).2

theorem mem_of_mem_select {es : List Edit} {e : Edit} (h : e ∈ (select es).accepted) : e ∈ es :=
  List.mem_mergeSort.1 (selectFrom_subset none (sort es) h)

/-- Two edits that are the same or do not overlap. -/
def Compatible (e f : Edit) : Prop := e = f ∨ e.stop ≤ f.start ∨ f.stop ≤ e.start

theorem stop_le_of_before {e f : Edit} (hBefore : before e f = true) (hForward : f.start ≤ f.stop)
    (hCompatible : Compatible e f) (hNe : e ≠ f) : e.stop ≤ f.start := by
  simp only [before, Bool.or_eq_true, decide_eq_true_eq, Bool.and_eq_true, beq_iff_eq] at hBefore
  rcases hCompatible with h | h | h
  · exact absurd h hNe
  · exact h
  · omega

theorem mem_selectFrom (last : Option Edit) {es : List Edit}
    (hForward : ∀ e ∈ es, 0 ≤ e.start ∧ e.start ≤ e.stop)
    (hSorted : es.Pairwise fun e f => before e f = true) (hCompatible : es.Pairwise Compatible)
    (hLast : ∀ l, last = some l → ∀ e ∈ es, before l e = true ∧ Compatible l e) {e : Edit}
    (h : e ∈ es) : e ∈ (selectFrom last es).accepted ∨ last = some e := by
  induction es generalizing last with
  | nil => simp at h
  | cons f es ih =>
    have hHead := hForward f List.mem_cons_self
    rw [List.pairwise_cons] at hSorted hCompatible
    have ih := fun l => @ih l (fun e he => hForward e (List.mem_cons_of_mem f he)) hSorted.2
      hCompatible.2
    have hRest := ih last fun l hl e he => hLast l hl e (List.mem_cons_of_mem f he)
    have hTaken := ih (some f) fun l hl e he => by
      obtain rfl := Option.some.inj hl
      exact ⟨hSorted.1 e he, hCompatible.1 e he⟩
    by_cases hSame : last = some f
    · -- A repeated edit is left out, but it stands for itself.
      rcases List.mem_cons.1 h with rfl | h
      · exact Or.inr hSame
      · rw [selectFrom]
        split
        next => exact hRest h
        next => exact hRest h
    · have hFree : ¬ (f.stop < f.start ∨ f.start < last.elim (-1) stop) := by
        cases last with
        | none =>
          simp only [Option.elim_none]
          omega
        | some l =>
          obtain ⟨hBefore, hPair⟩ := hLast l rfl f List.mem_cons_self
          have hStop := stop_le_of_before hBefore hHead.2 hPair fun hEq => hSame (congrArg some hEq)
          simp only [Option.elim_some]
          omega
      rw [selectFrom, if_neg hFree, if_neg hSame]
      rcases List.mem_cons.1 h with rfl | h
      · exact Or.inl List.mem_cons_self
      · rcases hTaken h with hMem | hEq
        · exact Or.inl (List.mem_cons_of_mem f hMem)
        · obtain rfl := Option.some.inj hEq
          exact Or.inl List.mem_cons_self

theorem pairwise_sort (es : List Edit) : (sort es).Pairwise fun e f => before e f = true := by
  refine List.pairwise_mergeSort ?_ ?_ es
  · intro e f g hEF hFG
    simp only [before, Bool.or_eq_true, decide_eq_true_eq, Bool.and_eq_true, beq_iff_eq] at *
    omega
  · intro e f
    simp only [before, Bool.or_eq_true, decide_eq_true_eq, Bool.and_eq_true, beq_iff_eq]
    omega

/-- **Edits of which any two are the same or do not overlap are all accepted.** -/
theorem mem_select {es : List Edit} (hForward : ∀ e ∈ es, 0 ≤ e.start ∧ e.start ≤ e.stop)
    (hCompatible : ∀ e ∈ es, ∀ f ∈ es, Compatible e f) {e : Edit} (h : e ∈ es) :
    e ∈ (select es).accepted := by
  have hMem : ∀ {f}, f ∈ sort es → f ∈ es := List.mem_mergeSort.1
  have hPairs : (sort es).Pairwise Compatible :=
    List.pairwise_of_forall_mem_list fun f hf g hg => hCompatible f (hMem hf) g (hMem hg)
  rcases mem_selectFrom none (fun f hf => hForward f (hMem hf)) (pairwise_sort es) hPairs
    (fun l hl => by simp at hl) (List.mem_mergeSort.2 h) with h | h
  · exact h
  · simp at h

/-! ### Splicing from the left -/

theorem splice_append {e : Edit} {front data : List UInt8} (h : (front.length : Int) ≤ e.start)
    (h' : e.start ≤ e.stop) : splice e (front ++ data) = front ++ splice (e.back front.length) data := by
  unfold splice
  rw [List.length_append, start_back, stop_back, replacement_back]
  by_cases hEnd : (data.length : Int) < e.stop - front.length
  · rw [if_pos hEnd, if_pos (by omega)]
  · rw [if_neg hEnd, if_neg (by omega), takeTo_append h, dropTo_append (by omega),
      List.append_assoc, List.append_assoc, List.append_assoc]

theorem spliceAll_front {es : List Edit} {front : List UInt8} (data : List UInt8)
    (hForward : ∀ e ∈ es, e.start ≤ e.stop) (hBehind : ∀ e ∈ es, (front.length : Int) ≤ e.start) :
    spliceAll es (front ++ data) = front ++ spliceAll (es.map (back front.length)) data := by
  induction es with
  | nil => rfl
  | cons e es ih =>
    have ih := ih (fun f hf => hForward f (List.mem_cons_of_mem e hf))
      fun f hf => hBehind f (List.mem_cons_of_mem e hf)
    rw [spliceAll] at ih
    rw [spliceAll, List.foldr_cons, ih, splice_append (hBehind e List.mem_cons_self)
      (hForward e List.mem_cons_self)]
    rfl

theorem splice_cut {e : Edit} {pre mid post : List UInt8} (hStart : e.start = pre.length)
    (hStop : e.stop = pre.length + mid.length) :
    splice e (pre ++ (mid ++ post)) = pre ++ (Utf8.encode e.replacement ++ post) := by
  have hFirst : e.start - pre.length = (0 : Nat) := by omega
  have hLast : e.stop - pre.length = (mid.length : Nat) := by omega
  have hFits : ¬ ((mid ++ post).length : Int) < mid.length := by
    rw [List.length_append]
    omega
  rw [splice_append (by omega) (by omega), splice, start_back, stop_back, replacement_back, hFirst,
    hLast, if_neg hFits, takeTo_natCast, dropTo_natCast, List.drop_left]
  rfl

theorem exists_cut {e : Edit} {data : List UInt8} (hStart : 0 ≤ e.start) (hForward : e.start ≤ e.stop)
    (hStop : e.stop ≤ data.length) :
    ∃ pre mid post, data = pre ++ (mid ++ post) ∧ e.start = pre.length ∧
      e.stop = pre.length + mid.length := by
  refine ⟨data.take e.start.toNat, (data.drop e.start.toNat).take (e.stop - e.start).toNat,
    (data.drop e.start.toNat).drop (e.stop - e.start).toNat, ?_, ?_, ?_⟩
  · rw [List.take_append_drop, List.take_append_drop]
  · rw [List.length_take]
    omega
  · rw [List.length_take, List.length_take, List.length_drop]
    omega

/-- **The first edit of ordered ones**: what stands before it stays, its range is replaced, and the
other edits work on the rest. -/
theorem spliceAll_cons {e : Edit} {es : List Edit} {pre mid post : List UInt8}
    (hOrdered : Ordered (e :: es)) (hStart : e.start = pre.length)
    (hStop : e.stop = pre.length + mid.length) :
    spliceAll (e :: es) (pre ++ (mid ++ post)) = pre ++ (Utf8.encode e.replacement ++
      spliceAll (es.map (back (pre.length + mid.length))) post) := by
  have hRest : spliceAll es (pre ++ mid ++ post) =
      pre ++ mid ++ spliceAll (es.map (back (pre ++ mid).length)) post := by
    refine spliceAll_front post hOrdered.tail.forward fun f hf => ?_
    have := hOrdered.head_le f hf
    rw [List.length_append]
    omega
  rw [List.append_assoc, List.append_assoc, List.length_append] at hRest
  rw [spliceAll, List.foldr_cons, ← spliceAll, hRest, splice_cut hStart hStop]

theorem Within.tail {n : Nat} {e : Edit} {es : List Edit} (h : Within n (e :: es)) : Within n es :=
  fun f hf => h f (List.mem_cons_of_mem e hf)

theorem splice_behind {e : Edit} {front : List UInt8} (data : List UInt8) (hStart : 0 ≤ e.start)
    (hForward : e.start ≤ e.stop) (hStop : e.stop ≤ front.length) :
    splice e (front ++ data) = splice e front ++ data := by
  obtain ⟨pre, mid, post, rfl, hPre, hMid⟩ := exists_cut hStart hForward hStop
  rw [splice_cut hPre hMid, List.append_assoc, List.append_assoc, splice_cut hPre hMid]
  simp only [List.append_assoc]

theorem le_length_spliceAll {es : List Edit} {data : List UInt8} {n : Int}
    (hForward : ∀ e ∈ es, e.start ≤ e.stop) (hBehind : ∀ e ∈ es, n ≤ e.start)
    (h : n ≤ data.length) : n ≤ (spliceAll es data).length := by
  have hCut : data = data.take n.toNat ++ data.drop n.toNat := (List.take_append_drop ..).symm
  have hLength : (data.take n.toNat).length = n.toNat := by
    rw [List.length_take]
    omega
  by_cases h0 : 0 ≤ n
  · rw [hCut, spliceAll_front _ hForward fun e he => ?_, List.length_append]
    · omega
    · have := hBehind e he
      omega
  · omega

theorem spliceAll_behind {es : List Edit} {front : List UInt8} (data : List UInt8)
    (hOrdered : Ordered es) (hIn : Within front.length es) :
    spliceAll es (front ++ data) = spliceAll es front ++ data := by
  induction es with
  | nil => rfl
  | cons e es ih =>
    have hHead := hIn e List.mem_cons_self
    have hRest := ih hOrdered.tail hIn.tail
    rw [spliceAll] at hRest
    rw [spliceAll, List.foldr_cons, hRest]
    exact splice_behind data hHead.1 (hOrdered.forward e List.mem_cons_self)
      (le_length_spliceAll hOrdered.tail.forward hOrdered.head_le hHead.2)

/-- **A buffer and its edits can be cut** at any place that no edit spans. -/
theorem spliceAll_append {es fs : List Edit} {front data : List UInt8} (hOrdered : Ordered (es ++ fs))
    (hIn : Within front.length es) (hBehind : ∀ f ∈ fs, (front.length : Int) ≤ f.start) :
    spliceAll (es ++ fs) (front ++ data) =
      spliceAll es front ++ spliceAll (fs.map (back front.length)) data := by
  have hFront : spliceAll fs (front ++ data) = front ++ spliceAll (fs.map (back front.length)) data :=
    spliceAll_front data (fun f hf => hOrdered.forward f (List.mem_append_right es hf)) hBehind
  rw [spliceAll, List.foldr_append, ← spliceAll, ← spliceAll, hFront]
  exact spliceAll_behind _ (hOrdered.sublist (List.sublist_append_left es fs)) hIn

/-! ### How far edits move what is behind them -/

def grown (e : Edit) : Int := Utf8.width e.replacement - (e.stop - e.start)

/-- By how many bytes those of the edits make a buffer longer that satisfy `p`. -/
def growth (p : Edit → Bool) (es : List Edit) : Int := ((es.filter p).map grown).sum

@[simp] theorem grown_back (n : Nat) (e : Edit) : (e.back n).grown = e.grown := by
  simp only [grown, start_back, stop_back, replacement_back]
  omega

theorem length_splice {e : Edit} {data : List UInt8} (hStart : 0 ≤ e.start)
    (hForward : e.start ≤ e.stop) (hStop : e.stop ≤ data.length) :
    ((splice e data).length : Int) = data.length + e.grown := by
  obtain ⟨pre, mid, post, rfl, hPre, hMid⟩ := exists_cut hStart hForward hStop
  rw [splice_cut hPre hMid, grown, Utf8.width]
  simp only [List.length_append]
  omega

theorem length_spliceAll {es : List Edit} {data : List UInt8} (hOrdered : Ordered es)
    (hIn : Within data.length es) :
    ((spliceAll es data).length : Int) = data.length + (es.map grown).sum := by
  induction es with
  | nil => simp [spliceAll]
  | cons e es ih =>
    have hHead := hIn e List.mem_cons_self
    have hRest := ih hOrdered.tail hIn.tail
    rw [spliceAll] at hRest
    rw [spliceAll, List.foldr_cons, length_splice hHead.1 (hOrdered.forward e List.mem_cons_self),
      hRest, List.map_cons, List.sum_cons]
    · omega
    · exact le_length_spliceAll hOrdered.tail.forward hOrdered.head_le hHead.2

theorem sum_grown_back (n : Nat) (es : List Edit) :
    ((es.map (back n)).map grown).sum = (es.map grown).sum := by
  rw [List.map_map]
  exact congrArg List.sum (List.map_congr_left fun e _ => grown_back n e)

theorem growth_cons (p : Edit → Bool) (e : Edit) (es : List Edit) :
    growth p (e :: es) = (if p e then e.grown else 0) + growth p es := by
  unfold growth
  rw [List.filter_cons]
  split <;> simp

theorem growth_append (p : Edit → Bool) (es fs : List Edit) :
    growth p (es ++ fs) = growth p es + growth p fs := by
  simp [growth]

theorem growth_of_forall {p : Edit → Bool} {es : List Edit} (h : ∀ e ∈ es, p e = true) :
    growth p es = (es.map grown).sum := by
  rw [growth, List.filter_eq_self.2 h]

theorem growth_of_forall_not {p : Edit → Bool} {es : List Edit} (h : ∀ e ∈ es, p e = false) :
    growth p es = 0 := by
  rw [growth, List.filter_eq_nil_iff.2 fun e he => by simp [h e he]]
  rfl

/-- Where the start of a range goes: it moves by what the edits add that stop at it or before. -/
def moveStart (es : List Edit) (x : Int) : Int := x + growth (fun e => e.stop ≤ x) es

/-- Where the stop of a range goes: it moves by what the edits add that start before it. -/
def moveStop (es : List Edit) (x : Int) : Int := x + growth (fun e => e.start < x) es

/-- An offset that stands strictly inside no range of an edit. -/
def Clear (es : List Edit) (x : Int) : Prop := ∀ e ∈ es, ¬ (e.start < x ∧ x < e.stop)

/-- An offset divides ordered edits into those that stop at it or before and those that start at it
or behind, where it stands inside none of them. -/
theorem exists_divided {es : List Edit} {x : Int} (hOrdered : Ordered es) (hClear : Clear es x) :
    ∃ before behind, es = before ++ behind ∧ (∀ e ∈ before, e.stop ≤ x) ∧
      ∀ e ∈ behind, x ≤ e.start ∧ x < e.stop := by
  induction es with
  | nil => exact ⟨[], [], rfl, by simp, by simp⟩
  | cons e es ih =>
    have hHead := hClear e List.mem_cons_self
    have hForward := hOrdered.forward e List.mem_cons_self
    by_cases he : e.stop ≤ x
    · obtain ⟨before, behind, rfl, hBefore, hBehind⟩ :=
        ih hOrdered.tail fun f hf => hClear f (List.mem_cons_of_mem e hf)
      refine ⟨e :: before, behind, rfl, ?_, hBehind⟩
      intro f hf
      rcases List.mem_cons.1 hf with rfl | hf
      · exact he
      · exact hBefore f hf
    · refine ⟨[], e :: es, rfl, by simp, ?_⟩
      intro f hf
      rcases List.mem_cons.1 hf with rfl | hf
      · omega
      · have := hOrdered.head_le f hf
        have := hOrdered.tail.forward f hf
        omega

/-! ### Moved offsets keep their order -/

/-- Deleting between two offsets removes no more than what stands between them. -/
theorem growth_bound {p : Edit → Bool} {es : List Edit} {x y : Int} (hOrdered : Ordered es)
    (hStart : ∀ e ∈ es, x ≤ e.start) (hStop : ∀ e ∈ es, p e = true → e.stop ≤ y) (h : x ≤ y) :
    0 ≤ y - x + growth p es := by
  induction es generalizing x with
  | nil => simp only [growth, List.filter_nil, List.map_nil, List.sum_nil]; omega
  | cons e es ih =>
    have hHead := hStart e List.mem_cons_self
    have hForward := hOrdered.forward e List.mem_cons_self
    have hRest : ∀ f ∈ es, p f = true → f.stop ≤ y :=
      fun f hf => hStop f (List.mem_cons_of_mem e hf)
    rw [growth_cons]
    by_cases hp : p e = true
    · have ih := ih hOrdered.tail hOrdered.head_le hRest (hStop e List.mem_cons_self hp)
      have hGrown : -(e.stop - e.start) ≤ e.grown := by
        unfold grown
        omega
      rw [if_pos hp]
      omega
    · have ih := ih hOrdered.tail (fun f hf => hStart f (List.mem_cons_of_mem e hf)) hRest h
      rw [if_neg hp]
      omega

theorem le_growth_of_empty {p : Edit → Bool} {es : List Edit}
    (h : ∀ e ∈ es, p e = false → e.stop ≤ e.start) : growth p es ≤ (es.map grown).sum := by
  induction es with
  | nil => exact Int.le_refl _
  | cons e es ih =>
    have ih := ih fun f hf => h f (List.mem_cons_of_mem e hf)
    rw [growth_cons, List.map_cons, List.sum_cons]
    by_cases hp : p e = true
    · rw [if_pos hp]
      omega
    · have hGrown : 0 ≤ e.grown := by
        have := h e List.mem_cons_self (by simpa using hp)
        unfold grown
        omega
      rw [if_neg hp]
      omega

section Divided

variable {before behind : List Edit} {x y : Int}

theorem moveStart_divided (hBefore : ∀ e ∈ before, e.stop ≤ x) (hBehind : ∀ e ∈ behind, x < e.stop) :
    moveStart (before ++ behind) x = x + (before.map grown).sum := by
  rw [moveStart, growth_append, growth_of_forall (by simpa using hBefore),
    growth_of_forall_not (by simpa using hBehind), Int.add_zero]

theorem moveStop_divided (hBefore : ∀ e ∈ before, e.start < x) (hBehind : ∀ e ∈ behind, x ≤ e.start) :
    moveStop (before ++ behind) x = x + (before.map grown).sum := by
  rw [moveStop, growth_append, growth_of_forall (by simpa using hBefore),
    growth_of_forall_not (by simpa using hBehind), Int.add_zero]

end Divided

/-- An offset goes no further as the stop of a range than as the start of one. -/
theorem moveStop_le_moveStart {es : List Edit} {x : Int} (hOrdered : Ordered es)
    (hClear : Clear es x) : moveStop es x ≤ moveStart es x := by
  obtain ⟨before, behind, rfl, hBefore, hBehind⟩ := exists_divided hOrdered hClear
  rw [moveStart_divided hBefore fun e he => (hBehind e he).2, moveStop, growth_append,
    @growth_of_forall_not _ behind (by simpa using fun e he => (hBehind e he).1)]
  have := le_growth_of_empty (p := fun e => decide (e.start < x)) fun e he hp => by
    have := hBefore e he
    simp only [decide_eq_false_iff_not] at hp
    omega
  omega

theorem moveStart_nonneg {es : List Edit} {x : Int} (hOrdered : Ordered es)
    (hStart : ∀ e ∈ es, 0 ≤ e.start) (h : 0 ≤ x) : 0 ≤ moveStart es x := by
  have := growth_bound (p := fun e => decide (e.stop ≤ x)) (y := x) hOrdered hStart (by simp) h
  unfold moveStart
  omega

theorem moveStop_nonneg {es : List Edit} {x : Int} (hOrdered : Ordered es)
    (hStart : ∀ e ∈ es, 0 ≤ e.start) (hClear : Clear es x) (h : 0 ≤ x) : 0 ≤ moveStop es x := by
  have := growth_bound (p := fun e => decide (e.start < x)) (y := x) hOrdered hStart
    (fun e he hp => by
      have := hClear e he
      simp only [decide_eq_true_eq] at hp
      omega) h
  unfold moveStop
  omega

theorem moveStart_mono {es : List Edit} {x y : Int} (hOrdered : Ordered es) (hClear : Clear es x)
    (h : x ≤ y) : moveStart es x ≤ moveStart es y := by
  obtain ⟨before, behind, rfl, hBefore, hBehind⟩ := exists_divided hOrdered hClear
  have hBound := growth_bound (p := fun e => decide (e.stop ≤ y)) (y := y)
    (hOrdered.sublist (List.sublist_append_right before behind)) (fun e he => (hBehind e he).1)
    (by simp) h
  rw [moveStart_divided hBefore fun e he => (hBehind e he).2, moveStart, growth_append,
    @growth_of_forall _ before]
  · omega
  · intro e he
    have := hBefore e he
    simp only [decide_eq_true_eq]
    omega

/-- A range, not empty, that no edit touches. -/
structure Kept (es : List Edit) (start stop : Int) : Prop where
  lt : start < stop
  apart : ∀ e ∈ es, e.stop ≤ start ∨ stop ≤ e.start

namespace Kept

variable {es : List Edit} {start stop x : Int}

theorem clear_start (h : Kept es start stop) : Clear es start := fun e he => by
  have := h.apart e he
  have := h.lt
  omega

theorem clear_stop (h : Kept es start stop) : Clear es stop := fun e he => by
  have := h.apart e he
  have := h.lt
  omega

theorem exists_divided (h : Kept es start stop) (hOrdered : Ordered es) :
    ∃ before behind, es = before ++ behind ∧ (∀ e ∈ before, e.stop ≤ start) ∧
      ∀ e ∈ behind, stop ≤ e.start := by
  obtain ⟨before, behind, rfl, hBefore, hBehind⟩ := Edit.exists_divided hOrdered h.clear_start
  refine ⟨before, behind, rfl, hBefore, fun e he => ?_⟩
  have := hBehind e he
  have := h.apart e (List.mem_append_right before he)
  omega

theorem moveStop_eq (h : Kept es start stop) (hOrdered : Ordered es) :
    moveStop es stop = moveStart es start + (stop - start) := by
  obtain ⟨before, behind, rfl, hBefore, hBehind⟩ := h.exists_divided hOrdered
  have hLt := h.lt
  rw [moveStart_divided hBefore, moveStop_divided _ hBehind]
  · omega
  · intro e he
    have := hBefore e he
    have := hOrdered.forward e (List.mem_append_left behind he)
    omega
  · intro e he
    have := hBehind e he
    have := hOrdered.forward e (List.mem_append_right before he)
    omega

theorem move_inside (h : Kept es start stop) (hOrdered : Ordered es) (hStart : start < x)
    (hStop : x < stop) : moveStart es x = moveStart es start + (x - start) ∧
      moveStop es x = moveStart es start + (x - start) := by
  obtain ⟨before, behind, rfl, hBefore, hBehind⟩ := h.exists_divided hOrdered
  have hForward := hOrdered.forward
  simp only [List.mem_append] at hForward
  rw [moveStart_divided hBefore, moveStart_divided, moveStop_divided]
  · omega
  all_goals
    intro e he
    try have := hBefore e he
    try have := hBehind e he
    have := hForward e (by simp [he])
    omega

theorem moveStop_le (h : Kept es start stop) (hOrdered : Ordered es) (hClear : Clear es x)
    (hx : stop ≤ x) : moveStop es stop ≤ moveStop es x := by
  obtain ⟨before, behind, rfl, hBefore, hBehind⟩ := h.exists_divided hOrdered
  have hLt := h.lt
  have hCounted : ∀ e ∈ before, e.start < stop := fun e he => by
    have := hBefore e he
    have := hOrdered.forward e (List.mem_append_left behind he)
    omega
  have hBound := growth_bound (p := fun e => decide (e.start < x)) (y := x)
    (hOrdered.sublist (List.sublist_append_right before behind)) hBehind (fun e he hp => by
      have := hClear e (List.mem_append_right before he)
      simp only [decide_eq_true_eq] at hp
      omega) hx
  rw [moveStop_divided hCounted hBehind, moveStop, growth_append, @growth_of_forall _ before]
  · omega
  · intro e he
    have := hCounted e he
    simp only [decide_eq_true_eq]
    omega

variable (h : Kept es start stop) (hOrdered : Ordered es) (hClear : Clear es x)
include h hOrdered hClear

theorem move_cases :
    (x ≤ start ∧ moveStart es x ≤ moveStart es start ∧ moveStop es x ≤ moveStart es start) ∨
      (start < x ∧ x < stop ∧ moveStart es x = moveStart es start + (x - start) ∧
        moveStop es x = moveStart es start + (x - start)) ∨
      (stop ≤ x ∧ moveStop es stop ≤ moveStart es x ∧ moveStop es stop ≤ moveStop es x) := by
  have hMeet := moveStop_le_moveStart hOrdered hClear
  rcases Int.lt_or_le start x with hx | hx
  · rcases Int.lt_or_le x stop with hx' | hx'
    · have hInside := h.move_inside hOrdered hx hx'
      exact Or.inr (Or.inl ⟨hx, hx', hInside.1, hInside.2⟩)
    · have hStop := h.moveStop_le hOrdered hClear hx'
      exact Or.inr (Or.inr ⟨hx', by omega, hStop⟩)
  · have hStart := moveStart_mono hOrdered hClear hx
    exact Or.inl ⟨hx, hStart, by omega⟩

/-- **A kept range starts before the start of another range exactly if it did.** -/
theorem start_lt_moveStart_iff : moveStart es start < moveStart es x ↔ start < x := by
  have hLt := h.lt
  have hStop := h.moveStop_eq hOrdered
  rcases h.move_cases hOrdered hClear with hx | hx | hx <;> omega

/-- **A kept range starts before the stop of another range exactly if it did.** -/
theorem start_lt_moveStop_iff : moveStart es start < moveStop es x ↔ start < x := by
  have hLt := h.lt
  have hStop := h.moveStop_eq hOrdered
  rcases h.move_cases hOrdered hClear with hx | hx | hx <;> omega

/-- **A kept range stops by the start of another range exactly if it did.** -/
theorem stop_le_moveStart_iff : moveStop es stop ≤ moveStart es x ↔ stop ≤ x := by
  have hLt := h.lt
  have hStop := h.moveStop_eq hOrdered
  rcases h.move_cases hOrdered hClear with hx | hx | hx <;> omega

/-- **A kept range stops by the stop of another range exactly if it did.** -/
theorem stop_le_moveStop_iff : moveStop es stop ≤ moveStop es x ↔ stop ≤ x := by
  have hLt := h.lt
  have hStop := h.moveStop_eq hOrdered
  rcases h.move_cases hOrdered hClear with hx | hx | hx <;> omega

end Kept

/-! ### What is found between moved offsets -/

theorem le_start_of_mem_back {es : List Edit} {n : Nat} {x : Int} (h : ∀ e ∈ es, n + x ≤ e.start) :
    ∀ e ∈ es.map (back n), x ≤ e.start := by
  refine List.forall_mem_map.2 fun e he => ?_
  have := h e he
  rw [start_back]
  omega

theorem within_back {es : List Edit} {n k : Nat} (h : ∀ e ∈ es, n ≤ e.start ∧ e.stop ≤ n + k) :
    Within k (es.map (back n)) := by
  refine List.forall_mem_map.2 fun e he => ?_
  have := h e he
  rw [start_back, stop_back]
  omega

theorem filter_divided {before inside behind : List Edit} {start stop : Int}
    (hBefore : ∀ e ∈ before, e.start < start)
    (hInside : ∀ e ∈ inside, start ≤ e.start ∧ e.stop ≤ stop) (hBehind : ∀ e ∈ behind, stop < e.stop) :
    (before ++ (inside ++ behind)).filter (fun e => start ≤ e.start ∧ e.stop ≤ stop) = inside := by
  rw [List.filter_append, List.filter_append, List.filter_eq_nil_iff.2, List.filter_eq_self.2,
    List.filter_eq_nil_iff.2, List.nil_append, List.append_nil]
  · intro e he
    have := hBehind e he
    simp only [decide_eq_true_eq]
    omega
  · intro e he
    exact decide_eq_true (hInside e he)
  · intro e he
    have := hBefore e he
    simp only [decide_eq_true_eq]
    omega

/-- **The bytes of a kept range** are found again between the moved offsets. -/
theorem slice_kept {es : List Edit} {data : List UInt8} {start stop : Int} (hOrdered : Ordered es)
    (hIn : Within data.length es) (h : Kept es start stop) (h0 : 0 ≤ start)
    (hLength : stop ≤ data.length) :
    slice (spliceAll es data) (moveStart es start) (moveStop es stop) = slice data start stop := by
  have hLt := h.lt
  have hStop := h.moveStop_eq hOrdered
  obtain ⟨before, behind, rfl, hBefore, hBehind⟩ := h.exists_divided hOrdered
  obtain ⟨front, rest, hData, hFront, hMid⟩ := exists_slice data h0 (Int.le_of_lt hLt) hLength
  generalize slice data start stop = mid at hData hMid ⊢
  subst hData
  have hBeforeIn : Within front.length before := fun e he => by
    have := hIn e (List.mem_append_left behind he)
    have := hBefore e he
    omega
  have hBehindStart : ∀ e ∈ behind.map (back front.length), (mid.length : Int) ≤ e.start :=
    le_start_of_mem_back fun e he => by
      have := hBehind e he
      omega
  have hBehindOrdered := hOrdered.sublist (List.sublist_append_right before behind)
  have hBehindStop : ∀ e ∈ behind, start < e.stop := fun e he => by
    have := hBehind e he
    have := hBehindOrdered.forward e he
    omega
  rw [spliceAll_append hOrdered hBeforeIn fun e he => by have := hBehind e he; omega,
    spliceAll_front rest (hBehindOrdered.map_back _).forward hBehindStart]
  have hBeforeLength :=
    length_spliceAll (hOrdered.sublist (List.sublist_append_left before behind)) hBeforeIn
  have hMoved := moveStart_divided hBefore hBehindStop
  apply slice_append <;> omega

/-- **The bytes between kept ranges** are those that were there, with the edits among them made. -/
theorem slice_gap {es : List Edit} {data : List UInt8} {left start stop right : Int}
    (hOrdered : Ordered es) (hIn : Within data.length es) (hLeft : Kept es left start)
    (hRight : Kept es stop right) (h0 : 0 ≤ left) (h : start ≤ stop) (hLength : right ≤ data.length) :
    slice (spliceAll es data) (moveStop es start) (moveStart es stop) =
      spliceAll ((es.filter fun e => start ≤ e.start ∧ e.stop ≤ stop).map (back start.toNat))
        (slice data start stop) := by
  have hLeftLt := hLeft.lt
  have hRightLt := hRight.lt
  obtain ⟨before, rest, rfl, hBefore, hRest⟩ := hLeft.exists_divided hOrdered
  have hRestOrdered := hOrdered.sublist (List.sublist_append_right before rest)
  obtain ⟨inside, behind, rfl, hInside, hBehind⟩ := exists_divided (x := stop) hRestOrdered
    fun e he => hRight.clear_start e (List.mem_append_right before he)
  obtain ⟨front, final, hData, hFront, hMid⟩ :=
    exists_slice (x := start) (y := stop) data (by omega) h (by omega)
  generalize slice data start stop = mid at hData hMid ⊢
  subst hData
  have hForward := hOrdered.forward
  simp only [List.mem_append] at hForward hRest
  have hMiddle : ∀ e ∈ inside, start ≤ e.start ∧ e.stop ≤ stop := fun e he =>
    ⟨hRest e (Or.inl he), hInside e he⟩
  have hFirst : ∀ e ∈ before, e.start < start := fun e he => by
    have := hBefore e he
    have := hForward e (Or.inl he)
    omega
  have hFilter := @filter_divided before inside behind start stop hFirst hMiddle fun e he =>
    (hBehind e he).2
  have hBeforeIn : Within front.length before := fun e he => by
    have := hIn e (List.mem_append_left _ he)
    have := hBefore e he
    omega
  have hInsideIn : Within mid.length (inside.map (back front.length)) :=
    within_back fun e he => by
      have := hMiddle e he
      omega
  have hBehindStart : ∀ e ∈ behind.map (back front.length), (mid.length : Int) ≤ e.start :=
    le_start_of_mem_back fun e he => by
      have := hBehind e he
      omega
  have hRestBack := hRestOrdered.map_back front.length
  rw [List.map_append] at hRestBack
  rw [hFilter, spliceAll_append hOrdered hBeforeIn (fun e he => by have := hRest e (List.mem_append.1 he); omega),
    List.map_append, spliceAll_append hRestBack hInsideIn hBehindStart]
  have hStart : start.toNat = front.length := by omega
  rw [hStart]
  have hBeforeLength :=
    length_spliceAll (hOrdered.sublist (List.sublist_append_left before _)) hBeforeIn
  have hInsideLength :=
    length_spliceAll (hRestBack.sublist (List.sublist_append_left _ _)) hInsideIn
  rw [sum_grown_back] at hInsideLength
  have hMovedStart : moveStop (before ++ (inside ++ behind)) start = start + (before.map grown).sum :=
    moveStop_divided hFirst fun e he => hRest e (List.mem_append.1 he)
  have hMovedStop : moveStart ((before ++ inside) ++ behind) stop =
      stop + ((before ++ inside).map grown).sum :=
    moveStart_divided (fun e he => by
      rcases List.mem_append.1 he with he | he
      · have := hBefore e he
        omega
      · exact hInside e he) fun e he => (hBehind e he).2
  rw [List.map_append, List.sum_append, List.append_assoc] at hMovedStop
  apply slice_append <;> omega

end Edit

end TidySpace
