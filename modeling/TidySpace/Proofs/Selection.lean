import Mathlib.Data.List.Permutation
import TidySpace.Proofs.BlankEdits

/-! # What becomes of a batch

Each edit of a batch is accepted, skipped or dropped (`perm_select`). A skipped one is turned around
or starts inside an accepted one (`skipped_select`), and a dropped one is there already.

Accepted edits are spliced from the last to the first, and whether an edit still fits is asked of a
buffer that has become longer or shorter by then. That makes no difference. Where an edit reaches past
the buffer as it was at first, so do all edits behind it, so nothing has been spliced yet; and where
it does not, all that has been spliced stands behind it. So the edits that fit at first replace their
ranges as if all at once (`spliceAll_eq_replaced`).
-/

namespace TidySpace.Edit

open Utf8 (encode)

/-! ### Accepted, skipped and dropped edits -/

theorem start_le_of_before {e f : Edit} (h : before e f = true) : e.start ≤ f.start := by
  simp only [before, Bool.or_eq_true, decide_eq_true_eq, Bool.and_eq_true, beq_iff_eq] at h
  omega

theorem Ordered.pairwise_before {es : List Edit} (h : Ordered es) :
    es.Pairwise fun e f => before e f = true ∧ e.stop ≤ f.start := by
  refine h.apart.imp_of_mem fun {e f} he hf hApart => ⟨?_, hApart⟩
  have := h.forward e he
  have := h.forward f hf
  simp only [Edit.before, Bool.or_eq_true, decide_eq_true_eq, Bool.and_eq_true, beq_iff_eq]
  omega

theorem selectFrom_of_ordered (last : Option Edit) {es : List Edit} (hOrdered : Ordered es)
    (hNonempty : ∀ e ∈ es, e.start < e.stop) (hLast : ∀ e ∈ es, last.elim (-1) stop ≤ e.start) :
    selectFrom last es = ⟨es, []⟩ := by
  induction es generalizing last with
  | nil => rfl
  | cons e es ih =>
    rw [List.forall_mem_cons] at hNonempty hLast
    have hNew : last ≠ some e := by
      rintro rfl
      have := hLast.1
      simp only [Option.elim_some] at this
      omega
    rw [selectFrom, if_neg (by omega), if_neg hNew,
      ih (some e) hOrdered.tail hNonempty.2 hOrdered.head_le]

/-- Edits in order that do not overlap and have no empty range are accepted as they are. -/
theorem select_of_ordered {es : List Edit} (hOrdered : Ordered es)
    (hNonempty : ∀ e ∈ es, 0 ≤ e.start ∧ e.start < e.stop) : select es = ⟨es, []⟩ := by
  rw [select, sort, List.mergeSort_of_pairwise (hOrdered.pairwise_before.imp And.left)]
  refine selectFrom_of_ordered none hOrdered (fun e he => (hNonempty e he).2) fun e he => ?_
  have := (hNonempty e he).1
  simp only [Option.elim_none]
  omega

theorem skipped_selectFrom (last : Option Edit) {es : List Edit} (hNonneg : ∀ e ∈ es, 0 ≤ e.start)
    (hSorted : es.Pairwise fun e f => Edit.before e f = true)
    (hLast : ∀ l, last = some l → ∀ e ∈ es, l.start ≤ e.start) :
    ∀ e ∈ (selectFrom last es).skipped, e.stop < e.start ∨
      ∃ f, (last = some f ∨ f ∈ (selectFrom last es).accepted) ∧ f.start ≤ e.start ∧
        e.start < f.stop := by
  induction es generalizing last with
  | nil => exact fun e he => absurd he List.not_mem_nil
  | cons g es ih =>
    rw [List.pairwise_cons] at hSorted
    have ih := fun l => ih l (fun e he => hNonneg e (List.mem_cons_of_mem g he)) hSorted.2
    have hRest := ih last fun l hl e he => hLast l hl e (List.mem_cons_of_mem g he)
    intro e he
    rw [selectFrom] at he ⊢
    split at he
    next hSkip =>
      rw [if_pos hSkip]
      rcases List.mem_cons.1 he with rfl | he
      · rcases hSkip with hInverted | hInside
        · exact Or.inl hInverted
        · cases last with
          | none =>
            have := hNonneg e List.mem_cons_self
            simp only [Option.elim_none] at hInside
            omega
          | some l => exact Or.inr ⟨l, Or.inl rfl, hLast l rfl e List.mem_cons_self, hInside⟩
      · exact hRest e he
    next hTake =>
      rw [if_neg hTake]
      split at he
      next hSame =>
        rw [if_pos hSame]
        exact hRest e he
      next hNew =>
        rw [if_neg hNew]
        have hBehind : ∀ l, some g = some l → ∀ f ∈ es, l.start ≤ f.start := by
          rintro l hl f hf
          obtain rfl := Option.some.inj hl
          exact start_le_of_before (hSorted.1 f hf)
        rcases ih (some g) hBehind e he with hInverted | ⟨f, hFrom, hInside⟩
        · exact Or.inl hInverted
        · refine Or.inr ⟨f, Or.inr ?_, hInside⟩
          rcases hFrom with hHead | hMem
          · obtain rfl := Option.some.inj hHead
            exact List.mem_cons_self
          · exact List.mem_cons_of_mem g hMem

/-- **A skipped edit** is turned around, or starts inside an accepted one. -/
theorem skipped_select {es : List Edit} (hNonneg : ∀ e ∈ es, 0 ≤ e.start) :
    ∀ e ∈ (select es).skipped, e.stop < e.start ∨
      ∃ f ∈ (select es).accepted, f.start ≤ e.start ∧ e.start < f.stop := by
  intro e he
  have hSorted : ∀ f ∈ sort es, 0 ≤ f.start := fun f hf => hNonneg f (List.mem_mergeSort.1 hf)
  rcases skipped_selectFrom none hSorted (pairwise_sort es) (fun l hl => by cases hl) e he with
    hInverted | ⟨f, hNone | hMem, hInside⟩
  · exact Or.inl hInverted
  · cases hNone
  · exact Or.inr ⟨f, hMem, hInside⟩

theorem perm_selectFrom (last : Option Edit) (es : List Edit) : ∃ dropped,
    ((selectFrom last es).accepted ++ ((selectFrom last es).skipped ++ dropped)).Perm es ∧
      ∀ e ∈ dropped, last = some e ∨ e ∈ (selectFrom last es).accepted := by
  induction es generalizing last with
  | nil => exact ⟨[], .refl _, fun e he => absurd he List.not_mem_nil⟩
  | cons g es ih =>
    obtain ⟨dropped, hPerm, hDropped⟩ := ih last
    rw [selectFrom]
    split
    next => exact ⟨dropped, List.perm_middle.trans (hPerm.cons g), hDropped⟩
    next =>
      split
      next hSame =>
        refine ⟨g :: dropped, ?_, ?_⟩
        · rw [← List.append_assoc] at hPerm ⊢
          exact List.perm_middle.trans (hPerm.cons g)
        · intro e he
          rcases List.mem_cons.1 he with rfl | he
          · exact Or.inl hSame
          · exact hDropped e he
      next =>
        obtain ⟨dropped, hPerm, hDropped⟩ := ih (some g)
        refine ⟨dropped, hPerm.cons g, fun e he => Or.inr ?_⟩
        rcases hDropped e he with hHead | hMem
        · obtain rfl := Option.some.inj hHead
          exact List.mem_cons_self
        · exact List.mem_cons_of_mem g hMem

/-- **No edit is lost**: what is neither accepted nor skipped repeats an accepted edit. -/
theorem perm_select (es : List Edit) : ∃ dropped,
    ((select es).accepted ++ ((select es).skipped ++ dropped)).Perm es ∧
      ∀ e ∈ dropped, e ∈ (select es).accepted := by
  obtain ⟨dropped, hPerm, hDropped⟩ := perm_selectFrom none (sort es)
  refine ⟨dropped, hPerm.trans (List.mergeSort_perm es _), ?_⟩
  intro e he
  rcases hDropped e he with hNone | hMem
  · cases hNone
  · exact hMem

/-! ### Replacing all ranges at once -/

/-- A buffer from an offset on, where edits in order replace their ranges: what stands between the
ranges is as it was. -/
def replacedFrom (data : List UInt8) (here : Int) : List Edit → List UInt8
  | [] => dropTo data here
  | e :: es => slice data here e.start ++ (encode e.replacement ++ replacedFrom data e.stop es)

/-- A buffer where edits in order replace their ranges. -/
def replaced (data : List UInt8) (es : List Edit) : List UInt8 := replacedFrom data 0 es

theorem spliceAll_eq_takeTo_append {es : List Edit} {data : List UInt8} {here : Int}
    (hOrdered : Ordered es) (hIn : Within data.length es) (hBehind : ∀ e ∈ es, here ≤ e.start)
    (h0 : 0 ≤ here) : spliceAll es data = takeTo data here ++ replacedFrom data here es := by
  induction es generalizing here with
  | nil => exact (List.take_append_drop ..).symm
  | cons e es ih =>
    have hHead := hIn e List.mem_cons_self
    have hHere := hBehind e List.mem_cons_self
    have hForward := hOrdered.forward e List.mem_cons_self
    have hRest := ih hOrdered.tail hIn.tail hOrdered.head_le (by omega)
    obtain ⟨front, back, hData, hFront, hStart⟩ :=
      exists_slice data h0 hHere (Int.le_trans hForward hHead.2)
    obtain ⟨pre, mid, post, hCut, hPre, hStop⟩ := exists_cut hHead.1 hForward hHead.2
    have hTaken : takeTo data here = front := by
      rw [hData, hFront, takeTo_natCast, List.take_left]
    have hBefore : pre = front ++ slice data here e.start := by
      refine (List.append_inj (hCut.symm.trans (hData.trans (List.append_assoc ..).symm)) ?_).1
      rw [List.length_append]
      omega
    have hKept : takeTo data e.stop = pre ++ mid := by
      have hLength : e.stop = ((pre ++ mid).length : Nat) := by
        rw [List.length_append]
        omega
      rw [hCut, hLength, takeTo_natCast, ← List.append_assoc, List.take_left]
    rw [spliceAll, List.foldr_cons, ← spliceAll, hRest, hKept, List.append_assoc,
      splice_cut hPre hStop, hTaken, replacedFrom, hBefore, List.append_assoc]

/-- The edits that do not reach past a buffer of a length. -/
def fitting (n : Nat) (es : List Edit) : List Edit := es.filter fun e => e.stop ≤ n

theorem mem_fitting {n : Nat} {es : List Edit} {e : Edit} : e ∈ fitting n es ↔ e ∈ es ∧ e.stop ≤ n := by
  rw [fitting, List.mem_filter, decide_eq_true_eq]

theorem spliceAll_fitting {es : List Edit} {data : List UInt8} (hOrdered : Ordered es) :
    spliceAll (fitting data.length es) data = spliceAll es data := by
  induction es with
  | nil => rfl
  | cons e es ih =>
    by_cases hFits : e.stop ≤ data.length
    · have hHead : fitting data.length (e :: es) = e :: fitting data.length es :=
        List.filter_cons_of_pos (decide_eq_true hFits)
      rw [hHead, spliceAll, List.foldr_cons, ← spliceAll, ih hOrdered.tail]
      rfl
    · have hPast : ∀ f ∈ e :: es, (data.length : Int) < f.stop := by
        intro f hf
        rcases List.mem_cons.1 hf with rfl | hf
        · omega
        · have := hOrdered.head_le f hf
          have := hOrdered.tail.forward f hf
          omega
      have hNone : fitting data.length (e :: es) = [] := by
        refine List.eq_nil_iff_forall_not_mem.2 fun f hf => ?_
        obtain ⟨hMem, hFit⟩ := mem_fitting.1 hf
        have := hPast f hMem
        omega
      rw [hNone, spliceAll_past hPast]
      rfl

/-- **Splicing replaces all ranges at once**, those of the edits that reach past the buffer left
out. -/
theorem spliceAll_eq_replaced {es : List Edit} {data : List UInt8} (hOrdered : Ordered es)
    (hNonneg : ∀ e ∈ es, 0 ≤ e.start) :
    spliceAll es data = replaced data (fitting data.length es) := by
  have hIn : Within data.length (fitting data.length es) := by
    intro e he
    obtain ⟨hMem, hFits⟩ := mem_fitting.1 he
    exact ⟨hNonneg e hMem, hFits⟩
  have hFitting : Ordered (fitting data.length es) := hOrdered.sublist List.filter_sublist
  rw [← spliceAll_fitting hOrdered,
    spliceAll_eq_takeTo_append hFitting hIn (fun e he => (hIn e he).1) (Int.le_refl 0)]
  rfl

theorem applied?_eq_decode? (text : List Char) (edits : List Edit) :
    applied? text edits = Utf8.decode? (spliceAll (select edits).accepted (encode text)) := by
  rw [applied?]
  split
  next hNone =>
    rw [List.isEmpty_iff.1 hNone]
    exact (Utf8.decode?_encode text).symm
  next => rfl

/-- **A batch of edits.** Its edits are accepted, skipped or dropped. Accepted ones are sorted and do
not overlap, skipped ones are turned around or start inside an accepted one, and dropped ones repeat
an accepted one. The accepted edits that fit into the text replace their ranges at once, and the text
that has these bytes is the result; there is none just if no text has them. -/
theorem applied_of_nonneg (text : List Char) (edits : List Edit)
    (hNonneg : ∀ e ∈ edits, 0 ≤ e.start ∧ 0 ≤ e.stop) :
    ∃ accepted skipped dropped bytes, select edits = ⟨accepted, skipped⟩ ∧
      accepted.Pairwise (fun e f => before e f = true ∧ e.stop ≤ f.start) ∧
      (∀ e ∈ accepted, e.start ≤ e.stop) ∧
      (∀ e ∈ skipped, e.stop < e.start ∨ ∃ f ∈ accepted, f.start ≤ e.start ∧ e.start < f.stop) ∧
      (accepted ++ (skipped ++ dropped)).Perm edits ∧ (∀ e ∈ dropped, e ∈ accepted) ∧
      bytes = replaced (encode text) (fitting (encode text).length accepted) ∧
      spliceAll accepted (encode text) = bytes ∧
      (∀ fixed, applied? text edits = some fixed ↔ encode fixed = bytes) ∧
      (applied? text edits = none ↔ ∀ fixed, encode fixed ≠ bytes) := by
  obtain ⟨dropped, hPerm, hDropped⟩ := perm_select edits
  have hOrdered := ordered_select edits
  have hBytes : spliceAll (select edits).accepted (encode text) =
      replaced (encode text) (fitting (encode text).length (select edits).accepted) :=
    spliceAll_eq_replaced hOrdered fun e he => (hNonneg e (mem_of_mem_select he)).1
  have hSome : ∀ fixed, applied? text edits = some fixed ↔
      encode fixed = spliceAll (select edits).accepted (encode text) := by
    intro fixed
    rw [applied?_eq_decode?]
    constructor
    · intro h
      exact (Utf8.eq_encode_of_decode? h).symm
    · intro h
      rw [← h, Utf8.decode?_encode]
  refine ⟨(select edits).accepted, (select edits).skipped, dropped, _, rfl, hOrdered.pairwise_before,
    hOrdered.forward, skipped_select fun e he => (hNonneg e he).1, hPerm, hDropped, hBytes, rfl, hSome,
    ?_⟩
  rw [Option.eq_none_iff_forall_ne_some]
  exact forall_congr' fun fixed => not_congr (hSome fixed)

/-- Edits of a text of six bytes: a deletion and an insertion where it stops, both given twice, one
that overlaps the deletion, one that is turned around, and two that reach past the text. -/
def jumble : List Edit :=
  [⟨6, 8, ['!']⟩, ⟨4, 4, ['+']⟩, ⟨2, 4, []⟩, ⟨3, 5, ['-']⟩, ⟨5, 1, ['?']⟩, ⟨2, 4, []⟩, ⟨4, 4, ['+']⟩,
    ⟨8, 9, []⟩]

/-- Repeated, the deletion is skipped, as it starts inside itself, and the insertion is dropped. -/
theorem applied_of_nonneg_jumble : (∀ e ∈ jumble, 0 ≤ e.start ∧ 0 ≤ e.stop) ∧
    ∃ accepted skipped dropped, select jumble = ⟨accepted, skipped⟩ ∧
      accepted = [⟨2, 4, []⟩, ⟨4, 4, ['+']⟩, ⟨6, 8, ['!']⟩, ⟨8, 9, []⟩] ∧
      skipped = [⟨2, 4, []⟩, ⟨3, 5, ['-']⟩, ⟨5, 1, ['?']⟩] ∧
      (accepted ++ (skipped ++ dropped)).Perm jumble ∧ (∀ e ∈ dropped, e ∈ accepted) ∧
      applied? "abcdef".toList jumble = some "ab+ef".toList := by
  have hNonneg : ∀ e ∈ jumble, 0 ≤ e.start ∧ 0 ≤ e.stop := by decide
  have hSorted : sort jumble = [⟨2, 4, []⟩, ⟨2, 4, []⟩, ⟨3, 5, ['-']⟩, ⟨4, 4, ['+']⟩, ⟨4, 4, ['+']⟩,
      ⟨5, 1, ['?']⟩, ⟨6, 8, ['!']⟩, ⟨8, 9, []⟩] := by cbv
  have hParts : select jumble = ⟨[⟨2, 4, []⟩, ⟨4, 4, ['+']⟩, ⟨6, 8, ['!']⟩, ⟨8, 9, []⟩],
      [⟨2, 4, []⟩, ⟨3, 5, ['-']⟩, ⟨5, 1, ['?']⟩]⟩ := by
    rw [select, hSorted]
    decide
  obtain ⟨accepted, skipped, dropped, bytes, hSelect, -, -, -, hPerm, hDropped, hBytes, -, hApplied, -⟩ :=
    applied_of_nonneg "abcdef".toList jumble hNonneg
  obtain ⟨rfl, rfl⟩ := Selection.mk.inj (hParts.symm.trans hSelect)
  refine ⟨hNonneg, _, _, dropped, hParts, rfl, rfl, hPerm, hDropped, (hApplied _).2 ?_⟩
  rw [hBytes]
  decide

end TidySpace.Edit
