import TidySpace.Proofs.BlankEdits
import TidySpace.Proofs.Slices
import TidySpace.Proofs.Gaps

/-! # Gaps of an edited text

What becomes of the gap between two tokens that the edits keep. Only the edits inside the gap matter
(`gap_bytes`). If there are none, the gap is as it was, and so is whether its ends are on one line
(`slice_of_none`, `line_of_none`). If all of them put spaces at its ends, it is spaced afterwards
(`isSpaced_of_spaces`), and if all of them delete it, it is empty (`slice_of_deleted`).
-/

namespace TidySpace

open Utf8 (width encode)

namespace Edit

def space (x : Int) : Edit := ⟨x, x, [' ']⟩

/-- A text that ordered edits make of another one. -/
structure Makes (es : List Edit) (text fixed : List Char) : Prop where
  ordered : Ordered es
  within : Within (width text) es
  bytes : spliceAll es (encode text) = encode fixed

/-- Two tokens of a text that edits keep, one behind the other. -/
structure Beside (es : List Edit) (text : List Char) (left right : Token) : Prop where
  kept_left : Kept es left.start left.stop
  kept_right : Kept es right.start right.stop
  nonneg : 0 ≤ left.start
  gap : left.stop ≤ right.start
  inside : right.stop ≤ width text

def InGap (left right : Token) (e : Edit) : Prop := left.stop ≤ e.start ∧ e.stop ≤ right.start

instance (left right : Token) : DecidablePred (InGap left right) := fun e =>
  inferInstanceAs (Decidable (left.stop ≤ e.start ∧ e.stop ≤ right.start))

/-! ### Spaces -/

theorem back_space (n : Nat) (x : Int) : (space x).back n = space (x - n) := rfl

theorem splice_space (data : List UInt8) : splice (space 0) data = encode [' '] ++ data :=
  @splice_cut (space 0) [] [] data rfl rfl

theorem spliceAll_spaces {es : List Edit} (h : ∀ e ∈ es, e = space 0) (data : List UInt8) :
    spliceAll es data = encode (List.replicate es.length ' ') ++ data := by
  induction es with
  | nil => rfl
  | cons e es ih =>
    have ih := ih fun f hf => h f (List.mem_cons_of_mem e hf)
    rw [spliceAll] at ih
    rw [spliceAll, List.foldr_cons, ih, h e List.mem_cons_self, splice_space, ← List.append_assoc,
      ← Utf8.encode_append]
    rfl

theorem isBlank_space_zero (mid : List Char) : IsBlank mid (space 0) :=
  ⟨rfl, Or.inr ⟨[], ⟨[], mid, rfl, rfl, rfl⟩, rfl⟩⟩

theorem isBlank_space_width (mid : List Char) : IsBlank mid (space (width mid)) :=
  ⟨rfl, Or.inr ⟨[], ⟨mid, [], by simp, rfl, by simp [space]⟩, rfl⟩⟩

/-- Spaces at the ends of a gap make it spaced, and there is no need to know how many. -/
theorem isSpaced_of_ends {es : List Edit} {mid : List Char} (hOrdered : Ordered es) (hSome : es ≠ [])
    (hAll : ∀ e ∈ es, e = space 0 ∨ e = space (width mid)) :
    ∃ cs, spliceAll es (encode mid) = encode cs ∧ Gap.isSpaced cs = true := by
  obtain ⟨e, rest, rfl⟩ := List.exists_cons_of_ne_nil hSome
  have hBlank : ∀ f ∈ rest, f.IsBlank mid := fun f hf => by
    rcases hAll f (List.mem_cons_of_mem e hf) with rfl | rfl
    · exact isBlank_space_zero mid
    · exact isBlank_space_width mid
  by_cases he : e = space 0
  · -- The first space stands before everything else.
    subst he
    obtain ⟨cs, hCs, -⟩ := spliceAll_blank hOrdered.tail hBlank
    refine ⟨' ' :: cs, ?_, Gap.isSpaced_space_append cs⟩
    rw [spliceAll, List.foldr_cons, ← spliceAll, hCs, splice_space, ← Utf8.encode_append]
    rfl
  · -- All spaces stand behind the gap.
    have hHead : e = space (width mid) := (hAll e List.mem_cons_self).resolve_left he
    have hEnd : ∀ f ∈ e :: rest, f = space (width mid) := by
      intro f hf
      rcases List.mem_cons.1 hf with rfl | hRest
      · exact hHead
      · rcases hAll f hf with rfl | hf'
        · have hLe : (width mid : Int) ≤ 0 := by
            have := hOrdered.head_le _ hRest
            rwa [hHead] at this
          rw [show width mid = 0 by omega]
          rfl
        · exact hf'
    have hFront := @spliceAll_front (e :: rest) (encode mid) [] hOrdered.forward fun f hf => by
      rw [hEnd f hf]
      exact Int.le_refl _
    have hBack : ∀ f ∈ (e :: rest).map (back (encode mid).length), f = space 0 := by
      refine List.forall_mem_map.2 fun f hf => ?_
      rw [hEnd f hf, back_space, Utf8.width, Int.sub_self]
    rw [List.append_nil, spliceAll_spaces hBack, List.append_nil, ← Utf8.encode_append,
      List.length_map, List.length_cons, List.replicate_succ', ← List.append_assoc] at hFront
    exact ⟨_, hFront, Gap.isSpaced_append_space _⟩

/-! ### Gaps -/

theorem Beside.length_gap {es : List Edit} {text : List Char} {left right : Token}
    (hBeside : Beside es text left right) :
    ((slice (encode text) left.stop right.start).length : Int) = right.start - left.stop := by
  have hLeft := hBeside.kept_left.lt
  have hRight := hBeside.kept_right.lt
  have hNonneg := hBeside.nonneg
  have hInside : right.stop ≤ (encode text).length := hBeside.inside
  exact length_slice (by omega) hBeside.gap (by omega)

namespace Makes

variable {es : List Edit} {text fixed : List Char} {left right : Token} (h : Makes es text fixed)
  (hBeside : Beside es text left right)
include h hBeside

/-- **The gap of two kept tokens** is what the edits inside it make of it. -/
theorem gap_bytes : slice (encode fixed) (moveStop es left.stop) (moveStart es right.start) =
    spliceAll ((es.filter (InGap left right)).map (back left.stop.toNat))
      (slice (encode text) left.stop right.start) := by
  rw [← h.bytes]
  exact slice_gap h.ordered h.within hBeside.kept_left hBeside.kept_right hBeside.nonneg hBeside.gap
    hBeside.inside

omit hBeside in
theorem ordered_gap : Ordered ((es.filter (InGap left right)).map (back left.stop.toNat)) :=
  (h.ordered.sublist List.filter_sublist).map_back _

theorem bytes_of_none (hNone : ∀ e ∈ es, ¬ InGap left right e) :
    slice (encode fixed) (moveStop es left.stop) (moveStart es right.start) =
      slice (encode text) left.stop right.start := by
  rw [h.gap_bytes hBeside, List.filter_eq_nil_iff.2 fun e he => by simpa using hNone e he]
  rfl

/-- **A gap without edits keeps its text.** -/
theorem slice_of_none (hNone : ∀ e ∈ es, ¬ InGap left right e) :
    (Buffer.ofText fixed).slice (moveStop es left.stop) (moveStart es right.start) =
      (Buffer.ofText text).slice left.stop right.start :=
  congrArg Utf8.decodeReplacing (h.bytes_of_none hBeside hNone)

end Makes

theorem position_line_eq_iff {text : List Char} {front gap back : List UInt8} {c : UInt8} {x y : Int}
    (hText : encode text = front ++ (gap ++ c :: back)) (hx : x = front.length)
    (hy : y = front.length + gap.length) :
    ((Buffer.ofText text).position x).line = ((Buffer.ofText text).position y).line ↔
      ∀ i, i < gap.length → ¬ Text.EndsLine (gap ++ [c]) i := by
  rw [← Buffer.lineAt_eq_iff_of_cut hText]
  have hLength := congrArg List.length hText
  rw [List.length_append, List.length_append, List.length_cons] at hLength
  have hClamp : ∀ z : Nat, z ≤ (encode text).length → (Buffer.ofText text).clamp z = z := by
    intro z hz
    show (min (z : Int) (encode text).length).toNat = z
    omega
  have hx' : (Buffer.ofText text).clamp x = front.length := by
    rw [hx]
    exact hClamp _ (by omega)
  have hy' : (Buffer.ofText text).clamp y = front.length + gap.length := by
    rw [hy, ← Int.natCast_add]
    exact hClamp _ (by omega)
  show (Buffer.ofText text).lineAt _ = (Buffer.ofText text).lineAt _ ↔ _
  rw [hx', hy']

namespace Makes

variable {es : List Edit} {text fixed : List Char} {left right : Token} (h : Makes es text fixed)
  (hBeside : Beside es text left right)
include h hBeside

/-- **A gap without edits keeps whether its ends are on one line.** The byte behind it, on which this
depends too, is the first one of a kept token. -/
theorem line_of_none (hNone : ∀ e ∈ es, ¬ InGap left right e) :
    ((Buffer.ofText fixed).position (moveStop es left.stop)).line =
        ((Buffer.ofText fixed).position (moveStart es right.start)).line ↔
      ((Buffer.ofText text).position left.stop).line =
        ((Buffer.ofText text).position right.start).line := by
  have hGap := h.bytes_of_none hBeside hNone
  have hLeft := hBeside.kept_left.lt
  have hRight := hBeside.kept_right.lt
  have hNonneg := hBeside.nonneg
  have hToken : slice (encode fixed) (moveStart es right.start) (moveStop es right.stop) =
      slice (encode text) right.start right.stop := by
    rw [← h.bytes]
    exact slice_kept h.ordered h.within hBeside.kept_right (by have := hBeside.gap; omega) hBeside.inside
  obtain ⟨front, back, hText, hFront, hEnd⟩ := exists_slice_slice (encode text)
    (x := left.stop) (by omega) hBeside.gap (Int.le_of_lt hRight) hBeside.inside
  have hLength : ((slice (encode text) right.start right.stop).length : Int) = _ :=
    length_slice (by have := hBeside.gap; omega) (Int.le_of_lt hRight) hBeside.inside
  -- The moved offsets are in order and inside the edited text.
  have hMoved := hBeside.kept_right.moveStop_eq h.ordered
  have hStart0 : ∀ e ∈ es, 0 ≤ e.start := fun e he => (h.within e he).1
  have hLeftStop := moveStop_nonneg h.ordered hStart0 hBeside.kept_left.clear_stop (by omega)
  have hOrder : moveStop es left.stop ≤ moveStart es right.start :=
    Int.le_trans (moveStop_le_moveStart h.ordered hBeside.kept_left.clear_stop)
      (moveStart_mono h.ordered hBeside.kept_left.clear_stop hBeside.gap)
  have hInside : moveStop es right.stop ≤ (encode fixed).length := by
    refine le_length_of_slice (Int.le_trans hLeftStop hOrder) (by omega) ?_
    rw [hToken]
    omega
  obtain ⟨front', back', hText', hFront', hEnd'⟩ := exists_slice_slice (encode fixed)
    hLeftStop hOrder (by omega) hInside
  rw [hGap, hToken] at hText'
  rw [hGap] at hEnd'
  generalize slice (encode text) left.stop right.start = gap at hText hText' hEnd hEnd'
  obtain ⟨c, token, hCons⟩ : ∃ c token, slice (encode text) right.start right.stop = c :: token := by
    refine List.exists_cons_of_ne_nil fun hNil => ?_
    rw [hNil, List.length_nil] at hLength
    omega
  rw [hCons] at hText hText'
  rw [position_line_eq_iff hText hFront hEnd, position_line_eq_iff hText' hFront' hEnd']

/-- **A gap with spaces put at its ends is spaced.** -/
theorem isSpaced_of_spaces {mid : List Char}
    (hMid : slice (encode text) left.stop right.start = encode mid)
    (hAll : ∀ e ∈ es, InGap left right e → e = space left.stop ∨ e = space right.start)
    (hSome : ∃ e ∈ es, InGap left right e) :
    Gap.isSpaced ((Buffer.ofText fixed).slice (moveStop es left.stop) (moveStart es right.start)) =
      true := by
  have hLeft := hBeside.kept_left.lt
  have hNonneg := hBeside.nonneg
  have hWidth := hBeside.length_gap
  rw [hMid, ← Utf8.width] at hWidth
  have hEnds : ∀ e ∈ (es.filter (InGap left right)).map (back left.stop.toNat),
      e = space 0 ∨ e = space (width mid) := by
    refine List.forall_mem_map.2 fun e he => ?_
    rw [List.mem_filter, decide_eq_true_eq] at he
    rcases hAll e he.1 he.2 with rfl | rfl
    · rw [back_space, show left.stop - left.stop.toNat = 0 by omega]
      exact Or.inl rfl
    · rw [back_space, show right.start - left.stop.toNat = width mid by omega]
      exact Or.inr rfl
  have hNonempty : (es.filter (InGap left right)).map (back left.stop.toNat) ≠ [] := by
    obtain ⟨e, he, hIn⟩ := hSome
    exact List.ne_nil_of_mem (List.mem_map_of_mem (List.mem_filter.2 ⟨he, decide_eq_true hIn⟩))
  obtain ⟨cs, hCs, hSpaced⟩ := isSpaced_of_ends h.ordered_gap hNonempty hEnds
  have hBytes := h.gap_bytes hBeside
  rw [hMid, hCs] at hBytes
  show Gap.isSpaced (Utf8.decodeReplacing (slice (encode fixed) _ _)) = true
  rw [hBytes, Utf8.decodeReplacing_encode]
  exact hSpaced

/-- **A gap that is deleted is empty.** -/
theorem slice_of_deleted (hLt : left.stop < right.start)
    (hAll : ∀ e ∈ es, InGap left right e → e = ⟨left.stop, right.start, []⟩)
    (hSome : ∃ e ∈ es, InGap left right e) :
    (Buffer.ofText fixed).slice (moveStop es left.stop) (moveStart es right.start) = [] := by
  have hLeft := hBeside.kept_left.lt
  have hNonneg := hBeside.nonneg
  have hLength := hBeside.length_gap
  have hBytes := h.gap_bytes hBeside
  have hOrdered : Ordered ((es.filter (InGap left right)).map (back left.stop.toNat)) := h.ordered_gap
  generalize slice (encode text) left.stop right.start = gap at hLength hBytes
  have hWhole : ∀ e ∈ (es.filter (InGap left right)).map (back left.stop.toNat),
      e = ⟨0, gap.length, []⟩ := by
    refine List.forall_mem_map.2 fun e he => ?_
    rw [List.mem_filter, decide_eq_true_eq] at he
    rw [hAll e he.1 he.2, back, show left.stop - left.stop.toNat = 0 by omega,
      show right.start - left.stop.toNat = gap.length by omega]
  obtain ⟨f, hf, hIn⟩ := hSome
  have hMem : f.back left.stop.toNat ∈ (es.filter (InGap left right)).map (back left.stop.toNat) :=
    List.mem_map_of_mem (List.mem_filter.2 ⟨hf, decide_eq_true hIn⟩)
  generalize (es.filter (InGap left right)).map (back left.stop.toNat) = fs at *
  -- The gap is not empty, so it is deleted once.
  obtain rfl : fs = [⟨0, gap.length, []⟩] := by
    cases fs with
    | nil => exact absurd hMem List.not_mem_nil
    | cons e rest =>
      rw [List.forall_mem_cons] at hWhole
      obtain ⟨rfl, hRest⟩ := hWhole
      cases rest with
      | nil => rfl
      | cons g rest =>
        have := hOrdered.head_le g List.mem_cons_self
        rw [hRest g List.mem_cons_self] at this
        dsimp only at this
        omega
  have hCut := @splice_cut ⟨0, gap.length, []⟩ [] gap [] rfl (Int.zero_add _).symm
  rw [List.nil_append, List.append_nil] at hCut
  show Utf8.decodeReplacing (slice (encode fixed) _ _) = []
  rw [hBytes, spliceAll, List.foldr_cons, List.foldr_nil, hCut]
  exact Utf8.decodeReplacing_encode []

end Makes

end Edit

end TidySpace
