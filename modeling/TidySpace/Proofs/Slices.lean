import TidySpace.Proofs.Utf8
import TidySpace.Source

/-! # Cutting sequences at signed bounds

Bounds that are counts cut like `take` and `drop`. A bound behind a front part cuts what is behind
it. A slice between bounds that do not cross is what stands between a front part and a back part
(`slice_append`, `exists_slice`).

Between boundaries of characters a slice of a buffer is the text that stands there
(`Buffer.slice_of_cut`). A slice of any offsets whose reading replaced nothing stands in the text as it
was read, and begins at a boundary (`Buffer.cut_of_slice`); so what was read off a buffer can be trusted
whoever chose the offsets.
-/

namespace TidySpace

variable {α : Type}

/-! ### Bounds that are counts -/

@[simp] theorem takeTo_natCast (xs : List α) (n : Nat) : takeTo xs (n : Int) = xs.take n := by
  rw [takeTo, clampIndex_natCast, ← List.take_eq_take_min]

@[simp] theorem dropTo_natCast (xs : List α) (n : Nat) : dropTo xs (n : Int) = xs.drop n := by
  rw [dropTo, clampIndex_natCast]
  by_cases h : n ≤ xs.length
  · rw [Nat.min_eq_left h]
  · rw [Nat.min_eq_right (by omega), List.drop_length, List.drop_eq_nil_of_le (by omega)]

theorem slice_natCast (xs : List α) (a b : Nat) :
    slice xs (a : Int) (b : Int) =
      (xs.drop (min a xs.length)).take (min b xs.length - min a xs.length) := by
  rw [slice, clampIndex_natCast, clampIndex_natCast, List.extract_eq_take_drop]

/-! ### Bounds behind a front part -/

theorem clampIndex_add {n m : Nat} {i : Int} (h : (m : Int) ≤ i) :
    clampIndex (m + n) i = m + clampIndex n (i - m) := by
  unfold clampIndex
  rw [if_neg (by omega), if_neg (by omega)]
  omega

theorem takeTo_append {front xs : List α} {i : Int} (h : (front.length : Int) ≤ i) :
    takeTo (front ++ xs) i = front ++ takeTo xs (i - front.length) := by
  rw [takeTo, takeTo, List.length_append, clampIndex_add h, List.take_length_add_append]

theorem dropTo_append {front xs : List α} {i : Int} (h : (front.length : Int) ≤ i) :
    dropTo (front ++ xs) i = dropTo xs (i - front.length) := by
  rw [dropTo, dropTo, List.length_append, clampIndex_add h, List.drop_length_add_append]

/-! ### Slices -/

theorem slice_append {front mid back : List α} {x y : Int} (hx : x = front.length)
    (hy : y = front.length + mid.length) : slice (front ++ (mid ++ back)) x y = mid := by
  have hy' : y = ((front.length + mid.length : Nat) : Int) := by omega
  rw [hx, hy', slice_natCast, List.length_append, List.length_append, Nat.min_eq_left (by omega),
    Nat.min_eq_left (by omega), List.drop_left, Nat.add_sub_cancel_left, List.take_left]

theorem exists_slice (xs : List α) {x y : Int} (hx : 0 ≤ x) (hxy : x ≤ y) (hy : y ≤ xs.length) :
    ∃ front back, xs = front ++ (slice xs x y ++ back) ∧ x = front.length ∧
      y = front.length + (slice xs x y).length := by
  obtain ⟨a, rfl⟩ := Int.eq_ofNat_of_zero_le hx
  obtain ⟨b, rfl⟩ := Int.eq_ofNat_of_zero_le (Int.le_trans hx hxy)
  rw [slice_natCast, Nat.min_eq_left (by omega), Nat.min_eq_left (by omega)]
  refine ⟨xs.take a, (xs.drop a).drop (b - a), ?_, ?_, ?_⟩
  · rw [List.take_append_drop, List.take_append_drop]
  · rw [List.length_take]
    omega
  · rw [List.length_take, List.length_take, List.length_drop]
    omega

theorem length_slice {xs : List α} {x y : Int} (hx : 0 ≤ x) (hxy : x ≤ y) (hy : y ≤ xs.length) :
    ((slice xs x y).length : Int) = y - x := by
  obtain ⟨front, back, -, hStart, hStop⟩ := exists_slice xs hx hxy hy
  omega

theorem exists_slice_slice (xs : List α) {x y z : Int} (hx : 0 ≤ x) (hxy : x ≤ y) (hyz : y ≤ z)
    (hz : z ≤ xs.length) :
    ∃ front back, xs = front ++ (slice xs x y ++ (slice xs y z ++ back)) ∧ x = front.length ∧
      y = front.length + (slice xs x y).length := by
  obtain ⟨front, rest, hFront, hStart, hStop⟩ := exists_slice xs hx hxy (Int.le_trans hyz hz)
  obtain ⟨front', back, hBack, hStart', -⟩ := exists_slice xs (Int.le_trans hx hxy) hyz hz
  refine ⟨front, back, ?_, hStart, hStop⟩
  have hEq : front ++ slice xs x y ++ rest = front' ++ (slice xs y z ++ back) := by
    rw [List.append_assoc, ← hFront, ← hBack]
  obtain ⟨-, hRest⟩ := List.append_inj hEq (by rw [List.length_append]; omega)
  rw [← hRest]
  exact hFront

theorem le_length_of_slice {xs : List α} {x y : Int} (hx : 0 ≤ x) (hxy : x < y)
    (h : ((slice xs x y).length : Int) = y - x) : y ≤ xs.length := by
  obtain ⟨a, rfl⟩ := Int.eq_ofNat_of_zero_le hx
  obtain ⟨b, rfl⟩ := Int.eq_ofNat_of_zero_le (Int.le_of_lt (Int.lt_of_le_of_lt hx hxy))
  rw [slice_natCast, List.length_take, List.length_drop] at h
  omega

theorem exists_slice_of_ne_nil {xs : List α} {a b : Nat} (h : slice xs a b ≠ []) :
    ∃ front back, xs = front ++ (slice xs a b ++ back) ∧ a = front.length ∧
      min b xs.length = front.length + (slice xs a b).length := by
  have hEq : slice xs a b = slice xs (min a xs.length : Nat) (min b xs.length : Nat) := by
    rw [slice_natCast, slice_natCast, Nat.min_assoc, Nat.min_assoc, Nat.min_self]
  have hLt : min a xs.length < min b xs.length := by
    rw [slice_natCast] at h
    refine Nat.lt_of_not_le fun hLe => h ?_
    rw [Nat.sub_eq_zero_of_le hLe, List.take_zero]
  rw [hEq]
  obtain ⟨front, back, hXs, hFront, hSlice⟩ :=
    exists_slice xs (x := (min a xs.length : Nat)) (y := (min b xs.length : Nat)) (by omega)
      (by omega) (by omega)
  exact ⟨front, back, hXs, by omega, by omega⟩

/-! ### Slices of a buffer -/

namespace Buffer

theorem slice_of_cut {pre mid post : List Char} {x y : Int} (hx : x = Utf8.width pre)
    (hy : y = Utf8.width pre + Utf8.width mid) :
    (ofText (pre ++ (mid ++ post))).slice x y = mid := by
  rw [Buffer.slice, ofText]
  dsimp only
  rw [Utf8.encode_append, Utf8.encode_append, slice_append hx hy, Utf8.decodeReplacing_encode]

theorem exists_cut {text : List Char} {x y : Nat} (hx : Utf8.IsBoundary text x)
    (hy : Utf8.IsBoundary text y) (hLe : x ≤ y) :
    ∃ pre post, text = pre ++ ((ofText text).slice x y ++ post) ∧ x = Utf8.width pre ∧
      y = Utf8.width pre + Utf8.width ((ofText text).slice x y) := by
  obtain ⟨pre, rest, rfl, rfl⟩ := Utf8.isBoundary_iff.1 hx
  obtain ⟨front, post, hText, rfl⟩ := Utf8.isBoundary_iff.1 hy
  obtain ⟨mid, rfl, rfl⟩ := Utf8.exists_between hText hLe
  rw [slice_of_cut rfl (by rw [Utf8.width_append, Int.natCast_add])]
  exact ⟨pre, post, rfl, rfl, Utf8.width_append ..⟩

/-- **A slice in whose reading nothing was replaced** stands in the text as it was read. -/
theorem cut_of_slice {text cs : List Char} {a b : Nat} (h : (ofText text).slice a b = cs)
    (hNonempty : cs ≠ []) (hPlain : Char.ofNat 0xFFFD ∉ cs) :
    ∃ pre post, text = pre ++ (cs ++ post) ∧ a = Utf8.width pre ∧
      min b (Utf8.width text) = Utf8.width pre + Utf8.width cs := by
  have hBytes : TidySpace.slice (Utf8.encode text) a b = Utf8.encode cs :=
    Utf8.eq_encode_of_decodeReplacing h hPlain
  obtain ⟨c, cs, rfl⟩ := List.exists_cons_of_ne_nil hNonempty
  have hSome : TidySpace.slice (Utf8.encode text) a b ≠ [] := by
    have := Utf8.length_encodeChar_pos c
    rw [hBytes, Utf8.encode_cons]
    intro hNil
    rw [(List.append_eq_nil_iff.1 hNil).1] at this
    simp at this
  obtain ⟨front, back, hData, hStart, hStop⟩ := exists_slice_of_ne_nil hSome
  rw [hBytes] at hData hStop
  obtain ⟨pre, post, rfl, rfl, -⟩ := Utf8.cut_of_encode hData
  exact ⟨pre, post, rfl, hStart, hStop⟩

end Buffer

end TidySpace
