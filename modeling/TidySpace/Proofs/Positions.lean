import TidySpace.Proofs.Slices
import TidySpace.Proofs.Gaps
import TidySpace.Proofs.Lines

/-! # Offsets and positions

An offset stands on a line, among the characters of that line and of its end (`Spot`). From the spot
both directions can be read off: its line is the number of lines before it and one more, its column
the number of characters before it and one more (`Spot.position_eq`); and the offset of a line and
column is where so many characters of the line's content stop (`offset_of_pieces`). An offset that
cuts a character counts as the one where this character begins, and the offset between the two
characters of a line end as the one before both. All other offsets are *stops*; for them the two
directions are inverse to each other (`position_offset`).
-/

namespace TidySpace.Buffer

open Text (LineEnd joined pieces place)
open Utf8 (width encode encodeChar)

/-- An offset that cuts no character and does not stand inside a line end of two characters. -/
structure IsStop (text : List Char) (k : Nat) : Prop where
  boundary : Utf8.IsBoundary text k
  unpaired : ∀ pre post, text = pre ++ '\r' :: '\n' :: post → k ≠ width pre + 1

def IsLastStop (text : List Char) (x : Int) (k : Nat) : Prop :=
  IsStop text k ∧ (k : Int) ≤ x ∧ ∀ j, IsStop text j → (j : Int) ≤ x → j ≤ k

/-- An offset on a line: the lines before it, the line itself with its characters before and behind
the offset, those of its end included, and the lines that follow. A character that the offset cuts
counts as behind it. -/
structure Spot (text : List Char) (k : Nat) (front : List (List Char × LineEnd))
    (line : List Char × LineEnd) (rest : List (List Char × LineEnd)) (before after : List Char) :
    Prop where
  pieces : pieces text = front ++ line :: rest
  chars : line.1 ++ line.2.chars = before ++ after
  le : width (joined front) + width before ≤ k
  lt : ∀ c cs, after = c :: cs → k < width (joined front) + width before + (encodeChar c).length
  last : after = [] → rest = [] ∧ k = width (joined front) + width before

section Lines

variable {text : List Char} {front rest ps : List (List Char × LineEnd)} {line : List Char × LineEnd}

theorem exists_line {k : Nat} (hSome : ps ≠ []) (h : k ≤ width (joined ps)) :
    ∃ front line rest, ps = front ++ line :: rest ∧ width (joined front) ≤ k ∧
      k ≤ width (joined front) + width (line.1 ++ line.2.chars) ∧
      (k = width (joined front) + width (line.1 ++ line.2.chars) → rest = []) := by
  induction ps generalizing k with
  | nil => exact absurd rfl hSome
  | cons p ps ih =>
    by_cases hHere : k < width (p.1 ++ p.2.chars) ∨ ps = []
    · refine ⟨[], p, ps, rfl, Nat.zero_le _, ?_, ?_⟩
      · rcases hHere with hLt | rfl
        · simp only [joined, List.flatMap_nil, Utf8.width_nil]
          omega
        · simpa using h
      · intro hEq
        rcases hHere with hLt | hNil
        · simp only [joined, List.flatMap_nil, Utf8.width_nil] at hEq
          omega
        · exact hNil
    · rw [not_or] at hHere
      simp only [Text.joined_cons, Utf8.width_append] at h hHere
      obtain ⟨front, line, rest, rfl, hLe, hStop, hLast⟩ :=
        @ih (k - width (p.1 ++ p.2.chars)) hHere.2 (by rw [Utf8.width_append]; omega)
      simp only [Utf8.width_append] at hLe hStop hLast
      refine ⟨p :: front, line, rest, rfl, ?_, ?_, ?_⟩
      · simp only [Text.joined_cons, Utf8.width_append]
        omega
      · simp only [Text.joined_cons, Utf8.width_append]
        omega
      · intro hEq
        simp only [Text.joined_cons, Utf8.width_append] at hEq
        exact hLast (by omega)

theorem exists_spot {k : Nat} (h : k ≤ width text) :
    ∃ front line rest before after, Spot text k front line rest before after := by
  have hSome : pieces text ≠ [] := by
    obtain ⟨front, last, hEq, -⟩ := Text.pieces_eq text
    simp [hEq]
  obtain ⟨front, line, rest, hPieces, hLe, hStop, hLast⟩ :=
    exists_line (k := k) hSome (by rwa [Text.joined_pieces])
  have hInside : k - width (joined front) ≤ width (line.1 ++ line.2.chars) := by omega
  obtain ⟨before, after, hChars, hBefore, hAfter, hEnd⟩ := Utf8.exists_before hInside
  refine ⟨front, line, rest, before, after, hPieces, hChars, by omega, ?_, ?_⟩
  · intro c cs hEq
    have := hAfter c cs hEq
    omega
  · intro hNil
    have := hEnd hNil
    rw [hChars, hNil, List.append_nil] at hLast
    exact ⟨hLast (by omega), by omega⟩

theorem countP_place {number start k : Nat} (hLe : start + width (joined front) ≤ k)
    (hLt : rest ≠ [] → k < start + width (joined front) + width (line.1 ++ line.2.chars)) :
    ((place number start (front ++ line :: rest)).map Text.Line.start).countP (· ≤ k) =
      front.length + 1 := by
  induction front generalizing number start with
  | nil =>
    have hNone : ((place (number + 1) (start + width line.1 + line.2.chars.length) rest).map
        Text.Line.start).countP (· ≤ k) = 0 := by
      rw [List.countP_eq_zero]
      intro x hx
      obtain ⟨l, hl, rfl⟩ := List.mem_map.1 hx
      obtain ⟨before, after, hRest, hStart, -⟩ := Text.mem_place hl
      have := hLt (by rw [hRest]; simp)
      simp only [joined, List.flatMap_nil, Utf8.width_nil, Utf8.width_append, Text.width_chars] at this
      simp only [decide_eq_true_eq]
      omega
    have hHere : start ≤ k := by simpa [joined] using hLe
    rw [List.nil_append, place, List.map_cons, List.countP_cons_of_pos (by simpa using hHere), hNone]
    rfl
  | cons p front ih =>
    simp only [Text.joined_cons, Utf8.width_append, Text.width_chars] at hLe hLt
    rw [List.cons_append, place, List.map_cons, List.countP_cons_of_pos (by simp; omega), ih]
    · rfl
    · omega
    · intro hSome
      have := hLt hSome
      simp only [Utf8.width_append, Text.width_chars]
      omega

variable (h : pieces text = front ++ line :: rest)
include h

theorem getElem?_split :
    (Text.split text)[front.length]? =
      some ⟨front.length + 1, line.1, width (joined front), line.2⟩ := by
  have hPlace : ∀ number start, (place number start (front ++ line :: rest))[front.length]? =
      some ⟨number + front.length, line.1, start + width (joined front), line.2⟩ := by
    clear h
    induction front with
    | nil => intro number start; rfl
    | cons p front ih =>
      intro number start
      rw [List.cons_append, place, List.length_cons, List.getElem?_cons_succ, ih, Text.joined_cons,
        Utf8.width_append, Utf8.width_append, Text.width_chars]
      simp only [Option.some.injEq, Text.Line.mk.injEq, true_and, and_true]
      omega
  rw [Text.split, h, hPlace, Nat.add_comm 1, Nat.zero_add]

theorem getD_lineStarts : (ofText text).lineStarts.getD front.length 0 = width (joined front) := by
  show (Text.lineStarts (encode text)).getD front.length 0 = _
  rw [Text.lineStarts_encode, List.getD_eq_getElem?_getD, List.getElem?_map, getElem?_split h]
  rfl

theorem getD_lines : (ofText text).lines.getD front.length [] = line.1 := by
  show ((Text.split text).map Text.Line.content).getD front.length [] = _
  rw [List.getD_eq_getElem?_getD, List.getElem?_map, getElem?_split h]
  rfl

theorem length_lt_lineStarts : front.length < (ofText text).lineStarts.length := by
  show _ < (Text.lineStarts (encode text)).length
  rw [Text.lineStarts_encode, List.length_map]
  exact (List.getElem?_eq_some_iff.1 (getElem?_split h)).1

/-- **The offset of a line and column** is where the characters of the line before the column stop. -/
theorem offset_of_pieces (n : Nat) :
    (ofText text).offset ((front.length : Int) + 1) ((n : Int) + 1) =
      width (joined front) + width (line.1.take n) := by
  have hLines := length_lt_lineStarts h
  have hIndex : ((front.length : Int) + 1 - 1).toNat = front.length := by omega
  have hColumn : ((n : Int) + 1 - 1).toNat = n := by omega
  rw [offset, if_neg (by omega), if_neg (by omega)]
  simp only [hIndex, hColumn, getD_lineStarts h, getD_lines h]

end Lines

theorem clamp_of_le {text : List Char} {k : Nat} (h : k ≤ width text) :
    (ofText text).clamp k = k := by
  show (min (k : Int) (encode text).length).toNat = k
  rw [← Utf8.width]
  omega

namespace Spot

variable {text : List Char} {k : Nat} {front rest : List (List Char × LineEnd)}
  {line : List Char × LineEnd} {before after : List Char}
  (h : Spot text k front line rest before after)
include h

theorem text_eq : text = joined front ++ (before ++ (after ++ joined rest)) := by
  rw [← Text.joined_pieces text, h.pieces, Text.joined_append, Text.joined_cons,
    ← List.append_assoc line.1, h.chars, List.append_assoc]

theorem le_width : k ≤ width text := by
  have hLe := h.le
  have hText := h.text_eq
  cases hAfter : after with
  | nil =>
    have := (h.last hAfter).2
    rw [hText]
    simp only [Utf8.width_append]
    omega
  | cons c cs =>
    have := h.lt c cs hAfter
    rw [hText, hAfter]
    simp only [Utf8.width_append, List.cons_append, Utf8.width_cons]
    omega

theorem lineAt_eq : (ofText text).lineAt k = front.length + 1 := by
  show (Text.lineStarts (encode text)).countP _ = _
  rw [Text.lineStarts_encode, Text.split, h.pieces]
  refine countP_place (by have := h.le; omega) fun hSome => ?_
  rw [h.chars, Nat.zero_add, Utf8.width_append]
  cases hAfter : after with
  | nil => exact absurd (h.last hAfter).1 hSome
  | cons c cs =>
    have := h.lt c cs hAfter
    rw [Utf8.width_cons]
    omega

theorem decodeSkipping_eq :
    Utf8.decodeSkipping ((encode text).extract (width (joined front)) k) = before := by
  have hLe := h.le
  have hDrop : (encode text).drop (width (joined front)) =
      encode before ++ encode (after ++ joined rest) := by
    rw [h.text_eq, Utf8.encode_append, Utf8.encode_append]
    exact List.drop_left
  have hSkip : ∃ bytes, (encode text).extract (width (joined front)) k = encode before ++ bytes ∧
      Utf8.decodeSkipping bytes = [] := by
    rw [List.extract_eq_take_drop, hDrop, List.take_append,
      List.take_of_length_le (by rw [← width]; omega)]
    refine ⟨_, rfl, ?_⟩
    rw [← width]
    cases hAfter : after with
    | nil =>
      have := (h.last hAfter).2
      rw [show k - width (joined front) - width before = 0 by omega, List.take_zero]
      exact Utf8.decodeSkipping_of_continuation (by simp)
    | cons c cs =>
      have := h.lt c cs hAfter
      rw [List.cons_append, Utf8.encode_cons, List.take_append_of_le_length (by omega)]
      exact Utf8.decodeSkipping_take (by omega)
  obtain ⟨bytes, hBytes, hNone⟩ := hSkip
  rw [hBytes, Utf8.decodeSkipping_encode_append, hNone, List.append_nil]

/-- **The position of an offset** is how many lines and characters of its line stand before it. -/
theorem position_eq : (ofText text).position k = ⟨front.length + 1, before.length + 1⟩ := by
  rw [position, clamp_of_le h.le_width]
  simp only [h.lineAt_eq, Nat.add_sub_cancel, getD_lineStarts h.pieces]
  show Position.mk _ ((Utf8.decodeSkipping ((encode text).extract _ _)).length + 1) = _
  rw [h.decodeSkipping_eq]

end Spot

/-! ### Stops -/

section Stops

variable {text : List Char} {k : Nat} {front rest : List (List Char × LineEnd)}
  {line : List Char × LineEnd} {before after : List Char}

/-- A line begins behind the byte that ends the line before it, so not inside a line end. -/
theorem not_paired_of_front (h : pieces text = front ++ line :: rest) (pre post : List Char)
    (hText : text = pre ++ '\r' :: '\n' :: post) : width (joined front) ≠ width pre + 1 := by
  intro hWidth
  have hStart : width (joined front) ∈ Text.lineStarts (encode text) := by
    rw [Text.lineStarts_encode]
    exact List.mem_map.2 ⟨_, List.mem_of_getElem? (getElem?_split h), rfl⟩
  rcases List.mem_cons.1 hStart with hZero | hBreak
  · omega
  · obtain ⟨i, hi, hEnds⟩ := Text.mem_breakEnds.1 hBreak
    obtain rfl : i = (encode pre).length + 0 := by
      rw [← width]
      omega
    rw [hText, Utf8.encode_append, Text.endsLine_append] at hEnds
    rcases hEnds with hFeed | ⟨-, hNext⟩
    · cases hFeed
    · exact hNext rfl

/-- **Every place in a line's content is a stop.** -/
theorem isStop_of_pieces (h : pieces text = front ++ line :: rest) (n : Nat) :
    IsStop text (width (joined front) + width (line.1.take n)) := by
  have hText : text = joined front ++ line.1.take n ++
      (line.1.drop n ++ (line.2.chars ++ joined rest)) := by
    rw [List.append_assoc, ← List.append_assoc (line.1.take n), List.take_append_drop,
      ← Text.joined_cons, ← Text.joined_append, ← h, Text.joined_pieces]
  refine ⟨Utf8.isBoundary_iff.2 ⟨_, _, hText, Utf8.width_append ..⟩, ?_⟩
  intro pre post hPair hWidth
  by_cases hNil : line.1.take n = []
  · rw [hNil, Utf8.width_nil] at hWidth
    exact not_paired_of_front h pre post hPair hWidth
  · -- The character before the place would be a carriage return of the content.
    obtain ⟨init, c, hTake⟩ := (List.eq_nil_or_concat _).resolve_left hNil
    rw [List.concat_eq_append] at hTake
    have hSplit : pre ++ ['\r'] ++ ('\n' :: post) =
        joined front ++ line.1.take n ++ (line.1.drop n ++ (line.2.chars ++ joined rest)) := by
      rw [← hText, hPair, List.append_assoc]
      rfl
    have hWidth' : width (pre ++ ['\r']) = width (joined front ++ line.1.take n) := by
      rw [Utf8.width_append, Utf8.width_append]
      exact hWidth.symm
    obtain ⟨mid, hMid, -⟩ := Utf8.exists_between hSplit (Nat.le_of_eq hWidth')
    obtain rfl : mid = [] := by
      refine Utf8.eq_nil_of_width ?_
      rw [hMid, Utf8.width_append (pre ++ ['\r'])] at hWidth'
      omega
    rw [List.append_nil, hTake, ← List.append_assoc] at hMid
    have hReturn : '\r' ∈ line.1 := by
      have hLast : c = '\r' := by simpa using (List.append_inj' hMid rfl).2
      refine List.mem_of_mem_take (i := n) ?_
      rw [hTake, hLast]
      simp
    have hMem : line ∈ pieces text := by
      rw [h]
      simp
    exact (Text.plain_of_mem_pieces hMem).1 hReturn

theorem chars_eq_nil_of_last (h : pieces text = front ++ [line]) : line.2.chars = [] := by
  obtain ⟨lines, last, hEq, -⟩ := Text.pieces_eq text
  obtain ⟨-, hLast⟩ := List.append_inj' (h.symm.trans hEq) rfl
  rw [(List.cons.inj hLast).1]
  rfl

namespace Spot

variable (h : Spot text k front line rest before after)
include h

/-- What stands before an offset on its line is a part of the content, or the offset is inside the
line end. -/
theorem before_cases : before = line.1.take before.length ∨
    before = line.1 ++ ['\r'] ∧ after = ['\n'] := by
  rcases List.append_eq_append_iff.1 h.chars with ⟨cut, rfl, hChars⟩ | ⟨cut, hLine, -⟩
  · cases cut with
    | nil => exact Or.inl (by simp)
    | cons c cut =>
      have hAfter : after ≠ [] := by
        rintro rfl
        have hPieces := h.pieces
        rw [(h.last rfl).1] at hPieces
        rw [chars_eq_nil_of_last hPieces] at hChars
        cases hChars
      -- A line end of two parts is one of two characters.
      cases hEnd : line.2 with
      | crlf =>
        rw [hEnd] at hChars
        obtain ⟨rfl, hRest⟩ := List.cons.inj hChars
        cases cut with
        | nil => exact Or.inr ⟨rfl, hRest.symm⟩
        | cons d cut =>
          obtain ⟨-, hRest⟩ := List.cons.inj hRest
          exact absurd (List.append_eq_nil_iff.1 hRest.symm).2 hAfter
      | cr | lf | absent =>
        rw [hEnd] at hChars
        simp_all [LineEnd.chars]
  · refine Or.inl ?_
    rw [hLine, List.take_left]

theorem offset_position_eq :
    (ofText text).offset ((ofText text).position k).line ((ofText text).position k).column =
      width (joined front) + width (line.1.take before.length) := by
  rw [h.position_eq]
  exact offset_of_pieces h.pieces before.length

/-- **The way to the position of an offset and back** ends at the last stop by then. -/
theorem le_of_isStop : width (joined front) + width (line.1.take before.length) ≤ k ∧
    ∀ j, IsStop text j → j ≤ k → j ≤ width (joined front) + width (line.1.take before.length) := by
  have hLe := h.le
  rcases h.before_cases with hBefore | ⟨rfl, rfl⟩
  · rw [← hBefore]
    refine ⟨hLe, fun j hStop hj => Nat.le_of_not_lt fun hLt => ?_⟩
    -- Otherwise a whole character would stand between the spot's character and `j`.
    obtain ⟨pre, post, hText, rfl⟩ := Utf8.isBoundary_iff.1 hStop.boundary
    have hSplit := h.text_eq.symm.trans hText
    rw [← List.append_assoc] at hSplit
    obtain ⟨mid, rfl, hMid⟩ := Utf8.exists_between hSplit (by rw [Utf8.width_append]; omega)
    rw [Utf8.width_append, Utf8.width_append] at hj hLt
    cases hAfter : after with
    | nil =>
      have := (h.last hAfter).2
      omega
    | cons c cs =>
      have hNext := h.lt c cs hAfter
      rw [hAfter] at hMid
      cases mid with
      | nil => simp at hLt
      | cons d mid =>
        obtain ⟨rfl, -⟩ := List.cons.inj hMid
        rw [Utf8.width_cons] at hj
        omega
  · have hLt : k < width (joined front) + width (line.1 ++ ['\r']) + 1 := h.lt _ [] rfl
    have hReturn : width (line.1 ++ ['\r']) = width line.1 + 1 := Utf8.width_append ..
    rw [List.take_of_length_le (by simp)]
    refine ⟨by omega, fun j hStop hj => Nat.le_of_not_lt fun hAbove => ?_⟩
    refine hStop.unpaired (joined front ++ line.1) (joined rest) ?_ ?_
    · rw [h.text_eq]
      simp
    · rw [Utf8.width_append]
      omega

end Spot

end Stops

/-! ### Both directions -/

section Positions

variable {text : List Char}

/-- Where a column of a line's content stands: the offset that the column has. -/
theorem spot_of_pieces {front rest : List (List Char × LineEnd)} {line : List Char × LineEnd}
    (h : pieces text = front ++ line :: rest) (n : Nat) :
    Spot text (width (joined front) + width (line.1.take n)) front line rest (line.1.take n)
      (line.1.drop n ++ line.2.chars) := by
  refine ⟨h, ?_, Nat.le_refl _, ?_, ?_⟩
  · rw [← List.append_assoc, List.take_append_drop]
  · intro c cs _
    have := Utf8.length_encodeChar_pos c
    omega
  · intro hNil
    refine ⟨?_, rfl⟩
    refine Text.eq_nil_of_absent h ?_
    have hEnd := (List.append_eq_nil_iff.1 hNil).2
    cases hCases : line.2 with
    | absent => rfl
    | crlf | cr | lf =>
      rw [hCases] at hEnd
      cases hEnd

theorem exists_pieces {l : Nat} (hPos : 1 ≤ l) (hLe : l ≤ (ofText text).lines.length) :
    ∃ front line rest, pieces text = front ++ line :: rest ∧ l = front.length + 1 := by
  have hLength : (ofText text).lines.length = (pieces text).length := by
    show ((Text.split text).map Text.Line.content).length = _
    rw [List.length_map, Text.split, Text.length_place]
  have hIndex : l - 1 < (pieces text).length := by omega
  refine ⟨(pieces text).take (l - 1), (pieces text)[l - 1], (pieces text).drop (l - 1 + 1), ?_, ?_⟩
  · rw [List.getElem_cons_drop, List.take_append_drop]
  · rw [List.length_take]
    omega

theorem line?_of_pieces {front rest : List (List Char × LineEnd)} {line : List Char × LineEnd}
    (h : pieces text = front ++ line :: rest) :
    (ofText text).line? ((front.length : Int) + 1) = some line.1 := by
  have hIndex : ((front.length : Int) + 1 - 1).toNat = front.length := by omega
  rw [line?, atIndex?, if_neg (by omega), hIndex]
  show ((Text.split text).map Text.Line.content)[front.length]? = _
  rw [List.getElem?_map, getElem?_split h]
  rfl

theorem clamp_le (text : List Char) (b : Int) : (ofText text).clamp b ≤ width text := by
  show (min b (encode text).length).toNat ≤ (encode text).length
  omega

theorem position_clamp (b : Int) :
    (ofText text).position b = (ofText text).position ((ofText text).clamp b) := by
  rw [position, position, clamp_of_le (clamp_le text b)]

theorem clamp_eq (text : List Char) (b : Int) :
    ((ofText text).clamp b : Int) = max 0 (min b (width text)) := by
  show ((min b (encode text).length).toNat : Int) = _
  rw [← width]
  omega

/-- **Positions keep the order of offsets.** -/
theorem Spot.position_le {j k : Nat} {front front' rest rest' : List (List Char × LineEnd)}
    {line line' : List Char × LineEnd} {before before' after after' : List Char}
    (h : Spot text j front line rest before after) (h' : Spot text k front' line' rest' before' after')
    (hLe : j ≤ k) : (ofText text).position j ≤ (ofText text).position k := by
  have hLine : front.length + 1 ≤ front'.length + 1 := by
    rw [← h.lineAt_eq, ← h'.lineAt_eq]
    exact List.countP_mono_left fun x _ hx => by
      simp only [decide_eq_true_eq] at hx ⊢
      omega
  rw [h.position_eq, h'.position_eq]
  rcases Nat.lt_or_eq_of_le hLine with hLt | hEq
  · exact Or.inl hLt
  · refine Or.inr ⟨hEq, Nat.succ_le_succ (Nat.le_of_not_lt fun hShort => ?_)⟩
    -- On one line: the characters before the later offset are a part of those before the other.
    obtain ⟨rfl, hRest⟩ := List.append_inj (h.pieces.symm.trans h'.pieces) (by omega)
    obtain ⟨rfl, -⟩ := List.cons.inj hRest
    have hChars := h.chars.symm.trans h'.chars
    rcases List.append_eq_append_iff.1 hChars with ⟨mid, rfl, -⟩ | ⟨mid, rfl, hAfter⟩
    · simp only [List.length_append] at hShort
      omega
    · cases mid with
      | nil => simp at hShort
      | cons c mid =>
        have hStart := h.le
        have hNext := h'.lt c _ hAfter
        rw [Utf8.width_append, Utf8.width_cons] at hStart
        omega

theorem position_mono (text : List Char) {a b : Int} (hLe : a ≤ b) :
    (ofText text).position a ≤ (ofText text).position b := by
  rw [position_clamp a, position_clamp b]
  obtain ⟨_, _, _, _, _, hSpot⟩ := exists_spot (clamp_le text a)
  obtain ⟨_, _, _, _, _, hSpot'⟩ := exists_spot (clamp_le text b)
  refine hSpot.position_le hSpot' ?_
  have hClamp := clamp_eq text a
  have hClamp' := clamp_eq text b
  omega

theorem position_pos (text : List Char) (b : Int) :
    1 ≤ ((ofText text).position b).line ∧ 1 ≤ ((ofText text).position b).column := by
  obtain ⟨_, _, _, _, _, hSpot⟩ := exists_spot (clamp_le text b)
  rw [position_clamp b, hSpot.position_eq]
  exact ⟨Nat.le_add_left 1 _, Nat.le_add_left 1 _⟩

/-- **The way from an offset to its position and back** ends at the last stop by then. -/
theorem isLastStop_offset (text : List Char) (b : Int) : IsLastStop text (max 0 (min b (width text)))
    ((ofText text).offset ((ofText text).position b).line ((ofText text).position b).column) := by
  obtain ⟨front, line, rest, before, after, hSpot⟩ := exists_spot (clamp_le text b)
  obtain ⟨hBelow, hLast⟩ := hSpot.le_of_isStop
  rw [← clamp_eq text b, position_clamp b, hSpot.offset_position_eq]
  refine ⟨isStop_of_pieces hSpot.pieces before.length, by omega, ?_⟩
  intro j hStop hj
  exact hLast j hStop (by omega)

end Positions

/-- **Positions and offsets are inverse to each other, up to rounding down.** Every place of a line is
the position of its offset. The offset of a position is the last stop by the offset that it came from,
clamped to the text; a stop is given back. And positions keep the order of offsets. -/
theorem position_offset (text : List Char) :
    (∀ l : Nat, 1 ≤ l → l ≤ (ofText text).lines.length →
      ∃ content, (ofText text).line? l = some content ∧ ∀ c : Nat, 1 ≤ c → c ≤ content.length + 1 →
        (ofText text).position ((ofText text).offset l c) = ⟨l, c⟩) ∧
    (∀ b : Int, IsLastStop text (max 0 (min b (width text)))
      ((ofText text).offset ((ofText text).position b).line ((ofText text).position b).column)) ∧
    (∀ k : Nat, IsStop text k →
      (ofText text).offset ((ofText text).position k).line ((ofText text).position k).column = k) ∧
    ∀ a b : Int, a ≤ b → (ofText text).position a ≤ (ofText text).position b := by
  refine ⟨?_, ?_, ?_, ?_⟩
  · intro l hPos hLe
    obtain ⟨front, line, rest, hPieces, rfl⟩ := exists_pieces hPos hLe
    refine ⟨line.1, line?_of_pieces hPieces, ?_⟩
    intro c hFirst hc
    obtain ⟨n, rfl⟩ := Nat.exists_eq_add_of_le' hFirst
    have hOffset := offset_of_pieces hPieces n
    have hTaken : (line.1.take n).length = n := by
      rw [List.length_take]
      omega
    rw [Int.natCast_add, Int.natCast_add, Int.natCast_one, hOffset,
      (spot_of_pieces hPieces n).position_eq, hTaken]
  · intro b
    exact isLastStop_offset text b
  · intro k hStop
    have hLe : k ≤ width text := hStop.boundary.le_width
    obtain ⟨hFound, hBelow, hLast⟩ := isLastStop_offset text k
    have hClamp : max 0 (min (k : Int) (width text)) = k := by omega
    rw [hClamp] at hBelow hLast
    exact Nat.le_antisymm (by omega) (hLast k hStop (Int.le_refl _))
  · intro a b hLe
    exact position_mono text hLe

end TidySpace.Buffer
