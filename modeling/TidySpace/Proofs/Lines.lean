import TidySpace.Proofs.Utf8
import TidySpace.Rule.TrailingSpaces

/-! # Where lines stand

Every physical line stands in the text at the byte that `Text.split` gives it (`cut_of_mem_split`),
and so does every trailing run (`TrailingRun.cut_of_mem_scan`): its bytes are spaces and tabs of the
text.
-/

namespace TidySpace

namespace Text

def joined (ps : List (List Char × LineEnd)) : List Char := ps.flatMap fun p => p.1 ++ p.2.chars

@[simp] theorem joined_nil : joined [] = [] := rfl

@[simp] theorem joined_cons (p : List Char × LineEnd) (ps : List (List Char × LineEnd)) :
    joined (p :: ps) = p.1 ++ (p.2.chars ++ joined ps) := by
  rw [joined, List.flatMap_cons, List.append_assoc]
  rfl

@[simp] theorem joined_append (ps qs : List (List Char × LineEnd)) :
    joined (ps ++ qs) = joined ps ++ joined qs :=
  List.flatMap_append

theorem joined_pieces (cs : List Char) : joined (pieces cs) = cs := pieces_chars cs

theorem pieces_eq (cs : List Char) :
    ∃ front last, pieces cs = front ++ [(last, .absent)] ∧ ∀ p ∈ front, p.2 ≠ .absent := by
  fun_induction pieces cs with
  | case1 => exact ⟨[], [], rfl, by simp⟩
  | case2 cs ih | case3 cs _ ih | case4 cs _ _ ih =>
    obtain ⟨front, last, hEq, hEnds⟩ := ih
    exact ⟨_ :: front, last, by rw [hEq]; rfl, by simpa using hEnds⟩
  | case5 c cs _ _ _ ih =>
    obtain ⟨front, last, hEq, hEnds⟩ := ih
    rw [hEq]
    cases front with
    | nil => exact ⟨[], c :: last, rfl, by simp⟩
    | cons p front => exact ⟨(c :: p.1, p.2) :: front, last, rfl, by simpa using hEnds⟩

theorem eq_nil_of_absent {cs : List Char} {front rest : List (List Char × LineEnd)}
    {p : List Char × LineEnd} (h : pieces cs = front ++ p :: rest) (hEnd : p.2 = .absent) :
    rest = [] := by
  obtain ⟨lines, last, hEq, hEnds⟩ := pieces_eq cs
  rcases List.eq_nil_or_concat rest with rfl | ⟨init, q, rfl⟩
  · rfl
  · rw [List.concat_eq_append, ← List.cons_append, ← List.append_assoc, hEq] at h
    have hMem : p ∈ lines := by
      rw [(List.append_inj' h rfl).1]
      exact List.mem_append_right front List.mem_cons_self
    exact absurd hEnd (hEnds p hMem)

theorem plain_of_mem_pieces {cs : List Char} {p : List Char × LineEnd} (h : p ∈ pieces cs) :
    '\r' ∉ p.1 ∧ '\n' ∉ p.1 := by
  fun_induction pieces cs generalizing p with
  | case1 => simp_all
  | case2 cs ih | case3 cs _ ih | case4 cs _ _ ih =>
    rcases List.mem_cons.1 h with rfl | h
    · simp
    · exact ih h
  | case5 c cs _ hReturn hFeed ih =>
    cases hPieces : pieces cs with
    | nil =>
      rw [hPieces, consPiece, List.mem_singleton] at h
      subst h
      simp [Ne.symm hReturn, Ne.symm hFeed]
    | cons q rest =>
      rw [hPieces] at h ih
      rcases List.mem_cons.1 h with rfl | h
      · simpa [Ne.symm hReturn, Ne.symm hFeed] using ih List.mem_cons_self
      · exact ih (List.mem_cons_of_mem q h)

theorem width_chars (ending : LineEnd) : Utf8.width ending.chars = ending.chars.length := by
  cases ending <;> rfl

/-- A numbered line is one of the pieces, and it begins where the pieces before it end. -/
theorem mem_place {number start : Nat} {ps : List (List Char × LineEnd)} {l : Line}
    (h : l ∈ place number start ps) :
    ∃ front rest, ps = front ++ (l.content, l.ending) :: rest ∧
      l.start = start + Utf8.width (joined front) ∧ l.number = number + front.length := by
  induction ps generalizing number start with
  | nil => exact absurd h List.not_mem_nil
  | cons p ps ih =>
    obtain ⟨content, ending⟩ := p
    rw [place, List.mem_cons] at h
    rcases h with rfl | h
    · exact ⟨[], ps, rfl, rfl, rfl⟩
    · obtain ⟨front, rest, rfl, hStart, hNumber⟩ := ih h
      refine ⟨(content, ending) :: front, rest, rfl, ?_, ?_⟩
      · rw [hStart, joined_cons, Utf8.width_append, Utf8.width_append, width_chars, ← Nat.add_assoc,
          ← Nat.add_assoc]
      · rw [hNumber, List.length_cons]
        omega

@[simp] theorem length_place (number start : Nat) (ps : List (List Char × LineEnd)) :
    (place number start ps).length = ps.length := by
  induction ps generalizing number start with
  | nil => rfl
  | cons p ps ih => rw [place, List.length_cons, ih, List.length_cons]

/-- **A physical line stands in the text** at the byte at which it begins. -/
theorem cut_of_mem_split {text : List Char} {l : Line} (h : l ∈ split text) :
    ∃ pre post, text = pre ++ (l.content ++ (l.ending.chars ++ post)) ∧
      l.start = Utf8.width pre := by
  obtain ⟨front, rest, hPieces, hStart, -⟩ := mem_place h
  refine ⟨joined front, joined rest, ?_, by rw [hStart, Nat.zero_add]⟩
  rw [← joined_cons (l.content, l.ending), ← joined_append, ← hPieces, joined_pieces]

theorem map_place (number start : Nat) (ps : List (List Char × LineEnd)) :
    (place number start ps).map (fun l => (l.content, l.ending)) = ps := by
  induction ps generalizing number start with
  | nil => rfl
  | cons p ps ih => rw [place, List.map_cons, ih]

theorem map_ending_split (text : List Char) :
    (split text).map Line.ending = (pieces text).map Prod.snd := by
  have hPairs := congrArg (List.map Prod.snd) (map_place 1 0 (pieces text))
  rwa [List.map_map] at hPairs

theorem mem_pieces_of_mem_split {text : List Char} {l : Line} (h : l ∈ split text) :
    (l.content, l.ending) ∈ pieces text := by
  rw [← map_place 1 0 (pieces text)]
  exact List.mem_map_of_mem h

theorem place_append (number start : Nat) (ps qs : List (List Char × LineEnd)) :
    place number start (ps ++ qs) = place number start ps ++
      place (number + ps.length) (start + Utf8.width (joined ps)) qs := by
  induction ps generalizing number start with
  | nil => rfl
  | cons p ps ih =>
    rw [List.cons_append, place, place, ih, List.cons_append, List.length_cons, joined_cons,
      Utf8.width_append, Utf8.width_append, width_chars]
    simp only [Nat.add_assoc, Nat.add_comm 1]

theorem exists_split {text : List Char} {l : Line} (h : l ∈ split text) :
    ∃ front rest, pieces text = front ++ (l.content, l.ending) :: rest ∧
      split text = place 1 0 front ++ l :: place (l.number + 1)
        (l.start + Utf8.width l.content + l.ending.chars.length) rest ∧
      l.start = Utf8.width (joined front) ∧ l.number = front.length + 1 := by
  obtain ⟨front, rest, hPieces, hStart, hNumber⟩ := mem_place h
  rw [Nat.zero_add] at hStart
  rw [Nat.add_comm] at hNumber
  refine ⟨front, rest, hPieces, ?_, hStart, hNumber⟩
  rw [split, hPieces, place_append, place, Nat.zero_add, ← hStart, Nat.add_comm 1, ← hNumber]

/-! ### Where the lines begin -/

theorem breakEnds_append {bytes : List UInt8} (h : ∀ b ∈ bytes, b ≠ 0x0D ∧ b ≠ 0x0A) (pos : Nat)
    (rest : List UInt8) : breakEnds pos (bytes ++ rest) = breakEnds (pos + bytes.length) rest := by
  induction bytes generalizing pos with
  | nil => rfl
  | cons b bytes ih =>
    rw [List.forall_mem_cons] at h
    rw [List.cons_append, breakEnds, if_neg (by simp [h.1]), ih h.2, List.length_cons,
      Nat.add_right_comm, Nat.add_assoc]
    · intro _ hReturn _
      exact absurd hReturn h.1.1

theorem place_consPiece (c : Char) (number start : Nat) {ps : List (List Char × LineEnd)}
    (h : ps ≠ []) :
    (place number start (consPiece c ps)).map Line.start =
      start :: ((place number (start + (Utf8.encodeChar c).length) ps).map Line.start).tail := by
  obtain ⟨p, ps, rfl⟩ := List.exists_cons_of_ne_nil h
  rw [consPiece, place, place, List.map_cons, List.map_cons, List.tail_cons, Utf8.width_cons,
    ← Nat.add_assoc start]

theorem map_start_place (number start : Nat) (cs : List Char) :
    (place number start (pieces cs)).map Line.start = start :: breakEnds start (Utf8.encode cs) := by
  fun_induction pieces cs generalizing number start with
  | case1 => rfl
  | case2 cs ih =>
    rw [place, List.map_cons, ih]
    rfl
  | case3 cs hNext ih =>
    rw [place, List.map_cons, ih]
    show _ = start :: breakEnds start (0x0D :: Utf8.encode cs)
    rw [breakEnds]
    · rfl
    · intro _ _ hFeed
      obtain ⟨c, rest, rfl, hc⟩ := Utf8.exists_of_encode_cons hFeed (by decide)
      obtain rfl : c = '\n' := Char.toNat_inj.1 hc
      exact hNext rest rfl rfl
  | case4 cs hNext _ ih =>
    rw [place, List.map_cons, ih]
    show _ = start :: breakEnds start (0x0A :: Utf8.encode cs)
    rw [breakEnds]
    · rfl
    · intro _ h
      cases h
  | case5 c cs hNext hReturn hFeed ih =>
    have hSome : pieces cs ≠ [] := by
      obtain ⟨front, last, hEq, -⟩ := pieces_eq cs
      simp [hEq]
    have hBytes : ∀ b ∈ Utf8.encodeChar c, b ≠ 0x0D ∧ b ≠ 0x0A := by
      intro b hb
      refine ⟨?_, ?_⟩
      · rintro rfl
        exact hReturn (Char.toNat_inj.1 (Utf8.toNat_of_mem_encodeChar hb (by decide)))
      · rintro rfl
        exact hFeed (Char.toNat_inj.1 (Utf8.toNat_of_mem_encodeChar hb (by decide)))
    rw [place_consPiece c number start hSome, ih, List.tail_cons, Utf8.encode_cons,
      breakEnds_append hBytes]

/-- **The lines of a text begin where the bytes say.** -/
theorem lineStarts_encode (cs : List Char) : lineStarts (Utf8.encode cs) = (split cs).map Line.start :=
  (map_start_place 1 0 cs).symm

end Text

namespace TrailingRun

open Text (isGap)

variable {text : List Char} {skip : Bool} {run : TrailingRun}

theorem ofLine?_eq_some {l : Text.Line} (h : ofLine? skip l = some run) :
    ∃ mid, l.content = Text.dropTrailing isGap l.content ++ mid ∧ mid ≠ [] ∧ mid.all isGap = true ∧
      run.start = l.start + Utf8.width (Text.dropTrailing isGap l.content) ∧
      run.stop = l.start + Utf8.width l.content := by
  obtain ⟨mid, hContent, hGap⟩ := Text.dropTrailing_append isGap l.content
  unfold ofLine? at h
  dsimp only at h
  split at h
  next => cases h
  next hKept =>
    cases h
    refine ⟨mid, hContent, ?_, hGap, rfl, rfl⟩
    rintro rfl
    rw [List.append_nil] at hContent
    exact hKept (Or.inl (congrArg List.length hContent.symm))

/-- **A trailing run stands in the text**, and it is made of spaces and tabs. -/
theorem cut_of_mem_scan (h : run ∈ scan text skip) :
    ∃ pre mid post, text = pre ++ (mid ++ post) ∧ run.start = Utf8.width pre ∧
      run.stop = Utf8.width pre + Utf8.width mid ∧ mid ≠ [] ∧ mid.all isGap = true := by
  obtain ⟨l, hLine, hRun⟩ := List.mem_filterMap.1 h
  obtain ⟨pre, post, hText, hStart⟩ := Text.cut_of_mem_split hLine
  obtain ⟨mid, hContent, hNonempty, hGap, hRunStart, hRunStop⟩ := ofLine?_eq_some hRun
  generalize Text.dropTrailing isGap l.content = kept at hContent hRunStart
  rw [hContent, List.append_assoc, ← List.append_assoc] at hText
  refine ⟨pre ++ kept, mid, l.ending.chars ++ post, hText, ?_, ?_, hNonempty, hGap⟩
  · rw [Utf8.width_append]
    omega
  · rw [hContent, Utf8.width_append] at hRunStop
    rw [Utf8.width_append]
    omega

theorem mem_scan_of_skip (h : run ∈ scan text skip) : run ∈ scan text false := by
  obtain ⟨l, hLine, hRun⟩ := List.mem_filterMap.1 h
  refine List.mem_filterMap.2 ⟨l, hLine, ?_⟩
  unfold ofLine? at hRun ⊢
  dsimp only at hRun ⊢
  split at hRun
  next => cases hRun
  next hKept =>
    rw [if_neg]
    · exact hRun
    · rintro (hLength | ⟨hSkip, -⟩)
      · exact hKept (Or.inl hLength)
      · cases hSkip

end TrailingRun

end TidySpace
