import TidySpace.Proofs.Utf8

/-! # Bytes that are read with replacement

A buffer is read one character after the other, and each is read off a number of bytes, its *extent*;
a stretch of bytes that begins no character counts as U+FFFD, read off one, two or three bytes. What a
part of the buffer is read as can be told from the extents alone: the characters inside it, and U+FFFD
for each character that the end of the part cuts and for each byte that goes on with one in front of it
(`decodeReplacing_drop_take`).

Bytes that are read and written again are *steady* if no character but the last has changed its length.
Then every part is read as before (`between_rewritten`) and every byte below 0x80 stands where it stood
(`getElem?_rewritten`); otherwise some part is read as something else (`exists_between_ne`).
-/

namespace TidySpace.Utf8

/-! ### Reading one character off a part of the buffer -/

/-- The bytes that a character goes on with are there before what follows it, and they are read the
same if the buffer ends behind them; if it ends earlier then no character is read. -/
theorem exists_continue? {low high : Nat} (payload more : Nat) (bytes : List UInt8) (hLow : 0x80 ≤ low)
    (hHigh : high ≤ 0xBF) :
    ∃ tail, bytes = tail ++ (continue? payload low high more bytes).2 ∧
      (∀ x ∈ tail, IsContinuation x) ∧
      ((continue? payload low high more bytes).1 = none → tail.length < more) ∧
      ∀ k, continue? payload low high more (bytes.take k) =
        if tail.length ≤ k then ((continue? payload low high more bytes).1,
          (continue? payload low high more bytes).2.take (k - tail.length))
        else (none, []) := by
  fun_induction continue? payload low high more bytes with
  | case1 low high payload rest => exact ⟨[], rfl, by simp, by simp, fun k => by simp [continue?]⟩
  | case2 => exact ⟨[], rfl, by simp, by simp, fun k => by simp [continue?]⟩
  | case3 low high payload more b rest hb ih =>
    obtain ⟨tail, hRest, hTail, hShort, hTake⟩ := ih (Nat.le_refl _) (Nat.le_refl _)
    refine ⟨b :: tail, ?_, ?_, ?_, ?_⟩
    · rw [List.cons_append, ← hRest]
    · rw [List.forall_mem_cons]
      exact ⟨⟨by omega, by omega⟩, hTail⟩
    · intro hNone
      exact Nat.succ_lt_succ (hShort hNone)
    · intro k
      cases k with
      | zero => simp [continue?]
      | succ k =>
        rw [List.take_succ_cons, continue?_cons hb, hTake, List.length_cons, Nat.add_sub_add_right]
        simp only [Nat.add_le_add_iff_right]
  | case4 low high payload more b rest hb =>
    refine ⟨[], rfl, by simp, by simp, fun k => ?_⟩
    cases k with
    | zero => simp [continue?]
    | succ k => rw [List.take_succ_cons, continue?, if_neg hb]; rfl

theorem lead?_bounds {b : Nat} {l : Lead} (h : lead? b = some l) :
    0x80 ≤ l.low ∧ l.high ≤ 0xBF ∧ l.more ≤ 3 ∧ (b < 0x80 → l.more = 0) := by
  rcases lead?_eq_some h with h1 | ⟨h1, h2⟩ | ⟨h1, h2⟩ | ⟨h1, h2⟩
  · rw [lead?_one h1] at h
    obtain rfl := Option.some.inj h
    simp
  · rw [lead?_two h1 h2] at h
    obtain rfl := Option.some.inj h
    simp only [true_and, Nat.le_refl]
    omega
  · rw [lead?_three h1 h2] at h
    obtain rfl := Option.some.inj h
    dsimp only
    refine ⟨?_, ?_, by omega, by omega⟩ <;> split <;> omega
  · rw [lead?_four h1 h2] at h
    obtain rfl := Option.some.inj h
    dsimp only
    refine ⟨?_, ?_, by omega, by omega⟩ <;> split <;> omega

/-- The bytes that a first byte is read with are there before what follows; if there is no character then
they are few, and it is not below 0x80. If the buffer ends earlier then no character is read. -/
theorem exists_next (b : UInt8) (rest : List UInt8) :
    ∃ tail, rest = tail ++ (next b rest).2 ∧ (∀ x ∈ tail, IsContinuation x) ∧
      ((next b rest).1 = none → tail.length ≤ 2 ∧ 0x80 ≤ b.toNat) ∧
      ∀ k, next b (rest.take k) =
        if tail.length ≤ k then ((next b rest).1, (next b rest).2.take (k - tail.length))
        else (none, []) := by
  cases hLead : lead? b.toNat with
  | none =>
    refine ⟨[], by simp [next, hLead], by simp, fun _ => ⟨Nat.zero_le _, ?_⟩, by simp [next, hLead]⟩
    refine Nat.le_of_not_lt fun hb => ?_
    rw [lead?_one hb] at hLead
    cases hLead
  | some l =>
    obtain ⟨hLow, hHigh, hMore, hPlain⟩ := lead?_bounds hLead
    obtain ⟨tail, hRest, hTail, hShort, hTake⟩ := exists_continue? l.payload l.more rest hLow hHigh
    refine ⟨tail, by simpa [next, hLead] using hRest, hTail, fun hNone => ?_, fun k => ?_⟩
    · have := hShort (by simpa [next, hLead] using hNone)
      exact ⟨by omega, Nat.le_of_not_lt fun hb => by have := hPlain hb; omega⟩
    · simp only [next, hLead, hTake]
      split <;> rfl

/-! ### Extents -/

/-- The characters that a buffer is read as, each with the number of bytes that it is read off. -/
def extents : List UInt8 → List (Char × Nat)
  | [] => []
  | b :: rest =>
    ((next b rest).1.getD (Char.ofNat 0xFFFD), rest.length + 1 - (next b rest).2.length) ::
      extents (next b rest).2
termination_by bytes => bytes.length
decreasing_by
  have := length_next_le b rest
  simp only [List.length_cons]
  omega

/-- The first character of a buffer: `b` and `tail` are read as `c`, and `after` follows. -/
structure Reads (b : UInt8) (tail after : List UInt8) (c : Char) : Prop where
  extents_eq : extents (b :: (tail ++ after)) = (c, tail.length + 1) :: extents after
  decode_eq : decodeReplacing (b :: (tail ++ after)) = c :: decodeReplacing after
  continued : ∀ x ∈ tail, IsContinuation x
  whole : b :: tail = encodeChar c ∨ c = Char.ofNat 0xFFFD ∧ tail.length ≤ 2 ∧ 0x80 ≤ b.toNat
  cut : ∀ k, decodeReplacing (b :: (tail ++ after).take k) =
    if tail.length ≤ k then c :: decodeReplacing (after.take (k - tail.length))
    else [Char.ofNat 0xFFFD]

theorem decodeReplacing_nil : decodeReplacing [] = [] := by
  rw [decodeReplacing, scan]
  rfl

theorem decodeReplacing_cons (b : UInt8) (rest : List UInt8) :
    decodeReplacing (b :: rest) =
      (next b rest).1.getD (Char.ofNat 0xFFFD) :: decodeReplacing (next b rest).2 := by
  rw [decodeReplacing, scan]
  rfl

theorem exists_reads (b : UInt8) (rest : List UInt8) :
    ∃ tail after c, rest = tail ++ after ∧ Reads b tail after c := by
  obtain ⟨tail, hRest, hTail, hShort, hTake⟩ := exists_next b rest
  generalize hAfter : (next b rest).2 = after at hRest hTake
  refine ⟨tail, after, (next b rest).1.getD (Char.ofNat 0xFFFD), hRest, ?_⟩
  have hLength : rest.length + 1 - after.length = tail.length + 1 := by
    rw [hRest, List.length_append]
    omega
  constructor
  · rw [← hRest, extents, hAfter, hLength]
  · rw [← hRest, decodeReplacing_cons, hAfter]
  · exact hTail
  · cases hChar : (next b rest).1 with
    | none => exact Or.inr ⟨rfl, hShort hChar⟩
    | some c =>
      have hBytes := eq_encodeChar_of_next (Prod.ext hChar hAfter : next b rest = (some c, after))
      rw [hRest, ← List.cons_append] at hBytes
      exact Or.inl (List.append_cancel_right hBytes)
  · intro k
    rw [← hRest, decodeReplacing_cons, hTake]
    split
    next => rfl
    next => rw [decodeReplacing_nil]; rfl

@[elab_as_elim] theorem reads_induction {motive : List UInt8 → Prop} (nil : motive [])
    (cons : ∀ b tail after c, Reads b tail after c → motive after → motive (b :: (tail ++ after)))
    (bytes : List UInt8) : motive bytes := by
  induction hLength : bytes.length using Nat.strongRecOn generalizing bytes with
  | ind n ih =>
    cases bytes with
    | nil => exact nil
    | cons b rest =>
      obtain ⟨tail, after, c, rfl, hReads⟩ := exists_reads b rest
      refine cons b tail after c hReads (ih after.length ?_ after rfl)
      rw [← hLength, List.length_cons, List.length_append]
      omega

theorem map_fst_extents (bytes : List UInt8) : (extents bytes).map Prod.fst = decodeReplacing bytes := by
  induction bytes using reads_induction with
  | nil => rw [extents, decodeReplacing_nil]; rfl
  | cons b tail after c hReads ih => rw [hReads.extents_eq, hReads.decode_eq, ← ih]; rfl

/-- The number of bytes that characters are read off. -/
def total : List (Char × Nat) → Nat
  | [] => 0
  | (_, n) :: ps => n + total ps

theorem total_cons (p : Char × Nat) (ps : List (Char × Nat)) : total (p :: ps) = p.2 + total ps := rfl

theorem total_extents (bytes : List UInt8) : total (extents bytes) = bytes.length := by
  induction bytes using reads_induction with
  | nil => rw [extents]; rfl
  | cons b tail after c hReads ih =>
    rw [hReads.extents_eq, total_cons, ih, List.length_cons, List.length_append]
    omega

/-- The extent of a character as it is written, or U+FFFD for a stretch that is not longer than that. -/
def IsExtent (p : Char × Nat) : Prop :=
  0 < p.2 ∧ (p.2 = (encodeChar p.1).length ∨ p.1 = Char.ofNat 0xFFFD ∧ p.2 ≤ 3)

theorem isExtent_of_mem {bytes : List UInt8} {p : Char × Nat} (h : p ∈ extents bytes) : IsExtent p := by
  induction bytes using reads_induction with
  | nil =>
    rw [extents] at h
    exact absurd h List.not_mem_nil
  | cons b tail after c hReads ih =>
    rw [hReads.extents_eq, List.mem_cons] at h
    rcases h with rfl | h
    · refine ⟨Nat.succ_pos _, ?_⟩
      rcases hReads.whole with hWhole | ⟨hChar, hShort, -⟩
      · exact Or.inl (by rw [← hWhole, List.length_cons])
      · exact Or.inr ⟨hChar, Nat.succ_le_succ hShort⟩
    · exact ih h

/-! ### Reading a part of the buffer -/

/-- What the first `k` bytes are read as: U+FFFD stands for a character that their end cuts. -/
def before : List (Char × Nat) → Nat → List Char
  | [], _ => []
  | (c, n) :: ps, k =>
    if k = 0 then []
    else if n ≤ k then c :: before ps (k - n)
    else [Char.ofNat 0xFFFD]

/-- What `k` bytes are read as after the first `skipped` are left out: U+FFFD stands for each byte of a
character that their start cuts. -/
def between : List (Char × Nat) → Nat → Nat → List Char
  | [], _, _ => []
  | (c, n) :: ps, skipped, k =>
    if skipped = 0 then before ((c, n) :: ps) k
    else if n ≤ skipped then between ps (skipped - n) k
    else List.replicate (min k (n - skipped)) (Char.ofNat 0xFFFD) ++ before ps (k - (n - skipped))

theorem decodeReplacing_take (bytes : List UInt8) (k : Nat) :
    decodeReplacing (bytes.take k) = before (extents bytes) k := by
  induction bytes using reads_induction generalizing k with
  | nil => rw [List.take_nil, extents, decodeReplacing_nil, before]
  | cons b tail after c hReads ih =>
    rw [hReads.extents_eq, before]
    cases k with
    | zero => rw [List.take_zero, decodeReplacing_nil, if_pos rfl]
    | succ k =>
      rw [List.take_succ_cons, hReads.cut, if_neg (Nat.succ_ne_zero k)]
      simp only [Nat.add_le_add_iff_right, Nat.add_sub_add_right, ih]

theorem decodeReplacing_of_continuation {tail : List UInt8} (h : ∀ x ∈ tail, IsContinuation x)
    (rest : List UInt8) : decodeReplacing (tail ++ rest) =
      List.replicate tail.length (Char.ofNat 0xFFFD) ++ decodeReplacing rest := by
  induction tail with
  | nil => rfl
  | cons b tail ih =>
    rw [List.forall_mem_cons] at h
    obtain ⟨⟨hLow, hHigh⟩, hTail⟩ := h
    have hNext : next b (tail ++ rest) = (none, tail ++ rest) := by
      rw [next, lead?, if_neg (by omega), if_pos (by omega)]
    rw [List.cons_append, decodeReplacing_cons, hNext, ih hTail, List.length_cons, List.replicate_succ]
    rfl

/-- **What a part of a buffer is read as** can be told from the extents. -/
theorem decodeReplacing_drop_take (bytes : List UInt8) (skipped k : Nat) :
    decodeReplacing ((bytes.drop skipped).take k) = between (extents bytes) skipped k := by
  induction bytes using reads_induction generalizing skipped with
  | nil => rw [List.drop_nil, List.take_nil, extents, decodeReplacing_nil, between]
  | cons b tail after c hReads ih =>
    rw [hReads.extents_eq, between]
    split
    next hZero => rw [hZero, List.drop_zero, decodeReplacing_take, hReads.extents_eq]
    next hSome =>
      obtain ⟨j, rfl⟩ := Nat.exists_eq_add_one_of_ne_zero hSome
      rw [List.drop_succ_cons, List.drop_append]
      split
      next hPast =>
        rw [List.drop_eq_nil_of_le (by omega), List.nil_append, ih, Nat.add_sub_add_right]
      next hInside =>
        have hTail : ∀ x ∈ (tail.drop j).take k, IsContinuation x := fun x hx =>
          hReads.continued x (List.mem_of_mem_drop (List.mem_of_mem_take hx))
        rw [Nat.sub_eq_zero_of_le (by omega : j ≤ tail.length), List.drop_zero, List.take_append,
          decodeReplacing_of_continuation hTail, decodeReplacing_take, List.length_take,
          List.length_drop, Nat.add_sub_add_right]

/-! ### Writing what was read -/

/-- The characters that are read off the bytes once these are written again. -/
def rewritten (ps : List (Char × Nat)) : List (Char × Nat) :=
  ps.map fun p => (p.1, (encodeChar p.1).length)

theorem extents_encode (cs : List Char) :
    extents (encode cs) = cs.map fun c => (c, (encodeChar c).length) := by
  induction cs with
  | nil => rw [encode_nil, extents]; rfl
  | cons c cs ih =>
    obtain ⟨b, rest, hEq, hNext⟩ := next_encodeChar c (encode cs)
    rw [encode_cons, hEq, List.cons_append, extents, hNext, ih, List.map_cons, List.length_append, hEq,
      List.length_cons]
    congr 2
    dsimp only
    omega

theorem extents_rewritten (bytes : List UInt8) :
    extents (encode (decodeReplacing bytes)) = rewritten (extents bytes) := by
  rw [extents_encode, ← map_fst_extents, List.map_map]
  rfl

/-- No character but the last is written in another length than it was read off. -/
def Kept (ps : List (Char × Nat)) : Prop := ∀ p ∈ ps.dropLast, p.2 = (encodeChar p.1).length

instance (ps : List (Char × Nat)) : Decidable (Kept ps) :=
  inferInstanceAs (Decidable (∀ p ∈ ps.dropLast, p.2 = (encodeChar p.1).length))

theorem kept_cons {p q : Char × Nat} {ps : List (Char × Nat)} :
    Kept (p :: q :: ps) ↔ p.2 = (encodeChar p.1).length ∧ Kept (q :: ps) := by
  rw [Kept, List.dropLast_cons_of_ne_nil (List.cons_ne_nil q ps), List.forall_mem_cons]
  exact Iff.rfl

/-- Bytes whose characters keep their lengths when they are read and written again: every stretch that
begins no character has the three bytes of U+FFFD, or is the end of the buffer. -/
def Steady (bytes : List UInt8) : Prop := Kept (extents bytes)

instance (bytes : List UInt8) : Decidable (Steady bytes) :=
  inferInstanceAs (Decidable (Kept (extents bytes)))

theorem steady_encode (cs : List Char) : Steady (encode cs) := by
  intro p hp
  have hMem := List.dropLast_subset _ hp
  rw [extents_encode] at hMem
  obtain ⟨c, -, rfl⟩ := List.mem_map.1 hMem
  rfl

theorem length_replacement : (encodeChar (Char.ofNat 0xFFFD)).length = 3 := by decide

theorem IsExtent.le_length {p : Char × Nat} (h : IsExtent p) : p.2 ≤ (encodeChar p.1).length := by
  rcases h.2 with hSame | ⟨hChar, hShort⟩
  · exact Nat.le_of_eq hSame
  · rwa [hChar, length_replacement]

theorem length_le_rewritten (bytes : List UInt8) :
    bytes.length ≤ (encode (decodeReplacing bytes)).length := by
  rw [← total_extents, ← total_extents (encode _), extents_rewritten]
  have hExtents : ∀ p ∈ extents bytes, IsExtent p := fun p => isExtent_of_mem
  generalize extents bytes = ps at hExtents
  induction ps with
  | nil => exact Nat.le_refl _
  | cons p ps ih =>
    rw [List.forall_mem_cons] at hExtents
    rw [rewritten, List.map_cons, total_cons, total_cons]
    exact Nat.add_le_add hExtents.1.le_length (ih hExtents.2)

/-! ### Steady bytes -/

/-- The last character may have grown: what is read before it, or off its first bytes, is the same. -/
theorem before_rewritten {ps : List (Char × Nat)} {k : Nat} (hExtents : ∀ p ∈ ps, IsExtent p)
    (hKept : Kept ps) (hk : k ≤ total ps) : before (rewritten ps) k = before ps k := by
  induction ps generalizing k with
  | nil => rfl
  | cons p ps ih =>
    obtain ⟨c, n⟩ := p
    rw [List.forall_mem_cons] at hExtents
    obtain ⟨⟨hPos, hExtent⟩, hExtents⟩ := hExtents
    rw [total_cons] at hk
    rw [rewritten, List.map_cons, before, before, ← rewritten]
    dsimp only at hPos hExtent hk ⊢
    cases ps with
    | nil =>
      have hk : k ≤ n := hk
      rcases hExtent with rfl | ⟨rfl, hShort⟩
      · rfl
      · -- Whether the stretch is read whole or cut, it is read as U+FFFD.
        rw [length_replacement]
        split
        next => rfl
        next => split <;> split <;> rfl
    | cons q qs =>
      rw [kept_cons] at hKept
      rw [← hKept.1]
      split
      next => rfl
      next =>
        split
        next => rw [ih hExtents hKept.2 (by omega)]
        next => rfl

theorem between_singleton (c : Char) {n skipped k : Nat} (hSome : skipped ≠ 0) (hk : skipped + k ≤ n) :
    between [(c, n)] skipped k = List.replicate k (Char.ofNat 0xFFFD) := by
  rw [between, if_neg hSome]
  split
  next hPast => rw [(by omega : k = 0)]; rfl
  next => rw [Nat.min_eq_left (by omega), before, List.append_nil]

/-- **Every part of steady bytes is read as before** once they are written again. -/
theorem between_rewritten {ps : List (Char × Nat)} {skipped k : Nat}
    (hExtents : ∀ p ∈ ps, IsExtent p) (hKept : Kept ps) (hk : skipped + k ≤ total ps) :
    between (rewritten ps) skipped k = between ps skipped k := by
  induction ps generalizing skipped with
  | nil => rfl
  | cons p ps ih =>
    by_cases hZero : skipped = 0
    · have hBefore := @before_rewritten (p :: ps) k hExtents hKept (by omega)
      rw [rewritten, List.map_cons] at hBefore ⊢
      rw [between, between, if_pos hZero, if_pos hZero, hBefore]
    rw [List.forall_mem_cons] at hExtents
    rw [total_cons] at hk
    cases ps with
    | nil =>
      have hk : skipped + k ≤ p.2 := hk
      have hLe := hExtents.1.le_length
      rw [between_singleton p.1 hZero hk]
      exact between_singleton p.1 hZero (by omega)
    | cons q qs =>
      rw [kept_cons] at hKept
      rw [rewritten, List.map_cons, between, between, ← rewritten, if_neg hZero, if_neg hZero, ← hKept.1]
      split
      next => rw [ih hExtents.2 hKept.2 (by omega)]
      next => rw [before_rewritten hExtents.2 hKept.2 (by omega)]

theorem Reads.of_steady {b : UInt8} {tail after : List UInt8} {c : Char} (hReads : Reads b tail after c)
    (hSteady : Steady (b :: (tail ++ after))) :
    Steady after ∧ (after ≠ [] → (b :: tail).length = (encodeChar c).length) := by
  rw [Steady, hReads.extents_eq] at hSteady
  cases after with
  | nil => exact ⟨by rw [Steady, extents]; decide, fun hSome => absurd rfl hSome⟩
  | cons a rest =>
    obtain ⟨tail', after', c', rfl, hNext⟩ := exists_reads a rest
    rw [hNext.extents_eq, kept_cons] at hSteady
    exact ⟨by rw [Steady, hNext.extents_eq]; exact hSteady.2, fun _ => hSteady.1⟩

/-- A byte below 0x80 is in a stretch as little as in U+FFFD. -/
theorem Reads.eq_or_not_mem {b x : UInt8} {tail after : List UInt8} {c : Char}
    (hReads : Reads b tail after c) (hx : x.toNat < 0x80) :
    encodeChar c = b :: tail ∨ x ∉ encodeChar c ∧ x ∉ b :: tail := by
  rcases hReads.whole with hWhole | ⟨rfl, -, hb⟩
  · exact Or.inl hWhole.symm
  · refine Or.inr ⟨fun hMem => ?_, fun hMem => ?_⟩
    · have hChar : (Char.ofNat 0xFFFD).toNat = 0xFFFD := rfl
      have := toNat_of_mem_encodeChar hMem hx
      omega
    · rcases List.mem_cons.1 hMem with rfl | hMem
      · omega
      · have := (hReads.continued x hMem).1
        omega

/-- **Every byte below 0x80 stands where it stood** once steady bytes are written again. -/
theorem getElem?_rewritten {bytes : List UInt8} (hSteady : Steady bytes) {x : UInt8} (hx : x.toNat < 0x80)
    (i : Nat) : (encode (decodeReplacing bytes))[i]? = some x ↔ bytes[i]? = some x := by
  induction bytes using reads_induction generalizing i with
  | nil => rw [decodeReplacing_nil, encode_nil]
  | cons b tail after c hReads ih =>
    have hFirst : ∀ i : Nat, (encodeChar c)[i]? = some x ↔ (b :: tail)[i]? = some x := by
      intro i
      rcases hReads.eq_or_not_mem hx with hSame | ⟨hNew, hOld⟩
      · rw [hSame]
      · exact ⟨fun hGet => absurd (List.mem_of_getElem? hGet) hNew,
          fun hGet => absurd (List.mem_of_getElem? hGet) hOld⟩
    obtain ⟨hAfter, hLength⟩ := hReads.of_steady hSteady
    rw [hReads.decode_eq, encode_cons, ← List.cons_append]
    cases after with
    | nil => rw [decodeReplacing_nil, encode_nil, List.append_nil, List.append_nil, hFirst]
    | cons a rest =>
      have hLength := hLength (List.cons_ne_nil a rest)
      by_cases hi : i < (b :: tail).length
      · rw [List.getElem?_append_left (hLength ▸ hi), List.getElem?_append_left hi, hFirst]
      · rw [List.getElem?_append_right (by omega), List.getElem?_append_right (by omega), ← hLength,
          ih hAfter]

/-! ### Bytes that are not steady -/

theorem between_add (p : Char × Nat) (ps : List (Char × Nat)) (hPos : 0 < p.2) (skipped k : Nat) :
    between (p :: ps) (p.2 + skipped) k = between ps skipped k := by
  rw [between, if_neg (by omega), if_pos (by omega), Nat.add_sub_cancel_left]

theorem between_zero (ps : List (Char × Nat)) (k : Nat) : between ps 0 k = before ps k := by
  cases ps with
  | nil => rfl
  | cons p ps => rw [between, if_pos rfl]

theorem before_zero (ps : List (Char × Nat)) : before ps 0 = [] := by
  cases ps with
  | nil => rfl
  | cons p ps => rw [before, if_pos rfl]

theorem before_add (p : Char × Nat) (ps : List (Char × Nat)) (hPos : 0 < p.2) (k : Nat) :
    before (p :: ps) (p.2 + k) = p.1 :: before ps k := by
  rw [before, if_neg (by omega), if_pos (by omega), Nat.add_sub_cancel_left]

theorem length_before_pos (p : Char × Nat) (ps : List (Char × Nat)) {k : Nat} (hk : k ≠ 0) :
    0 < (before (p :: ps) k).length := by
  rw [before, if_neg hk]
  split <;> exact Nat.succ_pos _

/-- A stretch of one or two bytes in front of a character `q`: written as three bytes, it reaches into
the bytes of `q`, or `q` had one byte and does not end within the four. -/
theorem exists_between_ne_of_short {n : Nat} {q : Char × Nat} (ps : List (Char × Nat)) (hPos : 0 < n)
    (hShort : n < 3) (hq : 0 < q.2) : ∃ skipped k, 0 < k ∧ skipped + k ≤ n + q.2 ∧
      between (rewritten ((Char.ofNat 0xFFFD, n) :: q :: ps)) skipped k ≠
        between ((Char.ofNat 0xFFFD, n) :: q :: ps) skipped k := by
  have hWhole : before (q :: ps) q.2 = [q.1] := by
    rw [← Nat.add_zero q.2, before_add q ps hq, before_zero]
  rw [rewritten, List.map_cons, List.map_cons, length_replacement]
  by_cases hOne : q.2 = 1
  · refine ⟨0, n + q.2, by omega, by omega, fun hEq => ?_⟩
    have hLength := congrArg List.length hEq
    rw [between_zero, between_zero, before_add (Char.ofNat 0xFFFD, n) (q :: ps) hPos, hWhole, before,
      if_neg (by omega)] at hLength
    split at hLength
    next => rw [(by omega : n + q.2 - 3 = 0), before_zero] at hLength; cases hLength
    next => cases hLength
  · refine ⟨n, q.2, hq, Nat.le_refl _, fun hEq => ?_⟩
    have hLength := congrArg List.length hEq
    have hRight : between ((Char.ofNat 0xFFFD, n) :: q :: ps) n q.2 = [q.1] := by
      rw [← hWhole, ← between_zero]
      exact between_add (Char.ofNat 0xFFFD, n) (q :: ps) hPos 0 q.2
    rw [hRight, between, if_neg (by omega), if_neg (by omega), List.length_append, List.length_replicate,
      List.length_singleton] at hLength
    by_cases hPast : q.2 - (3 - n) = 0
    · omega
    · have := length_before_pos (q.1, (encodeChar q.1).length)
        (ps.map fun p => (p.1, (encodeChar p.1).length)) hPast
      omega

/-- **Some part of other bytes is read as something else** once they are written again. -/
theorem exists_between_ne {ps : List (Char × Nat)} (hExtents : ∀ p ∈ ps, IsExtent p)
    (hKept : ¬ Kept ps) : ∃ skipped k, 0 < k ∧ skipped + k ≤ total ps ∧
      between (rewritten ps) skipped k ≠ between ps skipped k := by
  induction ps with
  | nil => exact absurd (by decide) hKept
  | cons p ps ih =>
    cases ps with
    | nil => exact absurd (fun q hq => absurd hq List.not_mem_nil) hKept
    | cons q qs =>
      rw [List.forall_mem_cons] at hExtents
      obtain ⟨⟨hPos, hExtent⟩, hExtents⟩ := hExtents
      rw [kept_cons, not_and] at hKept
      by_cases hSame : p.2 = (encodeChar p.1).length
      · obtain ⟨skipped, k, hk, hInside, hNe⟩ := ih hExtents (hKept hSame)
        refine ⟨p.2 + skipped, k, hk, by rw [total_cons, Nat.add_assoc]; omega, ?_⟩
        rw [between_add p (q :: qs) hPos, rewritten, List.map_cons, ← hSame,
          between_add (p.1, p.2) _ hPos]
        exact hNe
      · obtain ⟨hChar, hShort⟩ := hExtent.resolve_left hSame
        rw [hChar, length_replacement] at hSame
        obtain ⟨skipped, k, hk, hInside, hNe⟩ := exists_between_ne_of_short qs hPos (by omega)
          (hExtents q List.mem_cons_self).1
        rw [← hChar] at hNe
        exact ⟨skipped, k, hk, by rw [total_cons, total_cons]; omega, hNe⟩

end TidySpace.Utf8
