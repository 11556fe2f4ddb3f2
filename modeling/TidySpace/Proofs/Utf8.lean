import TidySpace.Text.Utf8

/-! # Reading what was written

`Text/Utf8.lean` writes texts as bytes and reads bytes off a buffer. This file joins the two: the
bytes of a text are read back as the text (`scan_encode`), and bytes that are read without a
stretch that begins no character are the bytes of what was read (`eq_encode_of_scan`).

Both rest on one character. `next_encodeChar` says that its bytes are read back, and
`eq_encodeChar_of_next` that nothing else is read as it. The first byte of a character never
continues one, so the bytes of a text can only be cut where a character begins: if the bytes of
some characters stand among the bytes of a text, these characters stand in the text
(`cut_of_encode`).
-/

namespace TidySpace.Utf8

/-- A byte that goes on with a character and begins none. -/
def IsContinuation (b : UInt8) : Prop := 0x80 ≤ b.toNat ∧ b.toNat < 0xC0

instance (b : UInt8) : Decidable (IsContinuation b) :=
  inferInstanceAs (Decidable (0x80 ≤ b.toNat ∧ b.toNat < 0xC0))

/-! ### One character -/

theorem toNat_ofNat {n : Nat} (h : n < 0x100) : (UInt8.ofNat n).toNat = n := by
  rw [UInt8.toNat_ofNat']
  exact Nat.mod_eq_of_lt h

theorem toNat_charOfNat {n : Nat} (h : n < 0xD800 ∨ 0xDFFF < n ∧ n < 0x110000) :
    (Char.ofNat n).toNat = n := by
  have hValid : n.isValidChar := h
  rw [Char.ofNat, dif_pos hValid]
  rfl

theorem toNat_lt (c : Char) : c.toNat < 0xD800 ∨ 0xDFFF < c.toNat ∧ c.toNat < 0x110000 := c.valid

theorem continue?_cons {payload low high more : Nat} {b : UInt8} {rest : List UInt8}
    (h : low ≤ b.toNat ∧ b.toNat ≤ high) :
    continue? payload low high (more + 1) (b :: rest) =
      continue? (payload * 0x40 + (b.toNat - 0x80)) 0x80 0xBF more rest := by
  rw [continue?, if_pos h]

theorem encodeChar_one {c : Char} (h : c.toNat < 0x80) : encodeChar c = [UInt8.ofNat c.toNat] := by
  unfold encodeChar
  dsimp only
  rw [if_pos h]

theorem encodeChar_two {c : Char} (h : 0x80 ≤ c.toNat) (h' : c.toNat < 0x800) :
    encodeChar c = [UInt8.ofNat (0xC0 + c.toNat / 0x40), UInt8.ofNat (0x80 + c.toNat % 0x40)] := by
  unfold encodeChar
  dsimp only
  rw [if_neg (by omega), if_pos h']

theorem encodeChar_three {c : Char} (h : 0x800 ≤ c.toNat) (h' : c.toNat < 0x10000) :
    encodeChar c = [UInt8.ofNat (0xE0 + c.toNat / 0x1000),
      UInt8.ofNat (0x80 + c.toNat / 0x40 % 0x40), UInt8.ofNat (0x80 + c.toNat % 0x40)] := by
  unfold encodeChar
  dsimp only
  rw [if_neg (by omega), if_neg (by omega), if_pos h']

theorem encodeChar_four {c : Char} (h : 0x10000 ≤ c.toNat) :
    encodeChar c = [UInt8.ofNat (0xF0 + c.toNat / 0x40000),
      UInt8.ofNat (0x80 + c.toNat / 0x1000 % 0x40), UInt8.ofNat (0x80 + c.toNat / 0x40 % 0x40),
      UInt8.ofNat (0x80 + c.toNat % 0x40)] := by
  unfold encodeChar
  dsimp only
  rw [if_neg (by omega), if_neg (by omega), if_neg (by omega)]

/-! ### Leading bytes -/

theorem lead?_one {b : Nat} (h : b < 0x80) : lead? b = some ⟨b, 0, 0x80, 0xBF⟩ := by
  rw [lead?, if_pos h]

theorem lead?_two {b : Nat} (h : 0xC2 ≤ b) (h' : b < 0xE0) :
    lead? b = some ⟨b - 0xC0, 1, 0x80, 0xBF⟩ := by
  rw [lead?, if_neg (by omega), if_neg (by omega), if_pos h']

theorem lead?_three {b : Nat} (h : 0xE0 ≤ b) (h' : b < 0xF0) :
    lead? b = some ⟨b - 0xE0, 2, if b = 0xE0 then 0xA0 else 0x80,
      if b = 0xED then 0x9F else 0xBF⟩ := by
  rw [lead?, if_neg (by omega), if_neg (by omega), if_neg (by omega)]
  by_cases hE0 : b = 0xE0
  · subst hE0
    rfl
  by_cases hED : b = 0xED
  · subst hED
    rfl
  rw [if_neg hE0, if_neg hED, if_pos h', if_neg hE0, if_neg hED]

theorem lead?_four {b : Nat} (h : 0xF0 ≤ b) (h' : b < 0xF5) :
    lead? b = some ⟨b - 0xF0, 3, if b = 0xF0 then 0x90 else 0x80,
      if b = 0xF4 then 0x8F else 0xBF⟩ := by
  rw [lead?, if_neg (by omega), if_neg (by omega), if_neg (by omega), if_neg (by omega),
    if_neg (by omega), if_neg (by omega)]
  by_cases hF0 : b = 0xF0
  · subst hF0
    rfl
  by_cases hF4 : b = 0xF4
  · subst hF4
    rfl
  rw [if_neg hF0, if_pos (by omega), if_neg hF0, if_neg hF4]

theorem lead?_eq_some {b : Nat} {l : Lead} (h : lead? b = some l) :
    b < 0x80 ∨ (0xC2 ≤ b ∧ b < 0xE0) ∨ (0xE0 ≤ b ∧ b < 0xF0) ∨ (0xF0 ≤ b ∧ b < 0xF5) := by
  unfold lead? at h
  split at h
  · omega
  split at h
  · simp at h
  split at h
  · omega
  split at h
  · omega
  split at h
  · omega
  split at h
  · omega
  split at h
  · omega
  split at h
  · omega
  split at h
  · omega
  · simp at h

/-! ### Reading a character -/

/-- **The bytes of a character are read back**, whatever follows them. -/
theorem next_encodeChar (c : Char) (bytes : List UInt8) :
    ∃ b rest, encodeChar c = b :: rest ∧ next b (rest ++ bytes) = (some c, bytes) := by
  have hc := toNat_lt c
  have hBack : Char.ofNat c.toNat = c := Char.ofNat_toNat c
  by_cases h1 : c.toNat < 0x80
  · refine ⟨_, _, encodeChar_one h1, ?_⟩
    rw [next, toNat_ofNat (by omega), lead?_one h1]
    simp [continue?]
  by_cases h2 : c.toNat < 0x800
  · refine ⟨_, _, encodeChar_two (by omega) h2, ?_⟩
    rw [next, toNat_ofNat (by omega), lead?_two (by omega) (by omega)]
    dsimp only [List.cons_append, List.nil_append]
    rw [continue?_cons (by rw [toNat_ofNat (by omega)]; omega), continue?, toNat_ofNat (by omega)]
    have hSum : (0xC0 + c.toNat / 0x40 - 0xC0) * 0x40 + (0x80 + c.toNat % 0x40 - 0x80) = c.toNat :=
      by omega
    rw [hSum, Option.map_some, hBack]
  by_cases h3 : c.toNat < 0x10000
  · refine ⟨_, _, encodeChar_three (by omega) h3, ?_⟩
    rw [next, toNat_ofNat (by omega), lead?_three (by omega) (by omega)]
    dsimp only [List.cons_append, List.nil_append]
    rw [continue?_cons (by rw [toNat_ofNat (by omega)]; split <;> split <;> omega),
      continue?_cons (by rw [toNat_ofNat (by omega)]; omega), continue?, toNat_ofNat (by omega),
      toNat_ofNat (by omega)]
    have hSum : ((0xE0 + c.toNat / 0x1000 - 0xE0) * 0x40 +
        (0x80 + c.toNat / 0x40 % 0x40 - 0x80)) * 0x40 + (0x80 + c.toNat % 0x40 - 0x80) = c.toNat :=
      by omega
    rw [hSum, Option.map_some, hBack]
  · refine ⟨_, _, encodeChar_four (by omega), ?_⟩
    rw [next, toNat_ofNat (by omega), lead?_four (by omega) (by omega)]
    dsimp only [List.cons_append, List.nil_append]
    rw [continue?_cons (by rw [toNat_ofNat (by omega)]; split <;> split <;> omega),
      continue?_cons (by rw [toNat_ofNat (by omega)]; omega),
      continue?_cons (by rw [toNat_ofNat (by omega)]; omega), continue?, toNat_ofNat (by omega),
      toNat_ofNat (by omega), toNat_ofNat (by omega)]
    have hSum : (((0xF0 + c.toNat / 0x40000 - 0xF0) * 0x40 +
        (0x80 + c.toNat / 0x1000 % 0x40 - 0x80)) * 0x40 + (0x80 + c.toNat / 0x40 % 0x40 - 0x80)) *
        0x40 + (0x80 + c.toNat % 0x40 - 0x80) = c.toNat := by omega
    rw [hSum, Option.map_some, hBack]

theorem continue?_eq_some {payload low high more n : Nat} {bytes rest : List UInt8}
    (h : continue? payload low high (more + 1) bytes = (some n, rest)) :
    ∃ b bytes', bytes = b :: bytes' ∧ low ≤ b.toNat ∧ b.toNat ≤ high ∧
      continue? (payload * 0x40 + (b.toNat - 0x80)) 0x80 0xBF more bytes' = (some n, rest) := by
  cases bytes with
  | nil => simp [continue?] at h
  | cons b bytes =>
    rw [continue?] at h
    split at h
    next hb => exact ⟨b, bytes, rfl, hb.1, hb.2, h⟩
    next => simp at h

theorem ofNat_eq {n : Nat} {b : UInt8} (h : n = b.toNat) : UInt8.ofNat n = b := by
  subst h
  exact UInt8.ofNat_toNat

/-- **Nothing but the bytes of a character is read as it.** -/
theorem eq_encodeChar_of_next {b : UInt8} {bytes rest : List UInt8} {c : Char}
    (h : next b bytes = (some c, rest)) : b :: bytes = encodeChar c ++ rest := by
  cases hLead : lead? b.toNat with
  | none => simp [next, hLead] at h
  | some l =>
    rw [next, hLead] at h
    simp only [Prod.mk.injEq, Option.map_eq_some_iff] at h
    obtain ⟨⟨n, hn, rfl⟩, hRest⟩ := h
    have hRead : continue? l.payload l.low l.high l.more bytes = (some n, rest) :=
      Prod.ext hn hRest
    rcases lead?_eq_some hLead with h1 | ⟨h1, h2⟩ | ⟨h1, h2⟩ | ⟨h1, h2⟩
    · rw [lead?_one h1] at hLead
      obtain rfl := Option.some.inj hLead
      simp only [continue?, Prod.mk.injEq, Option.some.injEq] at hRead
      obtain ⟨rfl, rfl⟩ := hRead
      have hc : (Char.ofNat b.toNat).toNat = b.toNat := toNat_charOfNat (by omega)
      rw [encodeChar_one (by omega), hc, UInt8.ofNat_toNat]
      rfl
    · rw [lead?_two h1 h2] at hLead
      obtain rfl := Option.some.inj hLead
      obtain ⟨x, bytes, rfl, hx, hx', hRead⟩ := continue?_eq_some hRead
      simp only [continue?, Prod.mk.injEq, Option.some.injEq] at hRead
      obtain ⟨hn, rfl⟩ := hRead
      dsimp only at hx hx' hn
      have hc : (Char.ofNat n).toNat = n := toNat_charOfNat (by omega)
      rw [encodeChar_two (by omega) (by omega), hc, ofNat_eq (b := b) (by omega),
        ofNat_eq (b := x) (by omega)]
      rfl
    · rw [lead?_three h1 h2] at hLead
      obtain rfl := Option.some.inj hLead
      obtain ⟨x, bytes, rfl, hx, hx', hRead⟩ := continue?_eq_some hRead
      obtain ⟨y, bytes, rfl, hy, hy', hRead⟩ := continue?_eq_some hRead
      simp only [continue?, Prod.mk.injEq, Option.some.injEq] at hRead
      obtain ⟨hn, rfl⟩ := hRead
      dsimp only at hx hx' hy hy' hn
      have hLow : b.toNat = 0xE0 → 0xA0 ≤ x.toNat := fun hb => by rwa [if_pos hb] at hx
      have hHigh : b.toNat = 0xED → x.toNat ≤ 0x9F := fun hb => by rwa [if_pos hb] at hx'
      have hx : 0x80 ≤ x.toNat ∧ x.toNat ≤ 0xBF := by
        constructor
        · split at hx <;> omega
        · split at hx' <;> omega
      have hc : (Char.ofNat n).toNat = n := toNat_charOfNat (by omega)
      rw [encodeChar_three (by omega) (by omega), hc, ofNat_eq (b := b) (by omega),
        ofNat_eq (b := x) (by omega), ofNat_eq (b := y) (by omega)]
      rfl
    · rw [lead?_four h1 h2] at hLead
      obtain rfl := Option.some.inj hLead
      obtain ⟨x, bytes, rfl, hx, hx', hRead⟩ := continue?_eq_some hRead
      obtain ⟨y, bytes, rfl, hy, hy', hRead⟩ := continue?_eq_some hRead
      obtain ⟨z, bytes, rfl, hz, hz', hRead⟩ := continue?_eq_some hRead
      simp only [continue?, Prod.mk.injEq, Option.some.injEq] at hRead
      obtain ⟨hn, rfl⟩ := hRead
      dsimp only at hx hx' hy hy' hz hz' hn
      have hLow : b.toNat = 0xF0 → 0x90 ≤ x.toNat := fun hb => by rwa [if_pos hb] at hx
      have hHigh : b.toNat = 0xF4 → x.toNat ≤ 0x8F := fun hb => by rwa [if_pos hb] at hx'
      have hx : 0x80 ≤ x.toNat ∧ x.toNat ≤ 0xBF := by
        constructor
        · split at hx <;> omega
        · split at hx' <;> omega
      have hc : (Char.ofNat n).toNat = n := toNat_charOfNat (by omega)
      rw [encodeChar_four (by omega), hc, ofNat_eq (b := b) (by omega),
        ofNat_eq (b := x) (by omega), ofNat_eq (b := y) (by omega), ofNat_eq (b := z) (by omega)]
      rfl

/-! ### The bytes of a text -/

theorem encodeChar_cons (c : Char) :
    ∃ b rest, encodeChar c = b :: rest ∧ ¬ IsContinuation b ∧ ∀ x ∈ rest, IsContinuation x := by
  have hc := toNat_lt c
  by_cases h1 : c.toNat < 0x80
  · refine ⟨_, _, encodeChar_one h1, ?_, by simp⟩
    rw [IsContinuation, toNat_ofNat (by omega)]
    omega
  by_cases h2 : c.toNat < 0x800
  · refine ⟨_, _, encodeChar_two (by omega) h2, ?_, ?_⟩
    · rw [IsContinuation, toNat_ofNat (by omega)]
      omega
    · simp only [List.mem_singleton, forall_eq]
      rw [IsContinuation, toNat_ofNat (by omega)]
      omega
  by_cases h3 : c.toNat < 0x10000
  · refine ⟨_, _, encodeChar_three (by omega) h3, ?_, ?_⟩
    · rw [IsContinuation, toNat_ofNat (by omega)]
      omega
    · simp only [List.mem_cons, List.not_mem_nil, or_false, forall_eq_or_imp, forall_eq]
      rw [IsContinuation, IsContinuation, toNat_ofNat (by omega), toNat_ofNat (by omega)]
      omega
  · refine ⟨_, _, encodeChar_four (by omega), ?_, ?_⟩
    · rw [IsContinuation, toNat_ofNat (by omega)]
      omega
    · simp only [List.mem_cons, List.not_mem_nil, or_false, forall_eq_or_imp, forall_eq]
      rw [IsContinuation, IsContinuation, IsContinuation, toNat_ofNat (by omega),
        toNat_ofNat (by omega), toNat_ofNat (by omega)]
      omega

theorem toNat_of_mem_encodeChar {b : UInt8} {c : Char} (h : b ∈ encodeChar c) (hb : b.toNat < 0x80) :
    c.toNat = b.toNat := by
  have hc := toNat_lt c
  by_cases h1 : c.toNat < 0x80
  · rw [encodeChar_one h1, List.mem_singleton] at h
    rw [h, toNat_ofNat (by omega)]
  · -- All bytes of a longer character are above.
    have hAbove : ∀ n, 0x80 ≤ n → n < 0x100 → b ≠ UInt8.ofNat n := by
      rintro n hLow hHigh rfl
      rw [toNat_ofNat hHigh] at hb
      omega
    exfalso
    by_cases h2 : c.toNat < 0x800
    · simp only [encodeChar_two (Nat.le_of_not_lt h1) h2, List.mem_cons, List.not_mem_nil, or_false] at h
      rcases h with h | h <;> exact hAbove _ (by omega) (by omega) h
    by_cases h3 : c.toNat < 0x10000
    · simp only [encodeChar_three (Nat.le_of_not_lt h2) h3, List.mem_cons, List.not_mem_nil,
        or_false] at h
      rcases h with h | h | h <;> exact hAbove _ (by omega) (by omega) h
    · simp only [encodeChar_four (Nat.le_of_not_lt h3), List.mem_cons, List.not_mem_nil,
        or_false] at h
      rcases h with h | h | h | h <;> exact hAbove _ (by omega) (by omega) h

theorem exists_of_encode_cons {b : UInt8} {cs : List Char} {bytes : List UInt8}
    (h : encode cs = b :: bytes) (hb : b.toNat < 0x80) : ∃ c rest, cs = c :: rest ∧ c.toNat = b.toNat := by
  cases cs with
  | nil => cases h
  | cons c rest =>
    obtain ⟨b', tail, hChar, -⟩ := encodeChar_cons c
    rw [encode_cons, hChar, List.cons_append, List.cons.injEq] at h
    have hMem : b ∈ encodeChar c := by rw [hChar, h.1]; exact List.mem_cons_self
    exact ⟨c, rest, rfl, toNat_of_mem_encodeChar hMem hb⟩

theorem scan_encodeChar_append (c : Char) (bytes : List UInt8) :
    scan (encodeChar c ++ bytes) = some c :: scan bytes := by
  obtain ⟨b, rest, hEq, hNext⟩ := next_encodeChar c bytes
  rw [hEq, List.cons_append, scan, hNext]

theorem scan_encode_append (cs : List Char) (bytes : List UInt8) :
    scan (encode cs ++ bytes) = cs.map some ++ scan bytes := by
  induction cs with
  | nil => rfl
  | cons c cs ih =>
    rw [encode_cons, List.append_assoc, scan_encodeChar_append, ih]
    rfl

/-- **The bytes of a text are read back as the text.** -/
theorem scan_encode (cs : List Char) : scan (encode cs) = cs.map some := by
  have h := scan_encode_append cs []
  rwa [List.append_nil, scan, List.append_nil] at h

/-- **What is read without a stretch that begins no character has the bytes of what was read.** -/
theorem eq_encode_of_scan {bytes : List UInt8} {cs : List Char} (h : scan bytes = cs.map some) :
    bytes = encode cs := by
  induction cs generalizing bytes with
  | nil =>
    cases bytes with
    | nil => rfl
    | cons b bytes => simp [scan] at h
  | cons c cs ih =>
    cases bytes with
    | nil => simp [scan] at h
    | cons b bytes =>
      rw [scan, List.map_cons, List.cons.injEq] at h
      rw [eq_encodeChar_of_next (Prod.ext h.1 rfl : next b bytes = (some c, (next b bytes).2)),
        encode_cons, ← ih h.2]

@[simp] theorem decode?_encode (cs : List Char) : decode? (encode cs) = some cs := by
  rw [decode?, scan_encode]
  induction cs with
  | nil => rfl
  | cons c cs ih =>
    rw [List.map_cons, List.mapM_cons, ih]
    rfl

@[simp] theorem decodeReplacing_encode (cs : List Char) : decodeReplacing (encode cs) = cs := by
  rw [decodeReplacing, scan_encode, List.map_map]
  exact List.map_id cs

theorem eq_map_some_of_mapM {xs : List (Option Char)} {cs : List Char} (h : xs.mapM id = some cs) :
    xs = cs.map some := by
  induction xs generalizing cs with
  | nil =>
    cases h
    rfl
  | cons x xs ih =>
    rw [List.mapM_cons] at h
    obtain ⟨c, hc, h⟩ := Option.bind_eq_some_iff.1 h
    obtain ⟨rest, hRest, h⟩ := Option.bind_eq_some_iff.1 h
    cases h
    rw [List.map_cons, ← ih hRest, ← hc]
    rfl

/-- **Bytes that are read as characters** are the bytes of these characters. -/
theorem eq_encode_of_decode? {bytes : List UInt8} {cs : List Char} (h : decode? bytes = some cs) :
    bytes = encode cs :=
  eq_encode_of_scan (eq_map_some_of_mapM h)

theorem encode_injective {cs ds : List Char} (h : encode cs = encode ds) : cs = ds := by
  have hDecode := congrArg decodeReplacing h
  rwa [decodeReplacing_encode, decodeReplacing_encode] at hDecode

theorem map_some_getD {xs : List (Option Char)} {d : Char} (h : d ∉ xs.map (·.getD d)) :
    xs = (xs.map (·.getD d)).map some := by
  induction xs with
  | nil => rfl
  | cons x xs ih =>
    rw [List.map_cons, List.mem_cons, not_or] at h
    cases x with
    | none => exact absurd rfl h.1
    | some c =>
      rw [List.map_cons, List.map_cons, ← ih h.2]
      rfl

/-- **Bytes in whose reading nothing was replaced** are the bytes of what was read. -/
theorem eq_encode_of_decodeReplacing {bytes : List UInt8} {cs : List Char}
    (h : decodeReplacing bytes = cs) (hPlain : Char.ofNat 0xFFFD ∉ cs) : bytes = encode cs := by
  subst h
  exact eq_encode_of_scan (map_some_getD hPlain)

/-! ### Cutting the bytes of a text -/

theorem prefix_of_encode {text cs : List Char} {bytes : List UInt8}
    (h : encode text = encode cs ++ bytes) : ∃ post, text = cs ++ post ∧ bytes = encode post := by
  have hScan := congrArg scan h
  rw [scan_encode, scan_encode_append] at hScan
  obtain ⟨front, post, rfl, hFront, hPost⟩ := List.map_eq_append_iff.1 hScan
  obtain rfl : front = cs := (List.map_inj_right fun _ _ => Option.some.inj).1 hFront
  refine ⟨post, rfl, ?_⟩
  exact eq_encode_of_scan hPost.symm

/-- **The bytes of a text are cut at characters only.** Where the bytes of some characters stand
among those of a text, these characters stand in the text, and the cuts are beside them. -/
theorem cut_of_encode {text : List Char} {c : Char} {cs : List Char} {front back : List UInt8}
    (h : encode text = front ++ (encode (c :: cs) ++ back)) :
    ∃ pre post, text = pre ++ (c :: cs ++ post) ∧ front = encode pre ∧ back = encode post := by
  induction text generalizing front with
  | nil =>
    obtain ⟨b, rest, hb, -, -⟩ := encodeChar_cons c
    simp [hb] at h
  | cons d ds ih =>
    cases front with
    | nil =>
      obtain ⟨post, hText, hBack⟩ := prefix_of_encode (h.trans (List.nil_append _))
      exact ⟨[], post, hText, rfl, hBack⟩
    | cons x front =>
      -- The cut cannot fall into `d`, for the byte behind it begins a character.
      obtain ⟨b, rest, hb, hLead, -⟩ := encodeChar_cons c
      obtain ⟨y, tail, hd, -, hTail⟩ := encodeChar_cons d
      rw [encode_cons, hd, List.cons_append, List.cons_append, List.cons.injEq] at h
      obtain ⟨rfl, h⟩ := h
      rcases List.append_eq_append_iff.1 h with ⟨skipped, rfl, hRest⟩ | ⟨cut, rfl, hRest⟩
      · obtain ⟨pre, post, rfl, rfl, rfl⟩ := ih hRest
        refine ⟨d :: pre, post, rfl, ?_, rfl⟩
        rw [encode_cons, hd, List.cons_append]
      · cases cut with
        | nil =>
          obtain ⟨pre, post, rfl, hPre, rfl⟩ := @ih [] (by simpa using hRest.symm)
          refine ⟨d :: pre, post, rfl, ?_, rfl⟩
          rw [encode_cons, ← hPre, hd, List.append_nil, List.append_nil]
        | cons z cut =>
          rw [encode_cons, hb, List.cons_append, List.cons_append, List.cons_append,
            List.cons.injEq] at hRest
          obtain ⟨rfl, -⟩ := hRest
          exact absurd (hTail b (by simp)) hLead

/-! ### Characters that are cut -/

theorem lead?_encodeChar (c : Char) :
    ∃ b rest, encodeChar c = b :: rest ∧ (lead? b.toNat).map Lead.more = some rest.length := by
  have hc := toNat_lt c
  by_cases h1 : c.toNat < 0x80
  · refine ⟨_, _, encodeChar_one h1, ?_⟩
    rw [toNat_ofNat (by omega), lead?_one h1]
    rfl
  by_cases h2 : c.toNat < 0x800
  · refine ⟨_, _, encodeChar_two (by omega) h2, ?_⟩
    rw [toNat_ofNat (by omega), lead?_two (by omega) (by omega)]
    rfl
  by_cases h3 : c.toNat < 0x10000
  · refine ⟨_, _, encodeChar_three (by omega) h3, ?_⟩
    rw [toNat_ofNat (by omega), lead?_three (by omega) (by omega)]
    rfl
  · refine ⟨_, _, encodeChar_four (by omega), ?_⟩
    rw [toNat_ofNat (by omega), lead?_four (by omega) (by omega)]
    rfl

/-- What is left over by reading too few bytes is a part of them, and no character was read. -/
theorem continue?_of_length_lt {payload low high more : Nat} {bytes : List UInt8}
    (h : bytes.length < more) :
    (continue? payload low high more bytes).1 = none ∧
      (continue? payload low high more bytes).2 ⊆ bytes := by
  fun_induction continue? payload low high more bytes with
  | case1 => simp at h
  | case2 => simp
  | case3 _ _ _ _ _ _ _ ih =>
    obtain ⟨hNone, hRest⟩ := ih (by simpa using h)
    exact ⟨hNone, List.subset_cons_of_subset _ hRest⟩
  | case4 => simp

theorem decodeSkipping_of_continuation {bytes : List UInt8} (h : ∀ b ∈ bytes, IsContinuation b) :
    decodeSkipping bytes = [] := by
  induction bytes with
  | nil => simp [decodeSkipping, scan]
  | cons b bytes ih =>
    rw [List.forall_mem_cons] at h
    obtain ⟨hLow, hHigh⟩ := h.1
    have hNext : next b bytes = (none, bytes) := by
      rw [next, lead?, if_neg (by omega), if_pos (by omega)]
    have hRest := ih h.2
    rw [decodeSkipping] at hRest ⊢
    rw [scan, hNext, List.filterMap_cons]
    exact hRest

/-- **A character that is cut off at the end of a buffer is left out.** -/
theorem decodeSkipping_take {c : Char} {n : Nat} (h : n < (encodeChar c).length) :
    decodeSkipping ((encodeChar c).take n) = [] := by
  cases n with
  | zero => simp [decodeSkipping, scan]
  | succ n =>
    obtain ⟨b, rest, hChar, -, hRest⟩ := encodeChar_cons c
    obtain ⟨b', rest', hChar', hAnnounced⟩ := lead?_encodeChar c
    obtain ⟨l, hLead, hMore⟩ := Option.map_eq_some_iff.1 hAnnounced
    rw [hChar] at hChar' h ⊢
    cases hChar'
    have hShort : (rest.take n).length < l.more := by
      rw [List.length_cons] at h
      rw [List.length_take]
      omega
    obtain ⟨hNone, hSub⟩ := @continue?_of_length_lt l.payload l.low l.high _ _ hShort
    have hSkip := decodeSkipping_of_continuation fun x hx =>
      hRest x (List.mem_of_mem_take (hSub hx))
    rw [decodeSkipping] at hSkip ⊢
    rw [List.take_succ_cons, scan, next, hLead, List.filterMap_cons]
    simp only [hNone]
    exact hSkip

theorem decodeSkipping_encode_append (cs : List Char) (bytes : List UInt8) :
    decodeSkipping (encode cs ++ bytes) = cs ++ decodeSkipping bytes := by
  rw [decodeSkipping, scan_encode_append, List.filterMap_append, List.filterMap_map]
  simp [decodeSkipping]

/-! ### Boundaries of characters -/

def boundaries : List Char → List Nat
  | [] => [0]
  | c :: cs => 0 :: (boundaries cs).map ((encodeChar c).length + ·)

/-- An offset of a text that cuts no character. -/
def IsBoundary (text : List Char) (k : Nat) : Prop := k ∈ boundaries text

instance (text : List Char) (k : Nat) : Decidable (IsBoundary text k) :=
  inferInstanceAs (Decidable (k ∈ boundaries text))

theorem isBoundary_iff {text : List Char} {k : Nat} :
    IsBoundary text k ↔ ∃ pre post, text = pre ++ post ∧ width pre = k := by
  rw [IsBoundary]
  induction text generalizing k with
  | nil =>
    rw [boundaries, List.mem_singleton]
    constructor
    · rintro rfl
      exact ⟨[], [], rfl, rfl⟩
    · rintro ⟨pre, post, h, rfl⟩
      rw [(List.append_eq_nil_iff.1 h.symm).1]
      rfl
  | cons c cs ih =>
    rw [boundaries, List.mem_cons, List.mem_map]
    constructor
    · rintro (rfl | ⟨n, hn, rfl⟩)
      · exact ⟨[], c :: cs, rfl, rfl⟩
      · obtain ⟨pre, post, rfl, rfl⟩ := ih.1 hn
        exact ⟨c :: pre, post, rfl, width_cons c pre⟩
    · rintro ⟨pre, post, h, rfl⟩
      cases pre with
      | nil => exact Or.inl rfl
      | cons d pre =>
        rw [List.cons_append, List.cons.injEq] at h
        obtain ⟨rfl, rfl⟩ := h
        exact Or.inr ⟨width pre, ih.2 ⟨pre, post, rfl, rfl⟩, (width_cons c pre).symm⟩

theorem IsBoundary.le_width {text : List Char} {k : Nat} (h : IsBoundary text k) :
    k ≤ width text := by
  obtain ⟨pre, post, rfl, rfl⟩ := isBoundary_iff.1 h
  rw [width_append]
  exact Nat.le_add_right ..

theorem eq_nil_of_width {cs : List Char} (h : width cs = 0) : cs = [] := by
  cases cs with
  | nil => rfl
  | cons c cs =>
    have := length_encodeChar_pos c
    rw [width_cons] at h
    omega

theorem exists_between {pre post pre' post' : List Char} (h : pre ++ post = pre' ++ post')
    (hWidth : width pre ≤ width pre') : ∃ mid, pre' = pre ++ mid ∧ post = mid ++ post' := by
  rcases List.append_eq_append_iff.1 h with ⟨mid, rfl, rfl⟩ | ⟨mid, rfl, rfl⟩
  · exact ⟨mid, rfl, rfl⟩
  · have hNil : mid = [] := eq_nil_of_width (by rw [width_append] at hWidth; omega)
    subst hNil
    exact ⟨[], by simp, by simp⟩

theorem exists_before {cs : List Char} {n : Nat} (h : n ≤ width cs) :
    ∃ before after, cs = before ++ after ∧ width before ≤ n ∧
      (∀ c rest, after = c :: rest → n < width before + (encodeChar c).length) ∧
      (after = [] → n = width before) := by
  induction cs generalizing n with
  | nil =>
    rw [width_nil, Nat.le_zero] at h
    subst h
    exact ⟨[], [], rfl, Nat.le_refl _, by simp, by simp⟩
  | cons c cs ih =>
    rw [width_cons] at h
    by_cases hc : n < (encodeChar c).length
    · refine ⟨[], c :: cs, rfl, Nat.zero_le _, ?_, by simp⟩
      intro d rest hEq
      obtain ⟨rfl, -⟩ := List.cons.inj hEq
      simpa using hc
    · obtain ⟨before, after, rfl, hLe, hLt, hEnd⟩ := @ih (n - (encodeChar c).length) (by omega)
      refine ⟨c :: before, after, rfl, ?_, ?_, ?_⟩
      · rw [width_cons]
        omega
      · intro d rest hEq
        have := hLt d rest hEq
        rw [width_cons]
        omega
      · intro hNil
        have := hEnd hNil
        rw [width_cons]
        omega

end TidySpace.Utf8
