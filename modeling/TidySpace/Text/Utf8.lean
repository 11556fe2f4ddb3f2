/-! # UTF-8

Texts are lists of characters and buffers are lists of bytes. `encode` writes a text;
`next` reads one character off a buffer, or one stretch of bytes that begins no character.
Such a stretch is as long as the bytes still could begin a character, and never empty, so the
three readers below differ only in what a stretch becomes: nothing, U+FFFD, or a refusal.
-/

namespace TidySpace.Utf8

/-! ### Writing -/

def encodeChar (c : Char) : List UInt8 :=
  let n := c.toNat
  if n < 0x80 then [UInt8.ofNat n]
  else if n < 0x800 then [UInt8.ofNat (0xC0 + n / 0x40), UInt8.ofNat (0x80 + n % 0x40)]
  else if n < 0x10000 then
    [UInt8.ofNat (0xE0 + n / 0x1000), UInt8.ofNat (0x80 + n / 0x40 % 0x40),
      UInt8.ofNat (0x80 + n % 0x40)]
  else
    [UInt8.ofNat (0xF0 + n / 0x40000), UInt8.ofNat (0x80 + n / 0x1000 % 0x40),
      UInt8.ofNat (0x80 + n / 0x40 % 0x40), UInt8.ofNat (0x80 + n % 0x40)]

def encode (cs : List Char) : List UInt8 := cs.flatMap encodeChar

def width (cs : List Char) : Nat := (encode cs).length

@[simp] theorem encode_nil : encode [] = [] := rfl

@[simp] theorem encode_cons (c : Char) (cs : List Char) :
    encode (c :: cs) = encodeChar c ++ encode cs := rfl

@[simp] theorem encode_append (cs ds : List Char) : encode (cs ++ ds) = encode cs ++ encode ds := by
  simp [encode]

@[simp] theorem width_nil : width [] = 0 := rfl

@[simp] theorem width_cons (c : Char) (cs : List Char) :
    width (c :: cs) = (encodeChar c).length + width cs := by simp [width]

@[simp] theorem width_append (cs ds : List Char) : width (cs ++ ds) = width cs + width ds := by
  simp [width]

theorem length_encodeChar_pos (c : Char) : 0 < (encodeChar c).length := by
  unfold encodeChar
  dsimp only
  split
  · simp
  split
  · simp
  split <;> simp

/-! ### Reading -/

/-- What a leading byte announces: its payload bits, how many bytes continue it, and the range of
the first of them. The range excludes overlong forms, surrogates and numbers past U+10FFFF. -/
structure Lead where
  payload : Nat
  more : Nat
  low : Nat
  high : Nat

/-- The announcement of a leading byte, if the byte can begin a character. -/
def lead? (b : Nat) : Option Lead :=
  if b < 0x80 then some ⟨b, 0, 0x80, 0xBF⟩
  else if b < 0xC2 then none
  else if b < 0xE0 then some ⟨b - 0xC0, 1, 0x80, 0xBF⟩
  else if b = 0xE0 then some ⟨0, 2, 0xA0, 0xBF⟩
  else if b = 0xED then some ⟨0xD, 2, 0x80, 0x9F⟩
  else if b < 0xF0 then some ⟨b - 0xE0, 2, 0x80, 0xBF⟩
  else if b = 0xF0 then some ⟨0, 3, 0x90, 0xBF⟩
  else if b < 0xF4 then some ⟨b - 0xF0, 3, 0x80, 0xBF⟩
  else if b = 0xF4 then some ⟨4, 3, 0x80, 0x8F⟩
  else none

/-- Reads the continuation bytes of a character whose leading bits are `payload`. The result is
the character's number, or nothing at the first byte that does not continue it, and what follows. -/
def continue? (payload low high : Nat) : Nat → List UInt8 → Option Nat × List UInt8
  | 0, rest => (some payload, rest)
  | _ + 1, [] => (none, [])
  | more + 1, b :: rest =>
    if low ≤ b.toNat ∧ b.toNat ≤ high then
      continue? (payload * 0x40 + (b.toNat - 0x80)) 0x80 0xBF more rest
    else (none, b :: rest)

/-- Reads one character, or one stretch of bytes that begins none, off a buffer that starts
with `b`; the rest of the buffer follows. -/
def next (b : UInt8) (rest : List UInt8) : Option Char × List UInt8 :=
  match lead? b.toNat with
  | none => (none, rest)
  | some l =>
    let read := continue? l.payload l.low l.high l.more rest
    (read.1.map Char.ofNat, read.2)

theorem length_continue?_le (payload low high more : Nat) (rest : List UInt8) :
    (continue? payload low high more rest).2.length ≤ rest.length := by
  fun_induction continue? payload low high more rest with
  | case1 => simp
  | case2 => simp
  | case3 => simp only [List.length_cons]; omega
  | case4 => simp

theorem length_next_le (b : UInt8) (rest : List UInt8) : (next b rest).2.length ≤ rest.length := by
  unfold next
  split
  · simp
  · exact length_continue?_le ..

/-- The characters of a buffer in order; `none` stands for each stretch that begins no character. -/
def scan : List UInt8 → List (Option Char)
  | [] => []
  | b :: rest => (next b rest).1 :: scan (next b rest).2
termination_by bytes => bytes.length
decreasing_by
  have := length_next_le b rest
  simp only [List.length_cons]
  omega

/-- Reads a buffer, with U+FFFD for each stretch that begins no character. -/
def decodeReplacing (bytes : List UInt8) : List Char :=
  (scan bytes).map (·.getD (Char.ofNat 0xFFFD))

/-- Reads a buffer, leaving out each stretch that begins no character. -/
def decodeSkipping (bytes : List UInt8) : List Char := (scan bytes).filterMap id

def decode? (bytes : List UInt8) : Option (List Char) := (scan bytes).mapM id

end TidySpace.Utf8
