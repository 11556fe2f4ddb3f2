import Mathlib
import TidySpace.Proofs.Positions
import TidySpace.Proofs.Shapes
import TidySpace.Proofs.Stretches

/-! # Sources of bytes

A source can be made of bytes that are no text: these are read with U+FFFD for each stretch that begins
no character, and what was read is written again as the bytes of the source. The offsets of a syntax tree
count the bytes that were given. `ReadsBytes` says that this makes no difference: the tokens have the text
that stands between their offsets in the given bytes, and lines are counted there.

It holds exactly for steady bytes (`readsBytes_iff`), so for the bytes of every text. A stretch of one or
two bytes in front of another character becomes three, and all offsets behind it are off.
-/

namespace TidySpace

/-! ### Lines -/

namespace Text

instance (bytes : List UInt8) (i : Nat) : Decidable (EndsLine bytes i) :=
  inferInstanceAs (Decidable (_ ∨ _))

/-- How many line ends of a buffer stop at or before an offset. -/
def lineEndsTo (bytes : List UInt8) (offset : Nat) : Nat :=
  (List.range offset).countP fun i => EndsLine bytes i

theorem pairwise_breakEnds (pos : Nat) (bytes : List UInt8) :
    (breakEnds pos bytes).Pairwise (· < ·) := by
  have hBehind : ∀ pos bytes, ∀ k ∈ breakEnds pos bytes, pos < k := by
    intro pos bytes k hk
    obtain ⟨i, rfl, -⟩ := mem_breakEnds.1 hk
    omega
  fun_induction breakEnds pos bytes with
  | case1 => exact List.Pairwise.nil
  | case2 pos bytes ih => exact List.pairwise_cons.2 ⟨hBehind _ _, ih⟩
  | case3 pos b bytes _ _ ih => exact List.pairwise_cons.2 ⟨hBehind _ _, ih⟩
  | case4 pos b bytes _ _ ih => exact ih

theorem countP_breakEnds (bytes : List UInt8) (offset : Nat) :
    (breakEnds 0 bytes).countP (· ≤ offset) = lineEndsTo bytes offset := by
  have hPerm : ((breakEnds 0 bytes).filter (· ≤ offset)).Perm
      (((List.range offset).filter fun i => EndsLine bytes i).map (· + 1)) := by
    refine (List.perm_ext_iff_of_nodup ?_ ?_).2 fun k => ?_
    · exact ((pairwise_breakEnds 0 bytes).imp Nat.ne_of_lt).filter _
    · refine List.Pairwise.map (· + 1) (fun a b hNe => ?_) (List.nodup_range.filter _)
      exact fun hEq => hNe (Nat.succ.inj hEq)
    · simp only [List.mem_filter, List.mem_map, List.mem_range, mem_breakEnds, decide_eq_true_eq]
      constructor
      · rintro ⟨⟨i, rfl, hEnds⟩, hk⟩
        exact ⟨i, ⟨by omega, hEnds⟩, by omega⟩
      · rintro ⟨i, ⟨hi, hEnds⟩, rfl⟩
        exact ⟨⟨i, by omega, hEnds⟩, hi⟩
  rw [List.countP_eq_length_filter, hPerm.length_eq, List.length_map, ← List.countP_eq_length_filter,
    lineEndsTo]

end Text

theorem Buffer.lineAt_eq_lineEndsTo (text : List Char) (offset : Nat) :
    (Buffer.ofText text).lineAt offset = 1 + Text.lineEndsTo (Utf8.encode text) offset := by
  show (0 :: Text.breakEnds 0 (Utf8.encode text)).countP _ = _
  rw [List.countP_cons_of_pos (by simp), Text.countP_breakEnds, Nat.add_comm]

theorem Text.endsLine_rewritten {bytes : List UInt8} (hSteady : Utf8.Steady bytes) (i : Nat) :
    EndsLine (Utf8.encode (Utf8.decodeReplacing bytes)) i ↔ EndsLine bytes i := by
  rw [EndsLine, EndsLine, Ne, Ne, Utf8.getElem?_rewritten hSteady (by decide),
    Utf8.getElem?_rewritten hSteady (by decide), Utf8.getElem?_rewritten hSteady (by decide)]

namespace Buffer

theorem line_ofBytes (bytes : List UInt8) {offset : Nat} (h : offset ≤ bytes.length) :
    ((ofBytes bytes).position offset).line =
      1 + Text.lineEndsTo (Utf8.encode (Utf8.decodeReplacing bytes)) offset := by
  show (ofBytes bytes).lineAt ((ofBytes bytes).clamp offset) = _
  rw [ofBytes, clamp_of_le (Nat.le_trans h (Utf8.length_le_rewritten bytes)), lineAt_eq_lineEndsTo]

theorem slice_ofBytes (bytes : List UInt8) {start stop : Nat} (hLe : start ≤ stop)
    (h : stop ≤ bytes.length) : (ofBytes bytes).slice start stop =
      Utf8.between (Utf8.rewritten (Utf8.extents bytes)) start (stop - start) := by
  have hLength := Utf8.length_le_rewritten bytes
  show Utf8.decodeReplacing (TidySpace.slice (Utf8.encode (Utf8.decodeReplacing bytes)) start stop) = _
  rw [slice_natCast, Nat.min_eq_left (by omega), Nat.min_eq_left (by omega),
    Utf8.decodeReplacing_drop_take, Utf8.extents_rewritten]

end Buffer

theorem Utf8.decodeReplacing_slice (bytes : List UInt8) {start stop : Nat} (hLe : start ≤ stop)
    (h : stop ≤ bytes.length) : decodeReplacing (slice bytes start stop) =
      between (extents bytes) start (stop - start) := by
  rw [slice_natCast, Nat.min_eq_left (Nat.le_trans hLe h), Nat.min_eq_left h, decodeReplacing_drop_take]

/-! ### Tokens -/

/-- A tree inside bytes: children lie in order inside their parents. -/
structure Node.Fits (bytes : List UInt8) (root : Node) : Prop where
  forward : root.start ≤ root.stop
  nested : ∀ n ∈ root.preorder, Laid n.start n.stop n.children
  inside : root.stop ≤ bytes.length

namespace Source

/-- The source of these bytes shows the bytes, whatever tree inside them it is made with: a token has the
text between its offsets, and its line and that of every offset is one more than the line ends before. -/
structure ReadsBytes (bytes : List UInt8) : Prop where
  text : ∀ root, Node.Fits bytes root → ∀ t ∈ (ofBytes bytes (some root)).tokens,
    t.text = Utf8.decodeReplacing (slice bytes t.start t.stop)
  startLine : ∀ root, Node.Fits bytes root → ∀ t ∈ (ofBytes bytes (some root)).tokens,
    t.startPos.line = 1 + Text.lineEndsTo bytes t.start.toNat
  line : ∀ offset : Nat, offset ≤ bytes.length →
    ((Buffer.ofBytes bytes).position offset).line = 1 + Text.lineEndsTo bytes offset

theorem eq_token_of_mem_ofBytes {bytes : List UInt8} {root : Node} (hFits : root.Fits bytes) {t : Token}
    (h : t ∈ (ofBytes bytes (some root)).tokens) : ∃ (kind : String) (start stop : Nat),
      t = (Buffer.ofBytes bytes).token kind start stop ∧ start < stop ∧ stop ≤ bytes.length := by
  rw [ofBytes, tokens_ofText] at h
  obtain ⟨n, hn, rfl⟩ := List.mem_map.1 h
  have hNested : Node.Nested [root] := fun m hm =>
    hFits.nested m (Node.preorderAll_singleton root ▸ hm)
  have hLaid : Node.Laid root.start root.stop [root] := ⟨Nat.le_refl _, hFits.forward, Nat.le_refl _⟩
  rw [← Node.leavesAll_singleton] at hn
  obtain ⟨-, hLt, hStop⟩ := hLaid.of_mem_leavesAll hNested n hn
  exact ⟨n.kind, n.start, n.stop, rfl, hLt, Nat.le_trans hStop hFits.inside⟩

theorem token_mem_ofBytes (bytes : List UInt8) {start stop : Nat} (hLt : start < stop) :
    (Buffer.ofBytes bytes).token "identifier" start stop ∈
      (ofBytes bytes (some ⟨"identifier", true, start, stop, []⟩)).tokens := by
  have hLeaf : Node.leaves ⟨"identifier", true, start, stop, []⟩ =
      [⟨"identifier", true, start, stop, []⟩] := by
    refine Node.leaves_of_childless (Node.plain_of_kind ?_).1 rfl hLt
    show "identifier" ∉ _
    decide
  rw [ofBytes, tokens_ofText, hLeaf]
  exact List.mem_singleton.2 rfl

theorem fits_leaf {bytes : List UInt8} {start stop : Nat} (hLt : start < stop)
    (h : stop ≤ bytes.length) : Node.Fits bytes ⟨"identifier", true, start, stop, []⟩ := by
  refine ⟨Nat.le_of_lt hLt, fun n hn => ?_, h⟩
  rw [Node.preorder_eq, Node.preorderAll, List.mem_singleton] at hn
  subst hn
  exact Nat.le_of_lt hLt

theorem readsBytes_of_steady {bytes : List UInt8} (hSteady : Utf8.Steady bytes) : ReadsBytes bytes := by
  have hLines : ∀ offset, Text.lineEndsTo (Utf8.encode (Utf8.decodeReplacing bytes)) offset =
      Text.lineEndsTo bytes offset := fun offset =>
    List.countP_congr fun i _ => by
      simpa only [decide_eq_true_eq] using Text.endsLine_rewritten hSteady i
  refine ⟨fun root hFits t ht => ?_, fun root hFits t ht => ?_, fun offset hOffset => ?_⟩
  · obtain ⟨kind, start, stop, rfl, hLt, hStop⟩ := eq_token_of_mem_ofBytes hFits ht
    have hTotal : start + (stop - start) ≤ Utf8.total (Utf8.extents bytes) := by
      rw [Utf8.total_extents]
      omega
    show (Buffer.ofBytes bytes).slice start stop = Utf8.decodeReplacing (slice bytes start stop)
    rw [Buffer.slice_ofBytes bytes (Nat.le_of_lt hLt) hStop,
      Utf8.decodeReplacing_slice bytes (Nat.le_of_lt hLt) hStop,
      Utf8.between_rewritten (fun p => Utf8.isExtent_of_mem) hSteady hTotal]
  · obtain ⟨kind, start, stop, rfl, hLt, hStop⟩ := eq_token_of_mem_ofBytes hFits ht
    show ((Buffer.ofBytes bytes).position start).line = 1 + Text.lineEndsTo bytes start
    rw [Buffer.line_ofBytes bytes (by omega), hLines]
  · rw [Buffer.line_ofBytes bytes hOffset, hLines]

theorem steady_of_readsBytes {bytes : List UInt8} (h : ReadsBytes bytes) : Utf8.Steady bytes := by
  refine Decidable.byContradiction fun hSteady => ?_
  obtain ⟨start, k, hPos, hInside, hNe⟩ :=
    Utf8.exists_between_ne (fun p => Utf8.isExtent_of_mem) hSteady
  rw [Utf8.total_extents] at hInside
  have hLt : start < start + k := by omega
  have hText := h.text _ (fits_leaf hLt hInside) _ (token_mem_ofBytes bytes hLt)
  have hLeft := Buffer.slice_ofBytes bytes (Nat.le_of_lt hLt) hInside
  have hRight := Utf8.decodeReplacing_slice bytes (Nat.le_of_lt hLt) hInside
  rw [Nat.add_sub_cancel_left] at hLeft hRight
  exact hNe (hLeft.symm.trans (hText.trans hRight))

/-- The bytes of a text are shown as they are. -/
theorem readsBytes_encode (text : List Char) : ReadsBytes (Utf8.encode text) :=
  readsBytes_of_steady (Utf8.steady_encode text)

/-- **Tokens and lines are those of the bytes exactly if the bytes are steady**: every stretch that begins
no character has three bytes, or is the end of the buffer. -/
theorem readsBytes_iff (bytes : List UInt8) : ReadsBytes bytes ↔ Utf8.Steady bytes :=
  ⟨steady_of_readsBytes, readsBytes_of_steady⟩

/-- Two bytes 0xFF in front of a line feed and `a`: the token for the `a` is shown as U+FFFD on line 1. -/
theorem shifted_of_stretches :
    (ofBytes [0xFF, 0xFF, 0x0A, 0x61]
        (some ⟨"program", true, 0, 4, [⟨"identifier", true, 3, 4, []⟩]⟩)).tokens.map
      (fun t => (t.text, t.start, t.stop, t.startPos.line)) = [([Char.ofNat 0xFFFD], 3, 4, 1)] ∧
    Utf8.decodeReplacing (slice [0xFF, 0xFF, 0x0A, 0x61] 3 4) = ['a'] ∧
    1 + Text.lineEndsTo [0xFF, 0xFF, 0x0A, 0x61] 3 = 2 ∧
    ((Buffer.ofBytes [0xFF, 0xFF, 0x0A, 0x61]).position 3).line = 1 ∧
    ¬ ReadsBytes [0xFF, 0xFF, 0x0A, 0x61] := by
  have hLine : ((Buffer.ofBytes [0xFF, 0xFF, 0x0A, 0x61]).position 3).line = 1 := by cbv
  refine ⟨by cbv, by cbv, by decide, hLine, fun h => ?_⟩
  have hCounted : 1 = 1 + Text.lineEndsTo [0xFF, 0xFF, 0x0A, 0x61] 3 :=
    hLine.symm.trans (h.line 3 (by decide))
  exact absurd hCounted (by decide)

end Source

end TidySpace
