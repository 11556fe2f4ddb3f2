import TidySpace.Proofs.Convergence

/-! # Batches that change nothing

A batch of edits can leave a text as it is, although each of its edits changes it: a space that is put
in front of a space does nothing if the space behind it is deleted. The edits of the two rules do not
work against each other like that. Of the accepted edits of a batch, look at the first: it puts a space
where none begins, or it deletes a run of white space, and then the character behind the run moves to
where the run began, because no other edit starts there. That character is no white space, or it ends
the line. So the text changes there, and a batch that changes nothing has no edits
(`eq_nil_of_unchanged`).

This needs a tree that is well-formed, and that no token behind an opening brace begins with white
space (`BracesTight`). A space that is missing there would be put in front of that token, in vain.
-/

namespace TidySpace

open Utf8 (width encode encodeChar)

/-! ### Characters at offsets -/

/-- A character of a text that begins at an offset. -/
def Stands (text : List Char) (k : Int) (c : Char) : Prop :=
  ∃ pre post, text = pre ++ c :: post ∧ k = width pre

theorem Stands.cut {text pre post : List Char} {k : Int} {c : Char} (h : Stands text k c)
    (hText : text = pre ++ post) (hk : k = width pre) : ∃ rest, post = c :: rest := by
  obtain ⟨pre', post', hText', hWidth⟩ := h
  have hEq : width pre = width pre' := Int.ofNat_inj.1 (hk.symm.trans hWidth)
  obtain ⟨mid, rfl, rfl⟩ := Utf8.exists_between (hText.symm.trans hText') (Nat.le_of_eq hEq)
  obtain rfl : mid = [] := by
    refine Utf8.eq_nil_of_width ?_
    rw [Utf8.width_append] at hEq
    omega
  exact ⟨post', rfl⟩

theorem Stands.eq {text : List Char} {k : Int} {c d : Char} (h : Stands text k c)
    (h' : Stands text k d) : c = d := by
  obtain ⟨pre, post, hText, hk⟩ := h
  obtain ⟨rest, hRest⟩ := h'.cut hText hk
  exact (List.cons.inj hRest).1

namespace Edit

variable {text mid : List Char} {e : Edit} {es : List Edit}

theorem Cuts.stands {c : Char} (h : e.Cuts text (c :: mid)) : Stands text e.start c := by
  obtain ⟨pre, post, hText, hStart, -⟩ := h
  exact ⟨pre, mid ++ post, hText, hStart⟩

theorem eq_of_unchanged {pre post : List Char} (hOrdered : Ordered (e :: es))
    (hText : text = pre ++ (mid ++ post)) (hStart : e.start = width pre)
    (hStop : e.stop = width pre + width mid) (h : spliceAll (e :: es) (encode text) = encode text) :
    encode e.replacement ++ spliceAll (es.map (back (width pre + width mid))) (encode post) =
      encode mid ++ encode post := by
  rw [hText, Utf8.encode_append, Utf8.encode_append, spliceAll_cons hOrdered hStart hStop] at h
  exact List.append_cancel_left h

/-- **A space changes nothing** only in front of a space. -/
theorem stands_of_inserted (hOrdered : Ordered (e :: es)) (hCuts : e.Cuts text [])
    (hSpace : e.replacement = [' ']) (h : spliceAll (e :: es) (encode text) = encode text) :
    Stands text e.start ' ' := by
  obtain ⟨pre, post, hText, hStart, hStop⟩ := hCuts
  have hRest := eq_of_unchanged hOrdered hText hStart hStop h
  rw [hSpace] at hRest
  obtain ⟨rest, rfl, -⟩ := Utf8.prefix_of_encode hRest.symm
  exact ⟨pre, rest, hText, hStart⟩

theorem Cuts.exists_first {f : Edit} {run front post : List Char} (h : f.Cuts text run)
    (hText : text = front ++ post) (hBehind : (width front : Int) < f.start) :
    ∃ d rest, post = d :: rest ∧ (width front : Int) + (encodeChar d).length ≤ f.start := by
  obtain ⟨pre, back, hText', hStart, -⟩ := h
  obtain ⟨gone, rfl, hGone⟩ := Utf8.exists_between (hText.symm.trans hText') (by omega)
  rw [Utf8.width_append] at hStart
  cases gone with
  | nil =>
    rw [Utf8.width_nil] at hStart
    omega
  | cons d gone =>
    rw [Utf8.width_cons d gone] at hStart
    exact ⟨d, gone ++ _, hGone, by omega⟩

/-- **A deletion changes nothing** only if the same character stands at both ends of its range, unless
another edit starts where it stops. -/
theorem stands_of_deleted {c : Char} (hOrdered : Ordered (e :: es)) (hCuts : e.Cuts text (c :: mid))
    (hNone : e.replacement = []) (hOthers : ∀ f ∈ es, ∃ run, f.Cuts text run)
    (hApart : ∀ f ∈ es, f.start ≠ e.stop) (h : spliceAll (e :: es) (encode text) = encode text) :
    Stands text e.stop c := by
  obtain ⟨pre, post, hText, hStart, hStop⟩ := hCuts
  have hRest := eq_of_unchanged hOrdered hText hStart hStop h
  rw [hNone] at hRest
  have hFirst : ∀ f ∈ es, ∃ d rest, post = d :: rest ∧
      (width (pre ++ (c :: mid)) : Int) + (encodeChar d).length ≤ f.start := by
    intro f hf
    obtain ⟨run, hRun⟩ := hOthers f hf
    have hLe := hOrdered.head_le f hf
    have hNe := hApart f hf
    refine hRun.exists_first (by rw [hText, List.append_assoc]) ?_
    rw [Utf8.width_append]
    omega
  cases post with
  | nil =>
    -- No edit fits behind the end of the text.
    have hNil : es = [] := by
      refine List.eq_nil_iff_forall_not_mem.2 fun f hf => ?_
      obtain ⟨d, rest, hEnd, -⟩ := hFirst f hf
      cases hEnd
    have := Utf8.length_encodeChar_pos c
    have hLength := congrArg List.length hRest
    rw [hNil] at hLength
    simp [spliceAll, Utf8.encode] at hLength
    omega
  | cons d post =>
    -- The edits behind the first start behind the character that follows it.
    have hBehind : ∀ f ∈ es.map (back (width pre + width (c :: mid))),
        ((encodeChar d).length : Int) ≤ f.start := by
      intro _ hMoved
      obtain ⟨f, hf, rfl⟩ := List.mem_map.1 hMoved
      obtain ⟨_, _, hEq, hLe⟩ := hFirst f hf
      obtain ⟨rfl, -⟩ := List.cons.inj hEq
      rw [Utf8.width_append] at hLe
      rw [start_back]
      omega
    have hForward : ∀ f ∈ es.map (back (width pre + width (c :: mid))), f.start ≤ f.stop :=
      (hOrdered.tail.map_back _).forward
    rw [Utf8.encode_cons d, spliceAll_front _ hForward hBehind] at hRest
    generalize spliceAll _ (encode post) = moved at hRest
    have hFront : encode (c :: mid ++ d :: post) = encode [d] ++ moved := by
      rw [Utf8.encode_append, Utf8.encode_cons d post, ← hRest]
      simp [encode]
    obtain ⟨rest, hEq, -⟩ := Utf8.prefix_of_encode hFront
    obtain ⟨rfl, -⟩ := List.cons.inj hEq
    refine ⟨pre ++ (c :: mid), post, ?_, ?_⟩
    · rw [hText, List.append_assoc]
    · rw [hStop, Utf8.width_append]
      rfl

end Edit

/-! ### Edits of trailing runs -/

/-- An edit that deletes spaces and tabs up to the end of a line. -/
structure Edit.Trims (text : List Char) (e : Edit) : Prop where
  replacement : e.replacement = []
  first : ∃ c mid, e.Cuts text (c :: mid) ∧ Text.isGap c = true
  last : ∃ c, Stands text (e.stop - 1) c ∧ Text.isGap c = true
  ends : ∀ c, Stands text e.stop c → c = '\r' ∨ c = '\n'

theorem width_of_isGap {c : Char} (h : Text.isGap c = true) : width [c] = 1 := by
  rw [Text.isGap, Bool.or_eq_true, beq_iff_eq, beq_iff_eq] at h
  rcases h with rfl | rfl <;> rfl

theorem TrailingRun.trims {text : List Char} {skip : Bool} {run : TrailingRun}
    (h : run ∈ scan text skip) : Edit.Trims text ⟨run.start, run.stop, []⟩ := by
  obtain ⟨l, hLine, hRun⟩ := List.mem_filterMap.1 h
  obtain ⟨front, rest, hPieces, hPlace, -⟩ := Text.mem_place hLine
  obtain ⟨mid, hContent, hSome, hGap, hStart, hStop⟩ := ofLine?_eq_some hRun
  generalize Text.dropTrailing Text.isGap l.content = kept at hContent hStart
  rw [List.all_eq_true] at hGap
  have hText : text = Text.joined front ++ kept ++ (mid ++ (l.ending.chars ++ Text.joined rest)) := by
    rw [← Text.joined_pieces text, hPieces, Text.joined_append, Text.joined_cons, hContent]
    simp only [List.append_assoc]
  rw [hContent, Utf8.width_append] at hStop
  have hWidth := Utf8.width_append (Text.joined front) kept
  refine ⟨rfl, ?_, ?_, ?_⟩
  · obtain ⟨c, tail, rfl⟩ := List.exists_cons_of_ne_nil hSome
    refine ⟨c, tail, ⟨_, _, hText, ?_, ?_⟩, hGap c List.mem_cons_self⟩
    · show (run.start : Int) = _
      omega
    · show (run.stop : Int) = _
      omega
  · obtain ⟨init, c, rfl⟩ := (List.eq_nil_or_concat mid).resolve_left hSome
    rw [List.concat_eq_append] at *
    have hc : Text.isGap c = true := hGap c (List.mem_append_right init List.mem_cons_self)
    refine ⟨c, ⟨Text.joined front ++ kept ++ init, l.ending.chars ++ Text.joined rest, ?_, ?_⟩, hc⟩
    · rw [hText]
      simp only [List.append_assoc, List.singleton_append]
    · have := width_of_isGap hc
      rw [Utf8.width_append] at hStop ⊢
      show (run.stop : Int) - 1 = _
      omega
  · intro c hc
    rw [← List.append_assoc] at hText
    obtain ⟨tail, hTail⟩ := hc.cut hText (by
      rw [Utf8.width_append]
      show (run.stop : Int) = _
      omega)
    cases hEnd : l.ending with
    | absent =>
      rw [hEnd, Text.eq_nil_of_absent hPieces hEnd] at hTail
      cases hTail
    | crlf | cr | lf =>
      rw [hEnd] at hTail
      simp only [Text.LineEnd.chars, List.cons_append, List.cons.injEq] at hTail
      simp [← hTail.1]

/-! ### Edits of gaps -/

/-- No token behind an opening brace begins with white space. -/
def Source.BracesTight (s : Source) : Prop :=
  (s.tokens.map Token.text).IsChain fun left right =>
    left = ['\x7b'] → ∀ c ∈ right.head?, Text.isBlank c = false

theorem Source.BracesTight.not_blank {s : Source} {left right : Token} {c : Char} {cs : List Char}
    (h : s.BracesTight) (hAdjacent : s.Adjacent left right) (hBrace : left.text = ['\x7b'])
    (hText : right.text = c :: cs) : Text.isBlank c = false := by
  obtain ⟨front, back, hTokens⟩ := hAdjacent
  rw [BracesTight, hTokens, List.map_append, List.map_cons, List.map_cons] at h
  have hPair := (List.isChain_append_cons_cons.1 h).2.1
  rw [hText] at hPair
  exact hPair hBrace c rfl

/-- What an edit of the curly rule does to the gap of two tokens, and why. -/
inductive CurlySpacing.Mends (b : Buffer) (left right : Token) : Edit → Prop where
  | opening : left.text = ['\x7b'] → b.isSpacedPair left right = false →
      Mends b left right (Edit.space left.stop)
  | closing : right.text = ['\x7d'] → b.isSpacedPair left right = false →
      Mends b left right (Edit.space right.start)
  | deletion : left.text = ['\x7b'] ∨ right.text = ['\x7d'] → b.isSpacedPair left right = true →
      b.gapIsBlank left right = true → left.stopPos.line = right.startPos.line →
      Mends b left right ⟨left.stop, right.start, []⟩

namespace CurlySpacing

theorem exists_mends {s : Source} {o : CurlyOptions} {c : BraceConstruct} {r : Report} {e : Edit}
    (hOrderly : s.Orderly) (h : r ∈ reports s o c) (he : e ∈ r.fix) :
    ∃ left right, s.Adjacent left right ∧ Mends s.toBuffer left right e := by
  obtain ⟨t, left, right, must, brace, fault, hBraces, hChecked, hFault, hFix⟩ := mem_reports h
  have hFound := found_of_braces? hBraces
  have hAdjacent := hChecked.adjacent hOrderly hFound
  obtain ⟨hLine, hCase⟩ := Buffer.pairFault?_eq_some hFault
  rw [hFix] at he
  refine ⟨left, right, hAdjacent, ?_⟩
  rcases mem_mend he with ⟨rfl, rfl⟩ | ⟨rfl, hBlank, rfl⟩
  · have hUnspaced : s.toBuffer.isSpacedPair left right = false := by
      rcases hCase with h | h
      · exact h.2.2
      · cases h.1
    cases hChecked with
    | opening => exact .opening hFound.opening_text hUnspaced
    | closing => exact .closing hFound.closing_text hUnspaced
  · have hSpaced : s.toBuffer.isSpacedPair left right = true := by
      rcases hCase with h | h
      · cases h.1
      · exact h.2.2
    refine .deletion ?_ hSpaced hBlank hLine
    cases hChecked with
    | opening => exact Or.inl hFound.opening_text
    | closing => exact Or.inr hFound.closing_text

end CurlySpacing

section Gaps

variable {text : List Char} {root : Node} {left right t : Token}

theorem Source.exists_cut (hWell : root.WellFormed text)
    (ht : t ∈ (Source.ofText text (some root)).tokens) :
    ∃ pre post, text = pre ++ (t.text ++ post) ∧ t.start = width pre ∧
      t.stop = width pre + width t.text := by
  have hLt := (Source.orderly_ofText hWell).forward t ht
  obtain ⟨start, stop, hStart, hStop, hFirst, hLast⟩ := Source.boundary_of_mem hWell ht
  obtain ⟨_, a, b, rfl⟩ := Source.eq_token_of_mem ht
  obtain rfl : a = start := Int.ofNat_inj.1 hStart
  obtain rfl : b = stop := Int.ofNat_inj.1 hStop
  obtain ⟨pre, post, hText, ha, hb⟩ := Buffer.exists_cut hFirst hLast (Nat.le_of_lt (Int.ofNat_lt.1 hLt))
  exact ⟨pre, post, hText, congrArg Int.ofNat ha, congrArg Int.ofNat hb⟩

theorem Source.exists_stands (hWell : root.WellFormed text)
    (ht : t ∈ (Source.ofText text (some root)).tokens) :
    ∃ c cs, t.text = c :: cs ∧ Stands text t.start c := by
  obtain ⟨pre, post, hText, hStart, hStop⟩ := Source.exists_cut hWell ht
  have hLt := (Source.orderly_ofText hWell).forward t ht
  cases hChars : t.text with
  | nil =>
    rw [hChars, Utf8.width_nil] at hStop
    omega
  | cons c cs =>
    rw [hChars] at hText
    exact ⟨c, cs, rfl, pre, cs ++ post, hText, hStart⟩

theorem Source.exists_gap (hWell : root.WellFormed text)
    (hAdjacent : (Source.ofText text (some root)).Adjacent left right) :
    ∃ pre c post, text = pre ++ ((Buffer.ofText text).gap left right ++ c :: post) ∧
      left.stop = width pre ∧ right.start = width pre + width ((Buffer.ofText text).gap left right) := by
  have hLe := ((Source.orderly_ofText hWell).of_adjacent hAdjacent).1
  obtain ⟨_, x, -, hx, -, hFirst⟩ := Source.boundary_of_mem hWell hAdjacent.left_mem
  obtain ⟨y, _, hy, -, hLast, -⟩ := Source.boundary_of_mem hWell hAdjacent.right_mem
  obtain ⟨c, cs, -, hStands⟩ := Source.exists_stands hWell hAdjacent.right_mem
  rw [Buffer.gap, hx, hy]
  rw [hx, hy] at hLe
  rw [hy] at hStands
  obtain ⟨pre, post, hText, hStart, hStop⟩ := Buffer.exists_cut hFirst hLast (Int.ofNat_le.1 hLe)
  have hCut : text = (pre ++ (Buffer.ofText text).slice x y) ++ post := by
    rw [List.append_assoc]
    exact hText
  obtain ⟨rest, rfl⟩ := hStands.cut hCut (by
    rw [Utf8.width_append]
    exact congrArg Int.ofNat hStop)
  exact ⟨pre, c, rest, hText, congrArg Int.ofNat hStart, congrArg Int.ofNat hStop⟩

/-- **A spaced gap on one line begins with no line end.** -/
theorem Buffer.first_of_spaced {x y : Int} {pre gap post : List Char} {c d : Char}
    (hText : text = pre ++ (d :: gap ++ c :: post)) (hx : x = width pre)
    (hy : y = width pre + width (d :: gap)) (hSpaced : Gap.isSpaced (d :: gap) = true)
    (hLine : ((Buffer.ofText text).position x).line = ((Buffer.ofText text).position y).line) :
    d ≠ '\r' ∧ d ≠ '\n' := by
  obtain ⟨b, back, hb, -, -⟩ := Utf8.encodeChar_cons c
  have hBytes : encode text = encode pre ++ (encode (d :: gap) ++ b :: (back ++ encode post)) := by
    rw [hText, Utf8.encode_append, Utf8.encode_append, Utf8.encode_cons c, hb]
    rfl
  have hNone := (Edit.position_line_eq_iff hBytes hx hy).1 hLine
  have hFirst := Utf8.length_encodeChar_pos d
  have hLength : (encode (d :: gap)).length = (encodeChar d).length + (encode gap).length := by
    rw [Utf8.encode_cons, List.length_append]
  constructor
  · rintro rfl
    by_cases hNext : (encode ('\r' :: gap) ++ [b])[1]? = some 0x0A
    · -- The pair ends the line behind its second byte, which is in the gap.
      refine hNone 1 ?_ (Or.inl hNext)
      cases gap with
      | nil => simp [Gap.isSpaced, Gap.dropComments, Text.isGap] at hSpaced
      | cons e gap =>
        have := Utf8.length_encodeChar_pos e
        rw [Utf8.encode_cons e, List.length_append] at hLength
        omega
    · exact hNone 0 (by omega) (Or.inr ⟨rfl, hNext⟩)
  · rintro rfl
    exact hNone 0 (by omega) (Or.inl rfl)

end Gaps

/-! ### Edits of the rules -/

/-- What the rules propose for a text and its tree. -/
inductive Edit.Proposed (text : List Char) (tree : Option Node) (e : Edit) : Prop where
  | run : e.Trims text → Proposed text tree e
  | gap {root : Node} {left right : Token} : tree = some root →
      (Source.ofText text (some root)).Adjacent left right →
      CurlySpacing.Mends (Buffer.ofText text) left right e → Proposed text tree e

namespace Edit

variable {text : List Char} {tree : Option Node} {root : Node} {left right : Token} {e f : Edit}
  {es : List Edit}

theorem stands_of_brace (hWell : root.WellFormed text) {t : Token} {c : Char}
    (ht : t ∈ (Source.ofText text (some root)).tokens) (hText : t.text = [c]) (hWidth : width [c] = 1) :
    Stands text (t.stop - 1) c := by
  obtain ⟨pre, post, hCut, -, hStop⟩ := Source.exists_cut hWell ht
  rw [hText] at hCut hStop
  exact ⟨pre, post, hCut, by omega⟩

theorem exists_cuts_of_deletion (hWell : root.WellFormed text)
    (hAdjacent : (Source.ofText text (some root)).Adjacent left right)
    (hSpaced : (Buffer.ofText text).isSpacedPair left right = true)
    (hBlank : (Buffer.ofText text).gapIsBlank left right = true) :
    ∃ c mid, (Buffer.ofText text).gap left right = c :: mid ∧ Text.isBlank c = true ∧
      Cuts text ⟨left.stop, right.start, []⟩ (c :: mid) := by
  obtain ⟨pre, d, post, hText, hStart, hStop⟩ := Source.exists_gap hWell hAdjacent
  cases hGap : (Buffer.ofText text).gap left right with
  | nil =>
    rw [Buffer.isSpacedPair, hGap, Gap.isSpaced_nil] at hSpaced
    cases hSpaced
  | cons c mid =>
    rw [hGap] at hText hStop
    rw [Buffer.gapIsBlank, hGap, Text.allBlank, List.all_cons, Bool.and_eq_true] at hBlank
    exact ⟨c, mid, rfl, hBlank.1, pre, d :: post, hText, hStart, hStop⟩

theorem lt_of_deletion (hWell : root.WellFormed text)
    (hAdjacent : (Source.ofText text (some root)).Adjacent left right)
    (hSpaced : (Buffer.ofText text).isSpacedPair left right = true)
    (hBlank : (Buffer.ofText text).gapIsBlank left right = true) : left.stop < right.start := by
  obtain ⟨c, mid, -, -, pre, post, -, hStart, hStop⟩ :=
    exists_cuts_of_deletion hWell hAdjacent hSpaced hBlank
  have := Utf8.length_encodeChar_pos c
  simp only [Utf8.width_cons] at hStart hStop
  omega

theorem Proposed.exists_cuts (hWell : ∀ root, tree = some root → root.WellFormed text)
    (h : e.Proposed text tree) : ∃ mid, e.Cuts text mid := by
  rcases h with hRun | ⟨hTree, hAdjacent, hMends⟩
  · obtain ⟨c, mid, hCuts, -⟩ := hRun.first
    exact ⟨c :: mid, hCuts⟩
  · obtain ⟨pre, c, post, hText, hStart, hStop⟩ := Source.exists_gap (hWell _ hTree) hAdjacent
    cases hMends with
    | opening => exact ⟨[], pre, _, hText, hStart, by simpa [space] using hStart⟩
    | closing =>
      rw [← List.append_assoc] at hText
      refine ⟨[], _, c :: post, hText, ?_, ?_⟩
      · rw [Utf8.width_append]
        exact hStop
      · rw [Utf8.width_append]
        simpa [space] using hStop
    | deletion => exact ⟨_, pre, _, hText, hStart, hStop⟩

/-- No edit starts where a trailing run stops: a brace or white space is no line end. -/
theorem Trims.start_ne (hWell : ∀ root, tree = some root → root.WellFormed text)
    (h : e.Trims text) (hf : f.Proposed text tree) : f.start ≠ e.stop := by
  intro hEq
  rcases hf with hRun | @⟨root, left, right, hTree, hAdjacent, hMends⟩
  · obtain ⟨c, mid, hCuts, hGap⟩ := hRun.first
    have hStands := hCuts.stands
    rw [hEq] at hStands
    rcases h.ends c hStands with rfl | rfl <;> cases hGap
  · have hWell := hWell _ hTree
    cases hMends with
    | opening hBrace =>
      obtain ⟨c, hLast, hGap⟩ := h.last
      have hOpening := stands_of_brace hWell hAdjacent.left_mem hBrace rfl
      rw [show left.stop = e.stop from hEq] at hOpening
      rw [hLast.eq hOpening] at hGap
      cases hGap
    | closing hBrace =>
      obtain ⟨c, cs, hChars, hStands⟩ := Source.exists_stands hWell hAdjacent.right_mem
      rw [hBrace] at hChars
      obtain ⟨rfl, -⟩ := List.cons.inj hChars
      rw [show right.start = e.stop from hEq] at hStands
      rcases h.ends _ hStands with hEnd | hEnd <;> cases hEnd
    | deletion _ hSpaced hBlank hLine =>
      obtain ⟨c, mid, hGap, -, hCuts⟩ := exists_cuts_of_deletion hWell hAdjacent hSpaced hBlank
      have hStands := hCuts.stands
      rw [show (⟨left.stop, right.start, []⟩ : Edit).start = e.stop from hEq] at hStands
      obtain ⟨pre, d, post, hText, hStart, hStop⟩ := Source.exists_gap hWell hAdjacent
      rw [Buffer.isSpacedPair, hGap] at hSpaced
      rw [hGap] at hText hStop
      obtain ⟨_, a, b, rfl⟩ := Source.eq_token_of_mem hAdjacent.left_mem
      obtain ⟨_, a', b', rfl⟩ := Source.eq_token_of_mem hAdjacent.right_mem
      obtain ⟨hReturn, hFeed⟩ := Buffer.first_of_spaced hText hStart hStop hSpaced hLine
      rcases h.ends c hStands with hEnd | hEnd
      · exact hReturn hEnd
      · exact hFeed hEnd

/-- Behind the gap of a brace stands no white space. -/
theorem exists_stands_right (hWell : root.WellFormed text)
    (hTight : (Source.ofText text (some root)).BracesTight)
    (hAdjacent : (Source.ofText text (some root)).Adjacent left right)
    (hBrace : left.text = ['\x7b'] ∨ right.text = ['\x7d']) :
    ∃ c, Stands text right.start c ∧ Text.isBlank c = false := by
  obtain ⟨c, cs, hChars, hStands⟩ := Source.exists_stands hWell hAdjacent.right_mem
  refine ⟨c, hStands, ?_⟩
  rcases hBrace with hLeft | hRight
  · exact hTight.not_blank hAdjacent hLeft hChars
  · rw [hRight] at hChars
    obtain ⟨rfl, -⟩ := List.cons.inj hChars
    rfl

/-- No edit starts where a deleted gap stops: two gaps are the same or lie apart, and one gap is not
both spaced and unspaced. -/
theorem start_ne_of_deletion (hWell : root.WellFormed text)
    (hTight : (Source.ofText text (some root)).BracesTight)
    (hAdjacent : (Source.ofText text (some root)).Adjacent left right)
    (hBrace : left.text = ['\x7b'] ∨ right.text = ['\x7d'])
    (hSpaced : (Buffer.ofText text).isSpacedPair left right = true)
    (hBlank : (Buffer.ofText text).gapIsBlank left right = true)
    (hf : f.Proposed text (some root)) : f.start ≠ right.start := by
  intro hEq
  have hOrderly := Source.orderly_ofText hWell
  have hLt := lt_of_deletion hWell hAdjacent hSpaced hBlank
  rcases hf with hRun | @⟨root', left', right', hTree, hAdjacent', hMends⟩
  · obtain ⟨c, mid, hCuts, hGap⟩ := hRun.first
    obtain ⟨d, hRight, hSolid⟩ := exists_stands_right hWell hTight hAdjacent hBrace
    have hStands := hCuts.stands
    rw [hEq] at hStands
    rw [hStands.eq hRight] at hGap
    rw [Text.isBlank_of_isGap hGap] at hSolid
    cases hSolid
  · obtain rfl := Option.some.inj hTree
    have hLe := (hOrderly.of_adjacent hAdjacent').1
    have hCases := hOrderly.gap_cases hAdjacent hAdjacent'
    cases hMends with
    | opening | deletion =>
      change left'.stop = right.start at hEq
      rcases hCases with ⟨rfl, rfl⟩ | hLt' | hLt' <;> omega
    | closing _ hUnspaced =>
      change right'.start = right.start at hEq
      rcases hCases with ⟨rfl, rfl⟩ | hLt' | hLt'
      · rw [hSpaced] at hUnspaced
        cases hUnspaced
      · omega
      · omega

/-- **Accepted edits of the rules change the text**: they change it where the first of them is made. -/
theorem spliceAll_ne (hWell : ∀ root, tree = some root → root.WellFormed text)
    (hTight : (Source.ofText text tree).BracesTight) (hOrdered : Ordered (e :: es))
    (hAll : ∀ f ∈ e :: es, f.Proposed text tree) :
    spliceAll (e :: es) (encode text) ≠ encode text := by
  intro hSame
  rw [List.forall_mem_cons] at hAll
  obtain ⟨hFirst, hOthers⟩ := hAll
  have hCuts : ∀ f ∈ es, ∃ run, f.Cuts text run := fun f hf => (hOthers f hf).exists_cuts hWell
  rcases hFirst with hRun | @⟨root, left, right, rfl, hAdjacent, hMends⟩
  · -- A trailing run: the line end behind it moves to where a space or a tab was.
    obtain ⟨c, mid, hRange, hGap⟩ := hRun.first
    have hStands := stands_of_deleted hOrdered hRange hRun.replacement hCuts
      (fun f hf => hRun.start_ne hWell (hOthers f hf)) hSame
    rcases hRun.ends c hStands with rfl | rfl <;> cases hGap
  · have hTree := hWell root rfl
    cases hMends with
    | opening hBrace hUnspaced =>
      -- A space behind a brace: the gap begins with none, and neither does the token behind it.
      obtain ⟨pre, d, post, hText, hStart, hStop⟩ := Source.exists_gap hTree hAdjacent
      have hStands := stands_of_inserted hOrdered
        ⟨pre, _, hText, hStart, by simpa [space] using hStart⟩ rfl hSame
      cases hGap : (Buffer.ofText text).gap left right with
      | nil =>
        rw [hGap, Utf8.width_nil] at hStop
        obtain ⟨c, hRight, hSolid⟩ := exists_stands_right hTree hTight hAdjacent (Or.inl hBrace)
        rw [show right.start = (space left.stop).start by show right.start = left.stop; omega] at hRight
        rw [hRight.eq hStands] at hSolid
        cases hSolid
      | cons c gap =>
        rw [hGap] at hText
        have hHere : Stands text (space left.stop).start c := ⟨pre, gap ++ d :: post, hText, hStart⟩
        obtain rfl := hHere.eq hStands
        rw [Buffer.isSpacedPair, hGap, Gap.isSpaced_space_append] at hUnspaced
        cases hUnspaced
    | closing hBrace hUnspaced =>
      -- A space before a brace: the brace stands there, and no space.
      obtain ⟨c, cs, hChars, hRight⟩ := Source.exists_stands hTree hAdjacent.right_mem
      obtain ⟨pre, d, post, hText, hStart, hStop⟩ := Source.exists_gap hTree hAdjacent
      rw [← List.append_assoc] at hText
      have hHere : (right.start : Int) = width (pre ++ (Buffer.ofText text).gap left right) := by
        rw [Utf8.width_append]
        exact hStop
      have hStands := stands_of_inserted hOrdered
        ⟨_, d :: post, hText, hHere, by simpa [space] using hHere⟩ rfl hSame
      rw [hBrace] at hChars
      obtain ⟨rfl, -⟩ := List.cons.inj hChars
      cases hRight.eq hStands
    | deletion hBrace hSpaced hBlank =>
      -- A gap: the token behind it moves to where white space was.
      obtain ⟨c, mid, -, hWhite, hRange⟩ := exists_cuts_of_deletion hTree hAdjacent hSpaced hBlank
      have hStands := stands_of_deleted hOrdered hRange rfl hCuts
        (fun f hf => start_ne_of_deletion hTree hTight hAdjacent hBrace hSpaced hBlank
          (hOthers f hf)) hSame
      obtain ⟨d, hRight, hSolid⟩ := exists_stands_right hTree hTight hAdjacent hBrace
      rw [hStands.eq hRight, hSolid] at hWhite
      cases hWhite

theorem exists_accepted {edits : List Edit} (hForward : ∀ e ∈ edits, 0 ≤ e.start ∧ e.start ≤ e.stop)
    (hSome : edits ≠ []) : ∃ e es, (select edits).accepted = e :: es := by
  rw [select]
  cases hSort : sort edits with
  | nil =>
    have hLength : (sort edits).length = edits.length := List.length_mergeSort edits
    rw [hSort] at hLength
    exact absurd (List.eq_nil_of_length_eq_zero hLength.symm) hSome
  | cons e es =>
    have hMem : e ∈ edits := List.mem_mergeSort.1 (show e ∈ sort edits by rw [hSort]; simp)
    have := hForward e hMem
    rw [selectFrom, if_neg (by simp only [Option.elim_none]; omega), if_neg (fun h => by cases h)]
    exact ⟨e, _, rfl⟩

/-- **A batch of the rules that changes nothing has no edits.** -/
theorem eq_nil_of_unchanged {edits : List Edit}
    (hWell : ∀ root, tree = some root → root.WellFormed text)
    (hTight : (Source.ofText text tree).BracesTight) (hAll : ∀ e ∈ edits, e.Proposed text tree)
    (h : applied? text edits = some text) : edits = [] := by
  refine Decidable.byContradiction fun hSome => ?_
  have hForward : ∀ e ∈ edits, 0 ≤ e.start ∧ e.start ≤ e.stop := by
    intro e he
    obtain ⟨mid, pre, post, -, hStart, hStop⟩ := (hAll e he).exists_cuts hWell
    omega
  obtain ⟨e, es, hAccepted⟩ := exists_accepted hForward hSome
  refine spliceAll_ne hWell hTight (hAccepted ▸ ordered_select edits) ?_ ?_
  · intro f hf
    rw [← hAccepted] at hf
    exact hAll f (mem_of_mem_select hf)
  · rw [applied?, hAccepted] at h
    exact Utf8.eq_encode_of_decode? h

end Edit

end TidySpace
