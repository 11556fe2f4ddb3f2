import TidySpace.Proofs.EditedGaps
import TidySpace.Proofs.Moved
import TidySpace.Proofs.TokenSafety

/-! # One pass of the curly rule is enough

The edits of the curly rule lie in the gaps of neighbours, and a gap belongs to one construct, as
long as no two constructs check the same pair. So no edits overlap, and all of them are accepted
(`mem_select_fixes`). After them each gap is either as it was or as its requirement wants it:

* a gap without an edit keeps its text and its line, and so its fault (`pairFault?_of_none`);
* a gap with a space put at an end is spaced, as it must be (`pairFault?_of_missing`);
* a gap that was deleted is not spaced, as it must not be (`pairFault?_of_deleted`).

`converges` puts this together: on the edited text with its moved tree, the rule reports again what
it could not mend, about the same constructs and in the same words, and nothing else.
-/

namespace TidySpace

/-! ### Gaps lie apart -/

namespace Source.Orderly

variable {s : Source} {t u left right left' right' : Token} (h : s.Orderly)
include h

theorem eq_of_stop_eq (ht : t ∈ s.tokens) (hu : u ∈ s.tokens) (hStop : t.stop = u.stop) : t = u := by
  obtain ⟨front, back, hTokens⟩ := List.append_of_mem ht
  obtain ⟨hFront, hLt, hBack⟩ := h.cut hTokens
  rw [hTokens] at hu
  rcases List.mem_append.1 hu with hu | hu
  · have := hFront u hu
    omega
  · rcases List.mem_cons.1 hu with rfl | hu
    · rfl
    · have := hBack u hu
      omega

/-- Two gaps are the same, or they lie apart. -/
theorem gap_cases (hPair : s.Adjacent left right) (hPair' : s.Adjacent left' right') :
    (left = left' ∧ right = right') ∨ right.start < left'.stop ∨ right'.start < left.stop := by
  have hLeft := h.forward left hPair.left_mem
  have hLeft' := h.forward left' hPair'.left_mem
  rcases (h.of_adjacent hPair).2 left' hPair'.left_mem with hLe | hLe
  · rcases (h.of_adjacent hPair').2 left hPair.left_mem with hLe' | hLe'
    · obtain rfl := h.eq_of_stop_eq hPair.left_mem hPair'.left_mem (Int.le_antisymm hLe' hLe)
      obtain ⟨front, back, hTokens⟩ := hPair
      obtain ⟨front', back', hTokens'⟩ := hPair'
      have hAfter := h.after?_stop hTokens
      rw [h.after?_stop hTokens'] at hAfter
      exact Or.inl ⟨rfl, (Option.some.inj hAfter).symm⟩
    · omega
  · omega

end Source.Orderly

namespace CurlySpacing

open Edit (moveStart moveStop Clear Kept InGap)
open Utf8 (width encode)

variable {s : Source} {o : CurlyOptions} {cs : List BraceConstruct} {c : BraceConstruct}

/-! ### Pairs and their edits -/

/-- The pairs of neighbours that the rule checks for a construct. -/
def checkedPairs (s : Source) (c : BraceConstruct) : List (Token × Token) :=
  match braces? s c with
  | some t => [(t.opening, t.second), (t.penultimate, t.closing)]
  | none => []

/-- No two of the constructs have the same pair checked. -/
def Separate (s : Source) (cs : List BraceConstruct) : Prop :=
  cs.Pairwise fun c d => ∀ p ∈ checkedPairs s c, p ∉ checkedPairs s d

theorem Separate.eq_or (h : Separate s cs) {d : BraceConstruct} (hc : c ∈ cs) (hd : d ∈ cs) :
    c = d ∨ ∀ p ∈ checkedPairs s c, p ∉ checkedPairs s d := by
  refine List.Pairwise.forall_of_forall_of_flip
    (R := fun c d => c = d ∨ ∀ p ∈ checkedPairs s c, p ∉ checkedPairs s d)
    (fun _ _ => Or.inl rfl) (h.imp fun hApart => Or.inr hApart)
    (h.imp fun hApart => Or.inr fun p hp hp' => hApart p hp' hp) hc hd

/-- A pair that is checked for a construct, with whether it must be spaced and the byte at the
brace. -/
def Checks (s : Source) (o : CurlyOptions) (c : BraceConstruct) (left right : Token) (must : Bool)
    (brace : Int) : Prop :=
  ∃ t, braces? s c = some t ∧ Checked o c.kind t left right must brace

def fixes (s : Source) (o : CurlyOptions) (cs : List BraceConstruct) : List Edit :=
  cs.flatMap fun c => (reports s o c).flatMap Report.fix

variable {left right left' right' : Token} {must must' : Bool} {brace brace' : Int} {e : Edit}
  {fault : GapFault}

theorem checked_iff {kind : ConstructKind} {t : Braces} :
    Checked o kind t left right must brace ↔
      (left = t.opening ∧ right = t.second ∧ must = o.forKind kind ∧ brace = t.opening.stop) ∨
        (left = t.penultimate ∧ right = t.closing ∧ must = closingSpaced o kind t.penultimate ∧
          brace = t.closing.start) := by
  constructor
  · rintro (_ | _)
    · exact Or.inl ⟨rfl, rfl, rfl, rfl⟩
    · exact Or.inr ⟨rfl, rfl, rfl, rfl⟩
  · rintro (⟨rfl, rfl, rfl, rfl⟩ | ⟨rfl, rfl, rfl, rfl⟩)
    · exact .opening
    · exact .closing

theorem Checks.adjacent (hOrderly : s.Orderly) (h : Checks s o c left right must brace) :
    s.Adjacent left right := by
  obtain ⟨t, hBraces, hChecked⟩ := h
  exact hChecked.adjacent hOrderly (found_of_braces? hBraces)

theorem Checks.mem_checkedPairs (h : Checks s o c left right must brace) :
    (left, right) ∈ checkedPairs s c := by
  obtain ⟨t, hBraces, hChecked⟩ := h
  rw [checkedPairs, hBraces]
  cases hChecked with
  | opening => exact List.mem_cons_self
  | closing => exact List.mem_cons_of_mem _ List.mem_cons_self

/-- A pair that is checked on both sides has one requirement: the exceptions are about brackets and
braces that close, and an opening brace is none. -/
theorem Checks.must_eq (h : Checks s o c left right must brace)
    (h' : Checks s o c left right must' brace') : must = must' := by
  obtain ⟨t, hBraces, hChecked⟩ := h
  obtain ⟨t', hBraces', hChecked'⟩ := h'
  obtain rfl : t = t' := Option.some.inj (hBraces.symm.trans hBraces')
  have hPlain : t.opening = t.penultimate → closingSpaced o c.kind t.penultimate = o.forKind c.kind := by
    intro hEq
    rw [closingSpaced, ← hEq, (found_of_braces? hBraces).opening_text, if_neg (by simp)]
  rw [checked_iff] at hChecked hChecked'
  rcases hChecked with ⟨rfl, -, rfl, -⟩ | ⟨rfl, -, rfl, -⟩ <;>
    rcases hChecked' with ⟨hEq, -, rfl, -⟩ | ⟨hEq, -, rfl, -⟩
  · rfl
  · exact (hPlain hEq).symm
  · exact hPlain hEq.symm
  · rfl

theorem mem_fixes_iff : e ∈ fixes s o cs ↔ ∃ c ∈ cs, ∃ r ∈ reports s o c, e ∈ r.fix := by
  rw [fixes, List.mem_flatMap]
  simp only [List.mem_flatMap]

theorem of_mem_fixes (h : e ∈ fixes s o cs) :
    ∃ c ∈ cs, ∃ left right must brace fault, Checks s o c left right must brace ∧
      s.toBuffer.pairFault? left right must = some fault ∧
      e ∈ mend s.toBuffer fault left right brace := by
  obtain ⟨c, hc, r, hr, he⟩ := mem_fixes_iff.1 h
  obtain ⟨t, left, right, must, brace, fault, hBraces, hChecked, hFault, hFix⟩ := mem_reports hr
  exact ⟨c, hc, left, right, must, brace, fault, ⟨t, hBraces, hChecked⟩, hFault, hFix ▸ he⟩

theorem mem_fixes (hc : c ∈ cs) (h : Checks s o c left right must brace)
    (hFault : s.toBuffer.pairFault? left right must = some fault)
    (he : e ∈ mend s.toBuffer fault left right brace) : e ∈ fixes s o cs := by
  obtain ⟨t, hBraces, hChecked⟩ := h
  have hReport : ∃ r ∈ reports s o c, r.fix = mend s.toBuffer fault left right brace := by
    rw [reports, hBraces]
    cases hChecked with
    | opening =>
      obtain ⟨r, hr, hFix⟩ : ∃ r, openingReport? s.toBuffer o c.kind t = some r ∧
          r.fix = mend s.toBuffer fault t.opening t.second t.opening.stop :=
        ⟨_, Option.map_eq_some_iff.2 ⟨fault, hFault, rfl⟩, rfl⟩
      exact ⟨r, List.mem_append_left _ (Option.mem_toList.2 hr), hFix⟩
    | closing =>
      obtain ⟨r, hr, hFix⟩ : ∃ r, closingReport? s.toBuffer o c.kind t = some r ∧
          r.fix = mend s.toBuffer fault t.penultimate t.closing t.closing.start :=
        ⟨_, Option.map_eq_some_iff.2 ⟨fault, hFault, rfl⟩, rfl⟩
      exact ⟨r, List.mem_append_right _ (Option.mem_toList.2 hr), hFix⟩
  obtain ⟨r, hr, hFix⟩ := hReport
  exact mem_fixes_iff.2 ⟨c, hc, r, hr, hFix ▸ he⟩

theorem inGap_of_mem_mend (hOrderly : s.Orderly) (h : Checks s o c left right must brace)
    (he : e ∈ mend s.toBuffer fault left right brace) : InGap left right e ∧ e.start ≤ e.stop := by
  have hGap := (hOrderly.of_adjacent (h.adjacent hOrderly)).1
  obtain ⟨t, -, hChecked⟩ := h
  rcases mem_mend he with ⟨-, rfl⟩ | ⟨-, -, rfl⟩
  · rcases hChecked.brace_eq with rfl | rfl
    · exact ⟨⟨Int.le_refl _, hGap⟩, Int.le_refl _⟩
    · exact ⟨⟨hGap, Int.le_refl _⟩, Int.le_refl _⟩
  · exact ⟨⟨Int.le_refl _, Int.le_refl _⟩, hGap⟩

/-- **A gap is mended for one construct.** Every edit in the gap of a checked pair mends this pair. -/
theorem mends_of_inGap (hOrderly : s.Orderly) (hSeparate : Separate s cs) (hc : c ∈ cs)
    (h : Checks s o c left right must brace) (he : e ∈ fixes s o cs) (hIn : InGap left right e) :
    ∃ fault brace', s.toBuffer.pairFault? left right must = some fault ∧
      Checks s o c left right must brace' ∧ e ∈ mend s.toBuffer fault left right brace' := by
  obtain ⟨d, hd, left', right', must', brace', fault, h', hFault, hMend⟩ := of_mem_fixes he
  obtain ⟨hIn', hForward⟩ := inGap_of_mem_mend hOrderly h' hMend
  obtain ⟨rfl, rfl⟩ : left = left' ∧ right = right' := by
    obtain ⟨hStart, hStop⟩ := hIn
    obtain ⟨hStart', hStop'⟩ := hIn'
    rcases hOrderly.gap_cases (h.adjacent hOrderly) (h'.adjacent hOrderly) with hEq | hLt | hLt
    · exact hEq
    · omega
    · omega
  have hSame : c = d := by
    rcases hSeparate.eq_or hc hd with hEq | hApart
    · exact hEq
    · exact absurd h'.mem_checkedPairs (hApart _ h.mem_checkedPairs)
  subst hSame
  obtain rfl := h.must_eq h'
  exact ⟨fault, brace', hFault, h', hMend⟩

theorem compatible_of_mem_mend {f : Edit}
    (he : e ∈ mend s.toBuffer fault left right brace)
    (hf : f ∈ mend s.toBuffer fault left right brace') : Edit.Compatible e f := by
  rcases mem_mend he with ⟨rfl, rfl⟩ | ⟨rfl, -, rfl⟩
  · rcases mem_mend hf with ⟨-, rfl⟩ | ⟨hFault, -⟩
    · rcases Int.le_total brace brace' with hLe | hLe
      · exact Or.inr (Or.inl hLe)
      · exact Or.inr (Or.inr hLe)
    · cases hFault
  · rcases mem_mend hf with ⟨hFault, -⟩ | ⟨-, -, rfl⟩
    · cases hFault
    · exact Or.inl rfl

/-- **No edits of the rule overlap**, so all of them are accepted. -/
theorem mem_select_fixes (hOrderly : s.Orderly) (hSeparate : Separate s cs)
    (hNonneg : ∀ t ∈ s.tokens, 0 ≤ t.start) (he : e ∈ fixes s o cs) :
    e ∈ (Edit.select (fixes s o cs)).accepted := by
  refine Edit.mem_select (fun f hf => ?_) (fun f hf g hg => ?_) he
  · obtain ⟨c, hc, left, right, must, brace, fault, h, -, hMend⟩ := of_mem_fixes hf
    obtain ⟨⟨hStart, -⟩, hForward⟩ := inGap_of_mem_mend hOrderly h hMend
    have hMem := (h.adjacent hOrderly).left_mem
    have := hNonneg left hMem
    have := hOrderly.forward left hMem
    omega
  · obtain ⟨c, hc, left, right, must, brace, fault, h, hFault, hMend⟩ := of_mem_fixes hf
    obtain ⟨d, hd, left', right', must', brace', fault', h', hFault', hMend'⟩ := of_mem_fixes hg
    obtain ⟨⟨hStart, hStop⟩, -⟩ := inGap_of_mem_mend hOrderly h hMend
    obtain ⟨⟨hStart', hStop'⟩, -⟩ := inGap_of_mem_mend hOrderly h' hMend'
    rcases hOrderly.gap_cases (h.adjacent hOrderly) (h'.adjacent hOrderly) with ⟨rfl, rfl⟩ | hLt | hLt
    · obtain ⟨fault'', brace'', hFault'', -, hMend''⟩ :=
        mends_of_inGap hOrderly hSeparate hc h hg ⟨hStart', hStop'⟩
      obtain rfl := Option.some.inj (hFault.symm.trans hFault'')
      exact compatible_of_mem_mend hMend hMend''
    · exact Or.inr (Or.inl (by omega))
    · exact Or.inr (Or.inr (by omega))

/-! ### Pairs of the edited text -/

/-- A text with its tree, and the source that comes of it when all edits of the rule are made. -/
structure Mended (text fixed : List Char) (root : Node) (o : CurlyOptions) (es : List Edit)
    (s' : Source) : Prop where
  well : root.WellFormed text
  separate : Separate (Source.ofText text (some root)) root.constructs
  moved : (Source.ofText text (some root)).Moved es s'
  makes : Edit.Makes es text fixed
  buffer : s'.toBuffer = Buffer.ofText fixed
  edits : ∀ e, e ∈ es ↔ e ∈ fixes (Source.ofText text (some root)) o root.constructs

namespace Mended

variable {text fixed : List Char} {root : Node} {es : List Edit} {s' : Source}
  (h : Mended text fixed root o es s')
  (hPair : (Source.ofText text (some root)).Adjacent left right)
include h hPair

theorem beside : Edit.Beside es text left right where
  kept_left := h.moved.kept left hPair.left_mem
  kept_right := h.moved.kept right hPair.right_mem
  nonneg := (Source.inside_of_mem h.well hPair.left_mem).1
  gap := ((Source.orderly_ofText h.well).of_adjacent hPair).1
  inside := (Source.inside_of_mem h.well hPair.right_mem).2

theorem exists_gap : ∃ mid, slice (encode text) left.stop right.start = encode mid := by
  obtain ⟨-, x, -, hx, -, hBoundary⟩ := Source.boundary_of_mem h.well hPair.left_mem
  obtain ⟨y, -, hy, -, hBoundary', -⟩ := Source.boundary_of_mem h.well hPair.right_mem
  obtain ⟨pre, post, hText, hPre⟩ := Utf8.isBoundary_iff.1 hBoundary
  obtain ⟨pre', post', hText', hPre'⟩ := Utf8.isBoundary_iff.1 hBoundary'
  have hLe := (h.beside hPair).gap
  obtain ⟨mid, hMid, hPost⟩ := Utf8.exists_between (hText.symm.trans hText') (by omega)
  refine ⟨mid, ?_⟩
  rw [hText, hPost, Utf8.encode_append, Utf8.encode_append]
  refine slice_append ?_ ?_
  · rw [hx, ← hPre]
    rfl
  · rw [hy, ← hPre', hMid, Utf8.width_append]
    exact Int.natCast_add ..

omit hPair in
theorem gap_eq : s'.toBuffer.gap (s'.toBuffer.movedToken es left) (s'.toBuffer.movedToken es right) =
    (Buffer.ofText fixed).slice (moveStop es left.stop) (moveStart es right.start) := by
  rw [h.buffer]
  rfl

theorem gap_lt (hSpaced : (Buffer.ofText text).isSpacedPair left right = true) :
    left.stop < right.start := by
  have hLe := (h.beside hPair).gap
  have hLength := (h.beside hPair).length_gap
  refine Int.lt_iff_le_and_ne.2 ⟨hLe, fun hEq => Buffer.gap_ne_nil_of_isSpacedPair hSpaced ?_⟩
  rw [hEq, Int.sub_self, Int.natCast_eq_zero] at hLength
  show Utf8.decodeReplacing (slice (encode text) left.stop right.start) = []
  rw [hEq, List.length_eq_zero_iff.1 hLength]
  exact Utf8.decodeReplacing_encode []

/-- **A gap without an edit keeps its fault.** -/
theorem pairFault?_of_none (hNone : ∀ e ∈ es, ¬ InGap left right e) (must : Bool) :
    s'.toBuffer.gap (s'.toBuffer.movedToken es left) (s'.toBuffer.movedToken es right) =
        (Buffer.ofText text).gap left right ∧
      s'.toBuffer.pairFault? (s'.toBuffer.movedToken es left) (s'.toBuffer.movedToken es right) must =
        (Buffer.ofText text).pairFault? left right must := by
  have hGap : s'.toBuffer.gap (s'.toBuffer.movedToken es left) (s'.toBuffer.movedToken es right) =
      (Buffer.ofText text).gap left right :=
    (h.gap_eq).trans (h.makes.slice_of_none (h.beside hPair) hNone)
  have hLine : (s'.toBuffer.movedToken es left).stopPos.line =
      (s'.toBuffer.movedToken es right).startPos.line ↔ left.stopPos.line = right.startPos.line := by
    have hLine := h.makes.line_of_none (h.beside hPair) hNone
    obtain ⟨_, _, _, hLeft⟩ := Source.eq_token_of_mem hPair.left_mem
    obtain ⟨_, _, _, hRight⟩ := Source.eq_token_of_mem hPair.right_mem
    rw [← h.buffer] at hLine
    subst hLeft hRight
    exact hLine
  refine ⟨hGap, ?_⟩
  rw [Buffer.pairFault?, Buffer.isSpacedPair, hGap, Buffer.pairFault?, Buffer.isSpacedPair]
  by_cases hSame : left.stopPos.line = right.startPos.line
  · rw [if_pos hSame, if_pos (hLine.2 hSame)]
  · rw [if_neg hSame, if_neg fun hSame' => hSame (hLine.1 hSame')]

omit h hPair in
theorem pairFault?_eq_none {b : Buffer} (hSpaced : b.isSpacedPair left right = must) :
    b.pairFault? left right must = none := by
  rw [Buffer.pairFault?]
  split
  next => exact Gap.fault?_eq_none_iff.2 hSpaced.symm
  next => rfl

/-- **A gap that lacked a space has one.** -/
theorem pairFault?_of_missing
    (hAll : ∀ e ∈ es, InGap left right e → e = Edit.space left.stop ∨ e = Edit.space right.start)
    (hSome : ∃ e ∈ es, InGap left right e) :
    s'.toBuffer.pairFault? (s'.toBuffer.movedToken es left) (s'.toBuffer.movedToken es right) true =
      none := by
  obtain ⟨mid, hMid⟩ := h.exists_gap hPair
  refine pairFault?_eq_none ?_
  rw [Buffer.isSpacedPair, h.gap_eq]
  exact h.makes.isSpaced_of_spaces (h.beside hPair) hMid hAll hSome

/-- **A gap that was deleted has no space.** -/
theorem pairFault?_of_deleted (hLt : left.stop < right.start)
    (hAll : ∀ e ∈ es, InGap left right e → e = ⟨left.stop, right.start, []⟩)
    (hSome : ∃ e ∈ es, InGap left right e) :
    s'.toBuffer.pairFault? (s'.toBuffer.movedToken es left) (s'.toBuffer.movedToken es right) false =
      none := by
  refine pairFault?_eq_none ?_
  rw [Buffer.isSpacedPair, h.gap_eq, h.makes.slice_of_deleted (h.beside hPair) hLt hAll hSome]
  exact Gap.isSpaced_nil

end Mended

section After

variable {text fixed : List Char} {root : Node} {es : List Edit} {s' : Source}
  (h : Mended text fixed root o es s') (hc : c ∈ root.constructs)
  (hChecks : Checks (Source.ofText text (some root)) o c left right must brace)
include h hc hChecks

theorem Mended.mends_of_inGap (he : e ∈ es) (hIn : InGap left right e) :
    ∃ fault brace', (Buffer.ofText text).pairFault? left right must = some fault ∧
      (brace' = left.stop ∨ brace' = right.start) ∧
      e ∈ mend (Buffer.ofText text) fault left right brace' := by
  obtain ⟨fault, brace', hFault, ⟨t, -, hChecked⟩, hMend⟩ := CurlySpacing.mends_of_inGap
    (Source.orderly_ofText h.well) h.separate hc hChecks ((h.edits e).1 he) hIn
  exact ⟨fault, brace', hFault, hChecked.brace_eq, hMend⟩

theorem Mended.inGap_of_mend (hFault : (Buffer.ofText text).pairFault? left right must = some fault)
    (he : e ∈ mend (Buffer.ofText text) fault left right brace) : e ∈ es ∧ InGap left right e :=
  ⟨(h.edits e).2 (mem_fixes hc hChecks hFault he),
    (inGap_of_mem_mend (Source.orderly_ofText h.well) hChecks he).1⟩

theorem Mended.not_inGap (hNone : ∀ fault brace',
    (Buffer.ofText text).pairFault? left right must = some fault →
      mend (Buffer.ofText text) fault left right brace' = []) : ∀ e ∈ es, ¬ InGap left right e := by
  intro e he hIn
  obtain ⟨fault, brace', hFault, -, hMend⟩ := h.mends_of_inGap hc hChecks he hIn
  rw [hNone fault brace' hFault] at hMend
  exact List.not_mem_nil hMend

/-- A space was missing, and one was put there. -/
theorem Mended.pairFault?_after_missing
    (hFault : (Buffer.ofText text).pairFault? left right must = some .missing) :
    s'.toBuffer.pairFault? (s'.toBuffer.movedToken es left) (s'.toBuffer.movedToken es right) must =
      none := by
  have hPair := hChecks.adjacent (Source.orderly_ofText h.well)
  obtain ⟨-, ⟨-, rfl, -⟩ | ⟨hOther, -⟩⟩ := Buffer.pairFault?_eq_some hFault
  · refine h.pairFault?_of_missing hPair (fun e he hIn => ?_)
      ⟨_, h.inGap_of_mend hc hChecks hFault List.mem_cons_self⟩
    obtain ⟨fault, brace', hSome, hBrace, hMend⟩ := h.mends_of_inGap hc hChecks he hIn
    rw [hFault] at hSome
    cases hSome
    obtain rfl := List.mem_singleton.1 hMend
    rcases hBrace with rfl | rfl
    · exact Or.inl rfl
    · exact Or.inr rfl
  · cases hOther

/-- The gap was blank, and it was deleted. -/
theorem Mended.pairFault?_after_unexpected
    (hFault : (Buffer.ofText text).pairFault? left right must = some .unexpected)
    (hBlank : (Buffer.ofText text).gapIsBlank left right = true) :
    s'.toBuffer.pairFault? (s'.toBuffer.movedToken es left) (s'.toBuffer.movedToken es right) must =
      none := by
  have hPair := hChecks.adjacent (Source.orderly_ofText h.well)
  obtain ⟨-, ⟨hOther, -⟩ | ⟨-, rfl, hSpaced⟩⟩ := Buffer.pairFault?_eq_some hFault
  · cases hOther
  · refine h.pairFault?_of_deleted hPair (h.gap_lt hPair hSpaced) (fun e he hIn => ?_)
      ⟨_, h.inGap_of_mend hc hChecks hFault (by rw [mend_of_blank hBlank]; exact List.mem_cons_self)⟩
    obtain ⟨fault, brace', hSome, -, hMem⟩ := h.mends_of_inGap hc hChecks he hIn
    rw [hFault] at hSome
    cases hSome
    rw [mend_of_blank hBlank] at hMem
    exact List.mem_singleton.1 hMem

/-- **After the edits a pair has the fault it had, if nothing mended it**, and nothing mends it then;
otherwise it has none. -/
theorem Mended.fault_after :
    s'.toBuffer.pairFault? (s'.toBuffer.movedToken es left) (s'.toBuffer.movedToken es right) must =
        ((Buffer.ofText text).pairFault? left right must).filter
          (fun fault => (mend (Buffer.ofText text) fault left right brace).isEmpty) ∧
      ∀ fault brace', (mend (Buffer.ofText text) fault left right brace).isEmpty →
        (Buffer.ofText text).pairFault? left right must = some fault →
        mend s'.toBuffer fault (s'.toBuffer.movedToken es left) (s'.toBuffer.movedToken es right)
          brace' = [] := by
  have hPair := hChecks.adjacent (Source.orderly_ofText h.well)
  cases hFault : (Buffer.ofText text).pairFault? left right must with
  | none =>
    have hNone := h.not_inGap hc hChecks fun fault _ hSome => by rw [hFault] at hSome; cases hSome
    obtain ⟨-, hAfter⟩ := h.pairFault?_of_none hPair hNone must
    exact ⟨hAfter.trans hFault, fun _ _ _ hSome => by cases hSome⟩
  | some fault =>
    cases fault with
    | missing =>
      refine ⟨h.pairFault?_after_missing hc hChecks hFault, fun fault _ hEmpty hSome => ?_⟩
      cases hSome
      cases hEmpty
    | unexpected =>
      rw [Option.filter_some]
      by_cases hBlank : (Buffer.ofText text).gapIsBlank left right = true
      · rw [mend_of_blank hBlank]
        refine ⟨h.pairFault?_after_unexpected hc hChecks hFault hBlank, fun fault _ hEmpty hSome => ?_⟩
        cases hSome
        rw [mend_of_blank hBlank] at hEmpty
        cases hEmpty
      · -- The gap holds a comment, and it was left as it was.
        have hNone := h.not_inGap hc hChecks fun fault brace' hSome => by
          rw [hFault] at hSome
          cases hSome
          exact mend_of_not_blank hBlank brace'
        obtain ⟨hSame, hAfter⟩ := h.pairFault?_of_none hPair hNone must
        rw [mend_of_not_blank hBlank]
        refine ⟨hAfter.trans hFault, fun fault brace' _ hSome => ?_⟩
        cases hSome
        refine mend_of_not_blank ?_ brace'
        rw [Buffer.gapIsBlank, hSame]
        exact hBlank

end After

/-! ### Reports about moved constructs -/

/-- What a report says: its message, and the data that tells the construct and the side. -/
def label (r : Report) : String × Value := (r.message, r.extra)

/-- The report about a pair afterwards, if its fault is one that nothing mends. -/
theorem label_after {fault fault' : Option GapFault} {f f' : GapFault → Report}
    (hFault : fault' = fault.filter fun x => (f x).fix.isEmpty)
    (hLabel : ∀ x, label (f' x) = label (f x)) :
    (fault'.map f').toList.map label =
      ((fault.map f).toList.filter fun r => r.fix.isEmpty).map label := by
  subst hFault
  cases fault with
  | none => rfl
  | some x =>
    rw [Option.filter_some, Option.map_some, Option.toList_some, List.filter_cons]
    split
    next => exact congrArg (fun l => [l]) (hLabel x)
    next => rfl

section Reports

variable {text fixed : List Char} {root : Node} {es : List Edit} {s' : Source}

/-- **A moved construct has the reports that nothing mended**, and they mend nothing. -/
theorem Mended.reports_after (h : Mended text fixed root o es s') (hc : c ∈ root.constructs)
    (hTracked : ∀ n ∈ root.preorder, n.Tracked es) :
    (reports s' o (c.move es)).map label =
        ((reports (Source.ofText text (some root)) o c).filter fun r => r.fix.isEmpty).map label ∧
      ∀ r ∈ reports s' o (c.move es), r.fix = [] := by
  obtain ⟨n, hn, hConstruct⟩ := Node.mem_constructs.1 hc
  have hBraces := braces?_move h.moved (Node.node_eq_of_construct? hConstruct ▸ hTracked n hn)
    fun e he => hTracked e.node (Node.elements_mem_preorder hn hConstruct e he)
  rw [reports, hBraces, reports]
  cases hFound : braces? (Source.ofText text (some root)) c with
  | none => exact ⟨rfl, fun r hr => absurd hr List.not_mem_nil⟩
  | some t =>
    have hPenultimate : t.penultimate ∈ (Source.ofText text (some root)).tokens :=
      Source.mem_of_before? (found_of_braces? hFound).penultimate
    obtain ⟨hOpening, hNoneOpening⟩ := h.fault_after hc ⟨t, hFound, .opening⟩
    obtain ⟨hClosing, hNoneClosing⟩ := h.fault_after hc ⟨t, hFound, .closing⟩
    replace hClosing := (congrArg (s'.toBuffer.pairFault? (s'.toBuffer.movedToken es t.penultimate)
      (s'.toBuffer.movedToken es t.closing))
      (closingSpaced_moved h.moved o c.kind hPenultimate)).trans hClosing
    rw [Option.map_some]
    refine ⟨?_, ?_⟩
    · rw [List.map_append, List.filter_append, List.map_append]
      exact congr (congrArg _ (label_after hOpening fun _ => rfl))
        (label_after hClosing fun _ => rfl)
    · intro r hr
      rcases List.mem_append.1 hr with hr | hr
      · obtain ⟨fault, hFault, rfl⟩ := Option.map_eq_some_iff.1 (Option.mem_toList.1 hr)
        replace hFault := hOpening.symm.trans hFault
        obtain ⟨hBefore, hEmpty⟩ := Option.filter_eq_some_iff.1 hFault
        exact hNoneOpening fault _ hEmpty hBefore
      · obtain ⟨fault, hFault, rfl⟩ := Option.map_eq_some_iff.1 (Option.mem_toList.1 hr)
        replace hFault := hClosing.symm.trans hFault
        obtain ⟨hBefore, hEmpty⟩ := Option.filter_eq_some_iff.1 hFault
        exact hNoneClosing fault _ hEmpty hBefore

end Reports

/-! ### The edited text and its tree -/

section Edited

variable {text fixed : List Char} {root : Node} {es : List Edit}

/-- Nodes whose offsets no edit spans are tracked. -/
theorem tracked_of_clear (hOrdered : Edit.Ordered es) (hWithin : Edit.Within (width text) es)
    (hClear : ∀ n ∈ root.preorder, Clear es n.start ∧ Clear es n.stop) :
    ∀ n ∈ root.preorder, n.Tracked es := by
  intro n hn
  obtain ⟨hStart, hStop⟩ := hClear n hn
  have hNonneg : ∀ e ∈ es, 0 ≤ e.start := fun e he => (hWithin e he).1
  exact ⟨hStart, hStop, Edit.moveStart_nonneg hOrdered hNonneg (Int.natCast_nonneg _),
    Edit.moveStop_nonneg hOrdered hNonneg hStop (Int.natCast_nonneg _)⟩

/-- **A text that is edited outside of its tokens has them moved.** -/
theorem moved_of_spared (hWell : root.WellFormed text) (hMakes : Edit.Makes es text fixed)
    (hSpares : ∀ t ∈ (Source.ofText text (some root)).tokens, ∀ e ∈ es, e.Spares t)
    (hTracked : ∀ n ∈ root.preorder, n.Tracked es) :
    (Source.ofText text (some root)).Moved es (Source.ofText fixed (some (root.move es))) where
  ordered := hMakes.ordered
  kept t ht := ⟨(Source.orderly_ofText hWell).forward t ht, hSpares t ht⟩
  tokens := by
    have hNodes : ∀ n ∈ Node.tokensOf [root], n.Tracked es ∧ Kept es n.start n.stop := by
      intro n hn
      obtain ⟨hMem, hLt⟩ := Node.of_mem_tokensOf hn
      rw [Node.preorderAll_singleton] at hMem
      exact ⟨hTracked n hMem, Int.ofNat_lt.2 hLt, hSpares _ (List.mem_map_of_mem hn)⟩
    have hTokens : Node.tokensOf [root.move es] = (Node.tokensOf [root]).map (Node.move es) := by
      refine @Node.tokensOf_move es [root] (fun n hn hEmpty => ?_) fun n hn => ?_
      · rw [Node.preorderAll_singleton] at hn
        have hLe := (hWell.nested n hn).le
        have hMoved := Edit.moveStop_le_moveStart hMakes.ordered (hTracked n hn).clear_start
        rw [Node.start_move, Node.stop_move, Nat.le_antisymm hEmpty hLe]
        exact Int.toNat_le_toNat hMoved
      · obtain ⟨hNode, hKept⟩ := hNodes n hn
        have hMoved := hKept.moveStop_eq hMakes.ordered
        have := hKept.lt
        have := hNode.start_eq
        have := hNode.stop_eq
        omega
    show (Node.tokensOf [root.move es]).map _ = ((Node.tokensOf [root]).map _).map _
    rw [hTokens, List.map_map, List.map_map]
    refine List.map_congr_left fun n hn => ?_
    obtain ⟨hNode, -⟩ := hNodes n hn
    show (Buffer.ofText fixed).token (n.move es).kind (n.move es).start (n.move es).stop =
      (Buffer.ofText fixed).token n.kind (moveStart es n.start) (moveStop es n.stop)
    rw [Node.kind_move, hNode.start_eq, hNode.stop_eq]
  text t ht := Edit.slice_of_spared hWell hMakes.ordered hMakes.within hMakes.bytes ht (hSpares t ht)

/-- **The edits of the rule make a text**, all of them accepted, and its tree is the moved one. -/
theorem exists_mended (hWell : root.WellFormed text)
    (hSeparate : Separate (Source.ofText text (some root)) root.constructs)
    (hEdits : es = (Edit.select (fixes (Source.ofText text (some root)) o root.constructs)).accepted)
    (hClear : ∀ n ∈ root.preorder, Clear es n.start ∧ Clear es n.stop) :
    ∃ fixed, Edit.applied? text (fixes (Source.ofText text (some root)) o root.constructs) = some fixed ∧
      Mended text fixed root o es (Source.ofText fixed (some (root.move es))) ∧
      ∀ n ∈ root.preorder, n.Tracked es := by
  have hOrderly := Source.orderly_ofText hWell
  obtain ⟨fixed, hApplied, hFixed, -⟩ :=
    @Edit.applied?_blank text (fixes (Source.ofText text (some root)) o root.constructs)
      fun e he => by
        obtain ⟨c, -, r, hr, he⟩ := mem_fixes_iff.1 he
        exact isBlank_of_mem_reports hr he
  rw [← hEdits] at hFixed
  have hMem : ∀ e ∈ es, ∃ c ∈ root.constructs,
      ∃ r ∈ reports (Source.ofText text (some root)) o c, e ∈ r.fix := fun e he =>
    mem_fixes_iff.1 (Edit.mem_of_mem_select (hEdits ▸ he))
  have hMakes : Edit.Makes es text fixed := by
    refine ⟨hEdits ▸ Edit.ordered_select _, fun e he => ?_, hFixed⟩
    obtain ⟨c, -, r, hr, he⟩ := hMem e he
    exact within_of_mem_reports hWell hr he
  have hTracked := tracked_of_clear hMakes.ordered hMakes.within hClear
  refine ⟨fixed, hApplied, ⟨hWell, hSeparate, ?_, hMakes, rfl, fun e => ?_⟩, hTracked⟩
  · refine moved_of_spared hWell hMakes (fun t ht e he => ?_) hTracked
    obtain ⟨c, -, r, hr, he⟩ := hMem e he
    exact spares_of_mem_reports hOrderly hr he ht
  · rw [hEdits]
    exact ⟨Edit.mem_of_mem_select, mem_select_fixes hOrderly hSeparate fun t ht =>
      (Source.inside_of_mem hWell ht).1⟩

end Edited

/-! ### Findings -/

/-- The findings of the rule, each with the construct it is about. -/
def located (path : String) (text : List Char) (root : Node) (o : CurlyOptions) :
    List (BraceConstruct × Finding) :=
  root.constructs.flatMap fun c => (reports (Source.ofText text (some root)) o c).map fun r =>
    (c, r.finding id path (.text "warn") (Buffer.ofText text))

def findings (path : String) (text : List Char) (root : Node) (o : CurlyOptions) : List Finding :=
  (located path text root o).map Prod.snd

theorem visit_eq_findings (path : String) (text : List Char) (root : Node) {options : Value}
    (hOptions : readOptions options = .ok o) :
    visit ((Analysis.viewOf path text (some root)).withOptions options) =
      .ok (findings path text root o) := by
  rw [visit_viewOf path text root hOptions, findings, located, List.map_flatMap, List.map_flatMap]
  simp only [List.map_map]
  rfl

theorem edits_findings (path : String) (text : List Char) (root : Node) (o : CurlyOptions) :
    Finding.edits (findings path text root o) =
      fixes (Source.ofText text (some root)) o root.constructs := by
  rw [Finding.edits, findings, located, List.flatMap_map, List.flatMap_assoc, fixes]
  simp only [List.flatMap_map, Report.fix_finding]

/-- **One pass is enough.** The rule's edits can be made, and on the edited text with its moved tree
the rule makes no edit: it reports again what nothing mended, about the same constructs and with the
same messages, and nothing else. -/
theorem converges (path : String) (text : List Char) (root : Node) (options : Value)
    (config : CurlyConfig) (hWell : root.WellFormed text)
    (hOptions : CurlyConfig.read (Rule.givenOptions options) = .ok config)
    (hSeparate : Separate (Source.ofText text (some root)) root.constructs)
    (hClear : ∀ n ∈ root.preorder,
      Clear (Finding.edits (findings path text root (.ofConfig config))) n.start ∧
        Clear (Finding.edits (findings path text root (.ofConfig config))) n.stop) :
    visit ((Analysis.viewOf path text (some root)).withOptions options) =
        .ok (findings path text root (.ofConfig config)) ∧
      ∃ fixed es,
        Edit.applied? text (Finding.edits (findings path text root (.ofConfig config))) = some fixed ∧
        es = (Edit.select (Finding.edits (findings path text root (.ofConfig config)))).accepted ∧
        visit ((Analysis.viewOf path fixed (some (root.move es))).withOptions options) =
          .ok (findings path fixed (root.move es) (.ofConfig config)) ∧
        (∀ f ∈ findings path fixed (root.move es) (.ofConfig config), f.fix = none) ∧
        (located path fixed (root.move es) (.ofConfig config)).map
            (fun p => (p.1, p.2.message, p.2.extra)) =
          ((located path text root (.ofConfig config)).filter fun p => p.2.fix.isNone).map
            fun p => (p.1.move es, p.2.message, p.2.extra) := by
  have hRead := readOptions_of_read hOptions
  refine ⟨visit_eq_findings path text root hRead, ?_⟩
  rw [edits_findings] at hClear ⊢
  generalize hEs : (Edit.select (fixes (Source.ofText text (some root)) (.ofConfig config)
    root.constructs)).accepted = es
  have hSub : ∀ e ∈ es, e ∈ fixes (Source.ofText text (some root)) (.ofConfig config)
      root.constructs := fun e he => Edit.mem_of_mem_select (hEs ▸ he)
  obtain ⟨fixed, hApplied, hMended, hTracked⟩ := exists_mended hWell hSeparate hEs.symm fun n hn =>
    ⟨fun e he => (hClear n hn).1 e (hSub e he), fun e he => (hClear n hn).2 e (hSub e he)⟩
  refine ⟨fixed, es, hApplied, rfl, visit_eq_findings path fixed _ hRead, ?_, ?_⟩
  · intro f hf
    obtain ⟨p, hp, rfl⟩ := List.mem_map.1 hf
    rw [located, Node.constructs_move, List.flatMap_map] at hp
    obtain ⟨c, hc, hp⟩ := List.mem_flatMap.1 hp
    obtain ⟨r, hr, rfl⟩ := List.mem_map.1 hp
    show (if r.fix.isEmpty then none else some r.fix) = none
    rw [(hMended.reports_after hc hTracked).2 r hr]
    rfl
  · rw [located, located, Node.constructs_move, List.flatMap_map, List.map_flatMap,
      List.filter_flatMap, List.map_flatMap]
    refine congrArg List.flatten (List.map_congr_left fun c hc => ?_)
    have hReports := congrArg (List.map fun l => (c.move es, l)) (hMended.reports_after hc hTracked).1
    rw [List.map_map, List.map_map] at hReports
    rw [List.map_map, List.filter_map, List.map_map]
    refine hReports.trans (congrArg _ (List.filter_congr fun r _ => ?_))
    show r.fix.isEmpty = (if r.fix.isEmpty then none else some r.fix : Option (List Edit)).isNone
    split
    next h => exact h
    next h => exact Bool.eq_false_iff.2 h

def commentedObject : Node :=
  ⟨"object", true, 0, 9, [⟨"\x7b", false, 0, 1, []⟩, ⟨"comment", true, 2, 6, []⟩,
    ⟨"shorthand_property_identifier", true, 6, 7, []⟩, ⟨"\x7d", false, 8, 9, []⟩]⟩

theorem constructs_commentedObject : commentedObject.constructs = [⟨.objectExpression,
    commentedObject, [⟨.property, ⟨"shorthand_property_identifier", true, 6, 7, []⟩⟩]⟩] := by
  rw [Node.constructs_eq]
  rfl

/-- Of the two spaces in the object, the one next to the comment stays. -/
theorem located_commentedObject :
    (located "object.js" "{ /**/a }".toList commentedObject (.ofConfig ⟨none, {}⟩)).map
      (fun p => (p.2.message, p.2.fix)) =
        [("There should be no space after '\x7b'", none),
          ("There should be no space before '\x7d'", some [⟨7, 8, []⟩])] := by
  have hSource : Source.ofText "{ /**/a }".toList (some commentedObject) =
      ⟨Buffer.ofText "{ /**/a }".toList,
        [(Buffer.ofText "{ /**/a }".toList).token "\x7b" 0 1,
          (Buffer.ofText "{ /**/a }".toList).token "shorthand_property_identifier" 6 7,
          (Buffer.ofText "{ /**/a }".toList).token "\x7d" 8 9]⟩ :=
    congrArg (Source.mk _) (Source.tokens_ofText "{ /**/a }".toList commentedObject)
  rw [located, constructs_commentedObject, hSource]
  cbv

/-- After the space before the closing brace is deleted, the other one is reported again. -/
theorem converges_commentedObject :
    ∃ fixed es, Edit.applied? "{ /**/a }".toList [⟨7, 8, []⟩] = some fixed ∧
      es = (Edit.select [⟨7, 8, []⟩]).accepted ∧
      (∀ f ∈ findings "object.js" fixed (commentedObject.move es) (.ofConfig ⟨none, {}⟩),
        f.fix = none) ∧
      (findings "object.js" fixed (commentedObject.move es) (.ofConfig ⟨none, {}⟩)).map
        Finding.message = ["There should be no space after '\x7b'"] := by
  have hLocated := located_commentedObject
  have hEdits : Finding.edits (findings "object.js" "{ /**/a }".toList commentedObject
      (.ofConfig ⟨none, {}⟩)) = [⟨7, 8, []⟩] := by
    have hFlat := congrArg (List.flatMap fun q => q.2.getD []) hLocated
    rw [List.flatMap_map] at hFlat
    rw [Finding.edits, findings, List.flatMap_map]
    exact hFlat
  have hSeparate : Separate (Source.ofText "{ /**/a }".toList (some commentedObject))
      commentedObject.constructs := by
    rw [constructs_commentedObject]
    exact List.pairwise_singleton ..
  obtain ⟨-, fixed, es, hApplied, hEs, -, hNone, hSame⟩ := converges "object.js"
    "{ /**/a }".toList commentedObject .null ⟨none, {}⟩ (by decide) (by rfl) hSeparate (by
      rw [hEdits]
      unfold Clear
      decide)
  rw [hEdits] at hApplied hEs
  refine ⟨fixed, es, hApplied, hEs, hNone, ?_⟩
  have hMessages := congrArg (List.map fun q => q.2.1) hSame
  rw [List.map_map, List.map_map] at hMessages
  rw [findings, List.map_map]
  refine hMessages.trans ?_
  have hKept := congrArg (fun l => (l.filter fun q => q.2.isNone).map Prod.fst) hLocated
  rw [List.filter_map, List.map_map] at hKept
  exact hKept

end CurlySpacing

end TidySpace
