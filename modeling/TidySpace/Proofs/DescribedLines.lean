import TidySpace.Proofs.StrippedLines

/-! # What the lines of a text are

A text has one list of lines: `IsLinesOf` says what lines are by the text alone, not by how they are
found, and `split` gives the one list of which this is true (`split_unique`). Two things make it the
only one. Lines whose contents hold no line ends, with an end behind each but the last, are those of
their text up to carriage returns that meet a line feed (`pieces_joined`), and here none does
(`joins_eq_zero_iff`). Numbers and places are then counted from the front (`eq_place`).
-/

namespace TidySpace.Text

/-- The text of lines: their contents and ends, in order. -/
def charsOf (ls : List Line) : List Char := ls.flatMap fun l => l.content ++ l.ending.chars

structure IsLinesOf (text : List Char) (ls : List Line) : Prop where
  chars_eq : charsOf ls = text
  plain : ∀ l ∈ ls, '\r' ∉ l.content ∧ '\n' ∉ l.content
  /-- There is a last line, which alone has no end. -/
  ends : ∃ front last, ls = front ++ [last] ∧ last.ending.chars = [] ∧
    ∀ l ∈ front, l.ending.chars ∈ [['\r', '\n'], ['\r'], ['\n']]
  /-- Where a carriage return alone ends a line, no line feed follows in the text. -/
  apart : ∀ front l back, ls = front ++ l :: back → l.ending.chars = ['\r'] →
    ¬ charsOf front ++ (l.content ++ ['\r', '\n']) <+: text
  number_eq : ∀ front l back, ls = front ++ l :: back → l.number = front.length + 1
  start_eq : ∀ front l back, ls = front ++ l :: back →
    l.start = (Utf8.encode (charsOf front)).length

variable {text : List Char} {ls front back : List Line} {l : Line} {number start : Nat}

/-! ### Contents and ends -/

def contentsOf (ls : List Line) : List (List Char × LineEnd) := ls.map fun l => (l.content, l.ending)

theorem contentsOf_split (text : List Char) : contentsOf (split text) = pieces text :=
  map_place 1 0 (pieces text)

theorem joined_contentsOf (ls : List Line) : joined (contentsOf ls) = charsOf ls := List.flatMap_map ..

theorem charsOf_split (text : List Char) : charsOf (split text) = text := by
  rw [← joined_contentsOf, contentsOf_split, joined_pieces]

theorem charsOf_cons (l : Line) (ls : List Line) :
    charsOf (l :: ls) = l.content ++ (l.ending.chars ++ charsOf ls) := by
  rw [charsOf, List.flatMap_cons, List.append_assoc]
  rfl

theorem charsOf_cut : charsOf (front ++ l :: back) =
    charsOf front ++ (l.content ++ (l.ending.chars ++ charsOf back)) := by
  rw [← charsOf_cons, charsOf, List.flatMap_append]
  rfl

theorem chars_eq_nil_iff {ending : LineEnd} : ending.chars = [] ↔ ending = .absent := by
  cases ending <;> simp [LineEnd.chars]

theorem chars_mem_iff {ending : LineEnd} :
    ending.chars ∈ [['\r', '\n'], ['\r'], ['\n']] ↔ ending ≠ .absent := by
  cases ending <;> simp [LineEnd.chars]

theorem chars_eq_return_iff {ending : LineEnd} : ending.chars = ['\r'] ↔ ending = .cr := by
  cases ending <;> simp [LineEnd.chars]

/-! ### Lines that stay apart -/

/-- No lines meet just if no empty line ended by a line feed is behind a carriage return. -/
theorem joins_eq_zero_iff {ps : List (List Char × LineEnd)} :
    joins ps = 0 ↔ ∀ front p back, ps = front ++ p :: back → p.2 = .cr →
      back.head? ≠ some ([], .lf) := by
  induction ps with
  | nil => simp [joins]
  | cons q ps ih =>
    rw [joins_cons, Nat.add_eq_zero_iff, ih, ite_eq_right_iff]
    constructor
    · rintro ⟨hRest, hHere⟩ front p back hEq hReturn hHead
      cases front with
      | nil =>
        obtain ⟨rfl, rfl⟩ := List.cons.inj hEq
        exact absurd (hHere ⟨hReturn, hHead⟩) (by decide)
      | cons q' front => exact hRest front p back (List.cons.inj hEq).2 hReturn hHead
    · intro h
      refine ⟨fun front p back hEq => h (q :: front) p back (by rw [hEq]; rfl), ?_⟩
      rintro ⟨hReturn, hHead⟩
      exact absurd hHead (h [] q ps rfl hReturn)

theorem AreLines.behind {front back : List (List Char × LineEnd)} {p : List Char × LineEnd}
    (h : AreLines (front ++ p :: back)) (hEnd : p.2 ≠ .absent) : AreLines back := by
  induction front with
  | nil =>
    cases h with
    | last => exact absurd rfl hEnd
    | cons _ _ hRest => exact hRest
  | cons q front ih =>
    rw [List.cons_append] at h
    generalize hLines : front ++ p :: back = ps at h ih
    cases h with
    | last => cases front <;> cases hLines
    | cons _ _ hRest => exact ih hRest

/-- Behind a carriage return the text goes on with a line feed just if the next line is empty and ends
with one. -/
theorem feed_iff {ps : List (List Char × LineEnd)} (h : AreLines ps) :
    ['\n'] <+: joined ps ↔ ps.head? = some ([], .lf) := by
  constructor
  · rintro ⟨rest, hRest⟩
    obtain ⟨ps', rfl⟩ := h.eq_of_feed hRest.symm
    rfl
  · intro hHead
    obtain ⟨ps', rfl⟩ := List.head?_eq_some_iff.1 hHead
    exact ⟨joined ps', rfl⟩

/-- A carriage return that ends a line is followed by a line feed in the text just if one follows in
the text of the next lines. -/
theorem return_feed_iff (hLines : AreLines (contentsOf (front ++ l :: back)))
    (hReturn : l.ending = .cr) :
    charsOf front ++ (l.content ++ ['\r', '\n']) <+: charsOf (front ++ l :: back) ↔
      (contentsOf back).head? = some ([], .lf) := by
  have hBack : AreLines (contentsOf back) := by
    rw [contentsOf, List.map_append, List.map_cons] at hLines
    exact hLines.behind (by simp [hReturn])
  rw [charsOf_cut, List.prefix_append_right_inj, List.prefix_append_right_inj, hReturn,
    ← feed_iff hBack, joined_contentsOf]
  exact List.cons_prefix_cons.trans (and_iff_right rfl)

/-! ### Numbers and places -/

theorem place_cut {ps : List (List Char × LineEnd)} (h : place number start ps = front ++ l :: back) :
    l.number = number + front.length ∧ l.start = start + Utf8.width (charsOf front) := by
  induction front generalizing number start ps with
  | nil =>
    cases ps with
    | nil => cases h
    | cons p ps =>
      obtain ⟨rfl, -⟩ := List.cons.inj h
      exact ⟨rfl, rfl⟩
  | cons l' front ih =>
    cases ps with
    | nil => cases h
    | cons p ps =>
      obtain ⟨rfl, hRest⟩ := List.cons.inj h
      obtain ⟨hNumber, hStart⟩ := ih hRest
      refine ⟨?_, ?_⟩
      · rw [hNumber, List.length_cons]
        omega
      · rw [hStart, charsOf_cons, Utf8.width_append, Utf8.width_append, width_chars]
        dsimp only
        omega

theorem eq_place (h : ∀ front l back, ls = front ++ l :: back → l.number = number + front.length ∧
    l.start = start + Utf8.width (charsOf front)) : ls = place number start (contentsOf ls) := by
  induction ls generalizing number start with
  | nil => rfl
  | cons l ls ih =>
    obtain ⟨hNumber, hStart⟩ := h [] l ls rfl
    rw [contentsOf, List.map_cons, place, ← contentsOf]
    refine congrArg₂ List.cons ?_ (ih fun front l' back hEq => ?_)
    · rw [← show l.number = number from hNumber, ← show l.start = start from hStart]
    · obtain ⟨hNumber', hStart'⟩ := h (l :: front) l' back (by rw [hEq]; rfl)
      rw [hNumber', hStart', charsOf_cons, Utf8.width_append, Utf8.width_append, width_chars,
        List.length_cons]
      omega

/-! ### The lines of a text -/

theorem isLinesOf_split (text : List Char) : IsLinesOf text (split text) := by
  have hLines := areLines_pieces text
  have hApart := joins_eq_zero_iff.1 (joins_pieces text)
  rw [← contentsOf_split] at hLines hApart
  refine ⟨charsOf_split text, fun l hl => plain_of_mem_pieces (mem_pieces_of_mem_split hl), ?_, ?_, ?_,
    ?_⟩
  · obtain ⟨front, last, hEq, hEnds⟩ := pieces_eq text
    rw [← contentsOf_split] at hEq
    obtain ⟨lines, rest, hSplit, hFront, hRest⟩ := List.map_eq_append_iff.1 hEq
    obtain ⟨l, rfl, hLast⟩ := List.map_eq_singleton_iff.1 hRest
    refine ⟨lines, l, hSplit, chars_eq_nil_iff.2 (congrArg Prod.snd hLast), fun l' hl' => ?_⟩
    refine chars_mem_iff.2 (hEnds (l'.content, l'.ending) ?_)
    rw [← hFront]
    exact List.mem_map_of_mem hl'
  · intro front l back hEq hChars
    have hReturn := chars_eq_return_iff.1 hChars
    rw [← charsOf_split text, hEq, return_feed_iff (hEq ▸ hLines) hReturn]
    refine hApart (contentsOf front) (l.content, l.ending) (contentsOf back) ?_ hReturn
    rw [hEq, contentsOf, List.map_append, List.map_cons]
    rfl
  · intro front l back hEq
    rw [(place_cut hEq).1, Nat.add_comm]
  · intro front l back hEq
    rw [(place_cut hEq).2, Nat.zero_add]
    rfl

theorem IsLinesOf.areLines (h : IsLinesOf text ls) : AreLines (contentsOf ls) := by
  obtain ⟨front, last, hEq, hLast, hEnds⟩ := h.ends
  have hPlain : ∀ p ∈ contentsOf ls, IsPlain p.1 := List.forall_mem_map.2 h.plain
  have hContents : contentsOf ls = contentsOf front ++ [(last.content, .absent)] := by
    rw [hEq, contentsOf, List.map_append, ← chars_eq_nil_iff.1 hLast]
    rfl
  rw [hContents] at hPlain ⊢
  refine areLines_concat hPlain (List.forall_mem_map.2 fun l hl => ?_)
  exact chars_mem_iff.1 (hEnds l hl)

theorem IsLinesOf.eq_split (h : IsLinesOf text ls) : ls = split text := by
  have hLines := h.areLines
  have hApart : joins (contentsOf ls) = 0 := by
    refine joins_eq_zero_iff.2 fun front p back hEq hReturn hHead => ?_
    obtain ⟨lines, rest, hSplit, rfl, hRest⟩ := List.map_eq_append_iff.1 hEq
    obtain ⟨l, behind, rfl, rfl, rfl⟩ := List.map_eq_cons_iff.1 hRest
    refine h.apart lines l behind hSplit (chars_eq_return_iff.2 hReturn) ?_
    rw [← h.chars_eq, hSplit]
    exact (return_feed_iff (hSplit ▸ hLines) hReturn).2 hHead
  have hPieces : pieces text = contentsOf ls := by
    rw [← h.chars_eq, ← joined_contentsOf, pieces_joined hLines, met_of_joins hApart]
  rw [split, hPieces]
  refine eq_place fun front l back hEq => ⟨?_, ?_⟩
  · rw [h.number_eq front l back hEq, Nat.add_comm]
  · rw [h.start_eq front l back hEq, Nat.zero_add]
    rfl

/-- **The lines of a text** are the one list that consists of the text, holds line ends only as such,
never parts a carriage return from its line feed, and is numbered and placed in order. The table of
line starts, which is made from the bytes, tells the same places. -/
theorem split_unique (text : List Char) :
    IsLinesOf text (split text) ∧ (∀ ls, IsLinesOf text ls → ls = split text) ∧
      (Buffer.ofText text).lineStarts = (split text).map Line.start :=
  ⟨isLinesOf_split text, fun _ h => h.eq_split, lineStarts_encode text⟩

end TidySpace.Text
