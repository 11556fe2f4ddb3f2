import Mathlib.Data.List.DropRight
import TidySpace.Proofs.CheckedOptions
import TidySpace.Proofs.Selection

/-! # Lines without trailing runs

The edits of trailing runs take spaces and tabs off the ends of lines, each on its own line
(`TrailingRun.applied?_runs`), so the new text is the old lines, stripped, one behind the other. It need
not have the same lines: an empty line that ends with a line feed makes one end with a carriage return
in front of it. `Text.met` puts such lines together, and nothing else happens
(`Text.pieces_joined`). Whatever lines meet, the contents of the others are as they were, and those that
meet leave no run behind, so what has been stripped has no runs (`TrailingRun.stripped_of_scan`).

The lines of the text that a rule has fixed are counted in `TrailingSpaces.lines_of_visit`.
-/

namespace TidySpace

open Utf8 (width encode)

namespace Text

/-! ### Lines put together -/

def IsPlain (content : List Char) : Prop := '\r' ∉ content ∧ '\n' ∉ content

/-- Lines with their ends: every line has one but the last. -/
inductive AreLines : List (List Char × LineEnd) → Prop
  | last {content : List Char} (hPlain : IsPlain content) : AreLines [(content, .absent)]
  | cons {content : List Char} {ending : LineEnd} {ps : List (List Char × LineEnd)}
      (hPlain : IsPlain content) (hEnd : ending ≠ .absent) (hRest : AreLines ps) :
      AreLines ((content, ending) :: ps)

theorem areLines_concat {front : List (List Char × LineEnd)} {last : List Char}
    (hPlain : ∀ p ∈ front ++ [(last, .absent)], IsPlain p.1) (hEnds : ∀ p ∈ front, p.2 ≠ .absent) :
    AreLines (front ++ [(last, .absent)]) := by
  induction front with
  | nil => exact .last (hPlain (last, .absent) List.mem_cons_self)
  | cons p front ih =>
    rw [List.forall_mem_cons] at hEnds
    rw [List.cons_append, List.forall_mem_cons] at hPlain
    exact .cons hPlain.1 hEnds.1 (ih hPlain.2 hEnds.2)

theorem areLines_pieces (cs : List Char) : AreLines (pieces cs) := by
  obtain ⟨front, last, hEq, hEnds⟩ := pieces_eq cs
  have hPlain : ∀ p ∈ pieces cs, IsPlain p.1 := fun p => plain_of_mem_pieces
  rw [hEq] at hPlain ⊢
  exact areLines_concat hPlain hEnds

theorem AreLines.map {ps : List (List Char × LineEnd)} (h : AreLines ps) {f : List Char → List Char}
    (hPlain : ∀ content, IsPlain content → IsPlain (f content)) :
    AreLines (ps.map fun p => (f p.1, p.2)) := by
  induction h with
  | last hLine => exact .last (hPlain _ hLine)
  | cons hLine hEnd _ ih => exact .cons (hPlain _ hLine) hEnd ih

/-- The lines of a text that consists of the given ones: a carriage return and the line feed of an
empty line behind it are one end. -/
def met : List (List Char × LineEnd) → List (List Char × LineEnd)
  | [] => []
  | (content, .cr) :: ([], .lf) :: ps => (content, .crlf) :: met ps
  | p :: ps => p :: met ps

theorem AreLines.eq_of_feed {ps : List (List Char × LineEnd)} {rest : List Char} (h : AreLines ps)
    (hFeed : joined ps = '\n' :: rest) : ∃ ps', ps = ([], .lf) :: ps' := by
  cases h with
  | @last content hPlain =>
    cases content with
    | nil => cases hFeed
    | cons c content =>
      obtain ⟨rfl, -⟩ := List.cons.inj hFeed
      exact absurd List.mem_cons_self hPlain.2
  | @cons content ending ps' hPlain hEnd hRest =>
    rw [joined_cons] at hFeed
    cases content with
    | nil =>
      cases ending with
      | lf => exact ⟨ps', rfl⟩
      | absent => exact absurd rfl hEnd
      | crlf | cr => cases hFeed
    | cons c content =>
      obtain ⟨rfl, -⟩ := List.cons.inj hFeed
      exact absurd List.mem_cons_self hPlain.2

theorem pieces_append {content rest : List Char} (hPlain : IsPlain content) {ending : LineEnd}
    {qs : List (List Char × LineEnd)} (hRest : pieces rest = ([], ending) :: qs) :
    pieces (content ++ rest) = (content, ending) :: qs := by
  induction content with
  | nil => exact hRest
  | cons c content ih =>
    obtain ⟨hReturn, hFeed⟩ := hPlain
    rw [List.mem_cons, not_or] at hReturn hFeed
    rw [List.cons_append, pieces, if_neg (Ne.symm hReturn.1), if_neg (Ne.symm hFeed.1),
      ih ⟨hReturn.2, hFeed.2⟩, consPiece]
    · rintro cs rfl
      exact absurd rfl hReturn.1

/-- **The lines of lines put together.** -/
theorem pieces_joined {ps : List (List Char × LineEnd)} (h : AreLines ps) :
    pieces (joined ps) = met ps := by
  fun_induction met ps with
  | case1 => cases h
  | case2 content ps ih =>
    cases h with
    | cons hPlain _ hRest =>
      cases hRest with
      | cons _ _ hRest =>
        rw [joined_cons, joined_cons]
        exact pieces_append hPlain (by rw [← ih hRest]; rfl)
  | case3 p ps hApart ih =>
    rw [joined_cons]
    cases h with
    | last hPlain => exact pieces_append hPlain rfl
    | @cons content ending _ hPlain hEnd hRest =>
      refine pieces_append hPlain ?_
      rw [← ih hRest]
      cases ending with
      | crlf | lf => rfl
      | absent => exact absurd rfl hEnd
      | cr =>
        -- The carriage return stands alone: what follows it is no line feed.
        show pieces ('\r' :: joined ps) = _
        rw [pieces, if_pos rfl]
        intro rest _ hFeed
        obtain ⟨ps', rfl⟩ := hRest.eq_of_feed hFeed
        exact hApart content ps' rfl rfl

theorem exists_of_mem_met {p : List Char × LineEnd} {ps : List (List Char × LineEnd)}
    (h : p ∈ met ps) : ∃ q ∈ ps, q.1 = p.1 := by
  fun_induction met ps with
  | case1 => exact absurd h List.not_mem_nil
  | case2 content ps ih =>
    rcases List.mem_cons.1 h with rfl | h
    · exact ⟨(content, .cr), List.mem_cons_self, rfl⟩
    · obtain ⟨q, hq, hEq⟩ := ih h
      exact ⟨q, List.mem_cons_of_mem _ (List.mem_cons_of_mem _ hq), hEq⟩
  | case3 p' ps _ ih =>
    rcases List.mem_cons.1 h with rfl | h
    · exact ⟨p, List.mem_cons_self, rfl⟩
    · obtain ⟨q, hq, hEq⟩ := ih h
      exact ⟨q, List.mem_cons_of_mem p' hq, hEq⟩

/-- How many lines are left out where lines are put together. -/
def joins (ps : List (List Char × LineEnd)) : Nat :=
  (ps.zip ps.tail).countP fun (p, q) => p.2 = .cr ∧ q = ([], .lf)

theorem joins_cons (p : List Char × LineEnd) (ps : List (List Char × LineEnd)) :
    joins (p :: ps) = joins ps + if p.2 = .cr ∧ ps.head? = some ([], .lf) then 1 else 0 := by
  cases ps with
  | nil => simp [joins]
  | cons q ps => simp [joins, List.countP_cons]

theorem length_met (ps : List (List Char × LineEnd)) : (met ps).length + joins ps = ps.length := by
  fun_induction met ps with
  | case1 => rfl
  | case2 content ps ih =>
    rw [joins_cons, if_pos ⟨rfl, rfl⟩, joins_cons, if_neg (by simp)]
    simp only [List.length_cons]
    omega
  | case3 p ps hApart ih =>
    rw [joins_cons, if_neg, List.length_cons, List.length_cons]
    · omega
    · rintro ⟨hReturn, hHead⟩
      obtain ⟨ps', rfl⟩ := List.head?_eq_some_iff.1 hHead
      exact hApart p.1 ps' (Prod.ext rfl hReturn) rfl

/-- Lines that stay apart are the lines of their text. -/
theorem met_of_joins {ps : List (List Char × LineEnd)} (h : joins ps = 0) : met ps = ps := by
  fun_induction met ps with
  | case1 => rfl
  | case2 content ps ih =>
    rw [joins_cons, if_pos ⟨rfl, rfl⟩] at h
    omega
  | case3 p ps hApart ih =>
    rw [joins_cons] at h
    rw [ih (by omega)]

theorem map_snd_met {ps : List (List Char × LineEnd)} :
    (met ps).map Prod.snd = ps.map Prod.snd ↔ joins ps = 0 := by
  constructor
  · intro h
    have hLength := length_met ps
    have hSame := congrArg List.length h
    rw [List.length_map, List.length_map] at hSame
    omega
  · intro h
    rw [met_of_joins h]

theorem joins_pieces (cs : List Char) : joins (pieces cs) = 0 := by
  have hMet := pieces_joined (areLines_pieces cs)
  have hLength := length_met (pieces cs)
  rw [joined_pieces] at hMet
  rw [← hMet] at hLength
  omega

/-! ### Stripped contents -/

theorem dropTrailing_eq (p : Char → Bool) (cs : List Char) : dropTrailing p cs = cs.rdropWhile p := by
  induction cs with
  | nil => rfl
  | cons c cs ih =>
    rw [List.rdropWhile] at ih ⊢
    rw [dropTrailing, ih, List.reverse_cons, List.dropWhile_append]
    cases h : cs.reverse.dropWhile p with
    | nil =>
      by_cases hc : p c = true
      · simp [hc]
      · simp [hc]
    | cons d ds => simp

/-- A content without the spaces and tabs at its end; a content of nothing else can be kept. -/
def stripped (keepBlank : Bool) (content : List Char) : List Char :=
  if keepBlank && content.all isGap then content else content.rdropWhile isGap

theorem stripped_of_ne {keepBlank : Bool} {content : List Char}
    (h : stripped keepBlank content ≠ content) :
    stripped keepBlank content = content.rdropWhile isGap := by
  rw [stripped] at h ⊢
  split
  next hKept => exact absurd (if_pos hKept) h
  next => rfl

@[simp] theorem stripped_stripped (keepBlank : Bool) (content : List Char) :
    stripped keepBlank (stripped keepBlank content) = stripped keepBlank content := by
  by_cases h : (keepBlank && content.all isGap) = true
  · simp only [stripped, if_pos h]
  · simp only [stripped, if_neg h, List.rdropWhile_idempotent, ite_self]

theorem exists_run (content : List Char) : ∃ run, content.rdropWhile isGap ++ run = content ∧
    width content = width (content.rdropWhile isGap) + width run := by
  obtain ⟨run, hRun⟩ := List.rdropWhile_prefix isGap content
  refine ⟨run, hRun, ?_⟩
  rw [← Utf8.width_append, hRun]

theorem isPlain_rdropWhile {content : List Char} (h : IsPlain content) :
    IsPlain (content.rdropWhile isGap) :=
  ⟨fun hMem => h.1 ((List.rdropWhile_prefix isGap content).subset hMem),
    fun hMem => h.2 ((List.rdropWhile_prefix isGap content).subset hMem)⟩

/-- Lines of which the first `n` that are picked are stripped. -/
def stripFirst (picked : List Char → Bool) : Nat → List (List Char × LineEnd) →
    List (List Char × LineEnd)
  | 0, ps => ps
  | _ + 1, [] => []
  | n + 1, (content, ending) :: ps =>
    if picked content then (content.rdropWhile isGap, ending) :: stripFirst picked n ps
    else (content, ending) :: stripFirst picked (n + 1) ps

section StripFirst

variable {picked : List Char → Bool} {p : List Char × LineEnd}

@[simp] theorem stripFirst_zero (ps : List (List Char × LineEnd)) : stripFirst picked 0 ps = ps := by
  rw [stripFirst]

theorem stripFirst_of_picked (h : picked p.1 = true) (n : Nat) (ps : List (List Char × LineEnd)) :
    stripFirst picked (n + 1) (p :: ps) = (p.1.rdropWhile isGap, p.2) :: stripFirst picked n ps := by
  rw [stripFirst, if_pos h]

theorem stripFirst_of_not (h : ¬ picked p.1 = true) (n : Nat) (ps : List (List Char × LineEnd)) :
    stripFirst picked n (p :: ps) = p :: stripFirst picked n ps := by
  cases n with
  | zero => rw [stripFirst_zero, stripFirst_zero]
  | succ n => rw [stripFirst, if_neg h]

theorem stripFirst_of_le {n : Nat} {ps : List (List Char × LineEnd)}
    (h : ps.countP (fun p => picked p.1) ≤ n) :
    stripFirst picked n ps =
      ps.map fun p => (if picked p.1 then p.1.rdropWhile isGap else p.1, p.2) := by
  induction ps generalizing n with
  | nil => cases n <;> rfl
  | cons p ps ih =>
    rw [List.countP_cons] at h
    rw [List.map_cons]
    by_cases hPicked : picked p.1 = true
    · rw [if_pos hPicked] at h ⊢
      cases n with
      | zero => omega
      | succ n => rw [stripFirst_of_picked hPicked, ih (by omega)]
    · rw [if_neg hPicked] at h ⊢
      rw [stripFirst_of_not hPicked, ih h]

end StripFirst

end Text

namespace TrailingRun

open Text

def edit (run : TrailingRun) : Edit := ⟨run.start, run.stop, []⟩

/-- The spaces and tabs at the end of a line, of which there may be none. -/
def atEnd (l : Line) : TrailingRun :=
  ⟨l.number, (l.content.rdropWhile isGap).length + 1, l.start + width (l.content.rdropWhile isGap),
    l.start + width l.content⟩

theorem stripped_eq_self_iff {skip : Bool} {content : List Char} :
    (content.rdropWhile isGap).length = content.length ∨
        (skip ∧ (content.rdropWhile isGap).isEmpty) ↔ stripped skip content = content := by
  have hEmpty : (content.rdropWhile isGap).isEmpty ↔ content.all isGap := by
    rw [List.isEmpty_iff, List.rdropWhile_eq_nil_iff, List.all_eq_true]
  rw [stripped, hEmpty]
  by_cases h : (skip && content.all isGap) = true
  · rw [if_pos h]
    exact iff_of_true (Or.inr (Bool.and_eq_true_iff.1 h)) rfl
  · rw [if_neg h, ← Bool.and_eq_true_iff, or_iff_left h]
    exact ⟨(List.rdropWhile_prefix isGap content).eq_of_length, congrArg List.length⟩

theorem ofLine?_eq (skip : Bool) (l : Line) :
    ofLine? skip l = if stripped skip l.content = l.content then none else some (atEnd l) := by
  simp only [ofLine?, dropTrailing_eq, stripped_eq_self_iff, atEnd]

variable {picked : List Char → Bool}

def runs (picked : List Char → Bool) (text : List Char) : List TrailingRun :=
  ((split text).filter fun l => picked l.content).map atEnd

theorem runs_sublist (text : List Char) : (runs picked text).Sublist ((split text).map atEnd) :=
  List.filter_sublist.map atEnd

theorem length_runs (text : List Char) :
    (runs picked text).length = (pieces text).countP fun p => picked p.1 := by
  rw [runs, List.length_map, ← List.countP_eq_length_filter, ← map_place 1 0 (pieces text),
    List.countP_map]
  rfl

theorem position_start {text : List Char} {run : TrailingRun} (h : run ∈ runs picked text) :
    (Buffer.ofText text).position run.start = ⟨run.line, run.column⟩ := by
  obtain ⟨l, hLine, rfl⟩ := List.mem_map.1 ((runs_sublist text).subset h)
  obtain ⟨front, rest, hPieces, hStart, hNumber⟩ := mem_place hLine
  have hSpot := Buffer.spot_of_pieces hPieces (l.content.rdropWhile isGap).length
  have hTake : l.content.take (l.content.rdropWhile isGap).length = l.content.rdropWhile isGap :=
    (List.prefix_iff_eq_take.1 (List.rdropWhile_prefix isGap l.content)).symm
  have hPosition := hSpot.position_eq
  rw [hTake] at hPosition
  simp only [atEnd]
  rw [hStart, hNumber, Nat.zero_add, hPosition, Nat.add_comm 1]

def hasRun (skip : Bool) (content : List Char) : Bool := stripped skip content != content

theorem scan_eq (text : List Char) (skip : Bool) : scan text skip = runs (hasRun skip) text := by
  rw [scan, runs, ← List.filterMap_eq_map, List.filterMap_filter]
  refine List.filterMap_congr fun l _ => ?_
  rw [ofLine?_eq]
  by_cases h : stripped skip l.content = l.content
  · simp [hasRun, h]
  · simp [hasRun, h]

/-! ### Deleting runs -/

theorem ordered_place (number start : Nat) (ps : List (List Char × LineEnd)) :
    Edit.Ordered ((place number start ps).map fun l => (atEnd l).edit) ∧
      ∀ e ∈ (place number start ps).map fun l => (atEnd l).edit, (start : Int) ≤ e.start := by
  induction ps generalizing number start with
  | nil => exact ⟨⟨List.Pairwise.nil, by simp [place]⟩, by simp [place]⟩
  | cons p ps ih =>
    obtain ⟨content, ending⟩ := p
    obtain ⟨hRest, hBehind⟩ := ih (number + 1) (start + width content + ending.chars.length)
    obtain ⟨run, -, hWidth⟩ := exists_run content
    rw [place, List.map_cons]
    refine ⟨⟨List.pairwise_cons.2 ⟨fun e he => ?_, hRest.apart⟩,
      List.forall_mem_cons.2 ⟨?_, hRest.forward⟩⟩, List.forall_mem_cons.2 ⟨?_, fun e he => ?_⟩⟩
    · have := hBehind e he
      simp only [edit, atEnd]
      omega
    · simp only [edit, atEnd]
      omega
    · simp only [edit, atEnd]
      omega
    · have := hBehind e he
      omega

theorem splice_atEnd {before after : List Char} {l : Line} (hStart : l.start = width before) :
    Edit.splice (atEnd l).edit (encode (before ++ (l.content ++ after))) =
      encode (before ++ (l.content.rdropWhile isGap ++ after)) := by
  obtain ⟨run, hRun, hWidth⟩ := exists_run l.content
  have hData : encode (before ++ (l.content ++ after)) =
      encode (before ++ l.content.rdropWhile isGap) ++ (encode run ++ encode after) := by
    simp only [← Utf8.encode_append, List.append_assoc, ← congrArg (· ++ after) hRun]
  rw [hData, Edit.splice_cut]
  · rw [← List.append_assoc before, Utf8.encode_append _ after]
    rfl
  · show ((l.start + width (l.content.rdropWhile isGap) : Nat) : Int) = (width (before ++ _) : Nat)
    rw [hStart, Utf8.width_append]
  · show ((l.start + width l.content : Nat) : Int) = (width (before ++ _) : Nat) + (width run : Nat)
    rw [hStart, Utf8.width_append, hWidth]
    omega

/-- **Deleting runs strips their lines**, whatever stands before them. -/
theorem spliceAll_runs (front ps : List (List Char × LineEnd)) (number n : Nat) :
    Edit.spliceAll (((((place number (width (joined front)) ps).filter fun l => picked l.content).map
        atEnd).take n).map edit) (encode (joined front ++ joined ps)) =
      encode (joined front ++ joined (stripFirst picked n ps)) := by
  induction ps generalizing front number n with
  | nil => cases n <;> rfl
  | cons p ps ih =>
    obtain ⟨content, ending⟩ := p
    cases n with
    | zero => rfl
    | succ n =>
      have hStart : width (joined front) + width content + ending.chars.length =
          width (joined (front ++ [(content, ending)])) := by
        rw [joined_append, joined_cons, joined_nil, List.append_nil, Utf8.width_append,
          Utf8.width_append, width_chars, Nat.add_assoc]
      have hFront (rest : List Char) : joined (front ++ [(content, ending)]) ++ rest =
          joined front ++ (content ++ (ending.chars ++ rest)) := by
        rw [joined_append, joined_cons, joined_nil]
        simp only [List.append_assoc, List.nil_append]
      -- The runs behind this line are deleted first, while the line is as it was.
      have hRest (m : Nat) := ih (front ++ [(content, ending)]) (number + 1) m
      simp only [hFront] at hRest
      rw [place, hStart, List.filter_cons, stripFirst, joined_cons]
      by_cases hPicked : picked content = true
      · rw [if_pos hPicked, if_pos hPicked, List.map_cons, List.take_succ_cons, List.map_cons,
          Edit.spliceAll, List.foldr_cons, ← Edit.spliceAll, hRest n, splice_atEnd, joined_cons]
        rfl
      · rw [if_neg hPicked, if_neg hPicked, hRest (n + 1), joined_cons]

theorem spliceAll_text (text : List Char) (n : Nat) :
    Edit.spliceAll (((runs picked text).take n).map edit) (encode text) =
      encode (joined (stripFirst picked n (pieces text))) := by
  have hSpliced := @spliceAll_runs picked [] (pieces text) 1 n
  rw [joined_nil, List.nil_append, joined_pieces] at hSpliced
  exact hSpliced

theorem ordered_edits (text : List Char) : Edit.Ordered ((runs picked text).map edit) := by
  have hSub : ((runs picked text).map edit).Sublist (((split text).map atEnd).map edit) :=
    (runs_sublist text).map edit
  rw [List.map_map] at hSub
  exact (ordered_place 1 0 (pieces text)).1.sublist hSub

theorem pairwise_runs (text : List Char) :
    (runs picked text).Pairwise fun run run' => run.start ≤ run'.start := by
  refine (List.pairwise_map.1 (ordered_edits text).pairwise_before).imp fun h => ?_
  have := Edit.start_le_of_before h.1
  simp only [edit] at this
  omega

theorem start_lt_stop {l : Line} (h : l.content.rdropWhile isGap ≠ l.content) :
    (atEnd l).start < (atEnd l).stop := by
  obtain ⟨run, hRun, hWidth⟩ := exists_run l.content
  have hSome : width run ≠ 0 := by
    intro hZero
    rw [Utf8.eq_nil_of_width hZero, List.append_nil] at hRun
    exact h hRun
  simp only [atEnd]
  omega

section Picked

variable (hPicked : ∀ content, picked content = true → content.rdropWhile isGap ≠ content)
include hPicked

theorem ordered_runs (text : List Char) (n : Nat) :
    Edit.Ordered (((runs picked text).take n).map edit) ∧
      ∀ e ∈ ((runs picked text).take n).map edit, 0 ≤ e.start ∧ e.start < e.stop := by
  refine ⟨(ordered_edits text).sublist ((List.take_sublist n _).map edit), ?_⟩
  intro e he
  obtain ⟨run, hRun, rfl⟩ := List.mem_map.1 he
  obtain ⟨l, hLine, rfl⟩ := List.mem_map.1 (List.mem_of_mem_take hRun)
  have := start_lt_stop (hPicked l.content (List.mem_filter.1 hLine).2)
  simp only [edit]
  omega

/-- **The edits of the first runs** strip the lines of these runs. -/
theorem applied?_runs (text : List Char) (n : Nat) :
    Edit.applied? text (((runs picked text).take n).map edit) =
      some (joined (stripFirst picked n (pieces text))) := by
  obtain ⟨hOrdered, hNonempty⟩ := ordered_runs hPicked text n
  rw [Edit.applied?_eq_decode?, Edit.select_of_ordered hOrdered hNonempty, spliceAll_text,
    Utf8.decode?_encode]

end Picked

/-! ### The runs of a scan -/

theorem rdropWhile_ne_of_hasRun {skip : Bool} {content : List Char} (h : hasRun skip content = true) :
    content.rdropWhile isGap ≠ content := by
  have hNe : stripped skip content ≠ content := bne_iff_ne.1 h
  rwa [stripped_of_ne hNe] at hNe

theorem stripped_eq_ite (skip : Bool) (content : List Char) :
    (if hasRun skip content then content.rdropWhile isGap else content) = stripped skip content := by
  by_cases h : stripped skip content = content
  · rw [if_neg (by simp [hasRun, h]), h]
  · rw [if_pos (by simp [hasRun, h]), stripped_of_ne h]

/-- **The edits of all runs** strip all lines. -/
theorem applied?_scan (text : List Char) (skip : Bool) :
    Edit.applied? text ((scan text skip).map edit) =
      some (joined ((pieces text).map fun p => (stripped skip p.1, p.2))) := by
  have hAll := applied?_runs (fun _ => @rdropWhile_ne_of_hasRun skip _) text
    (runs (hasRun skip) text).length
  rw [List.take_length, ← scan_eq, stripFirst_of_le (by rw [scan_eq, length_runs])] at hAll
  simpa only [stripped_eq_ite] using hAll

theorem pieces_stripped (text : List Char) (skip : Bool) :
    pieces (joined ((pieces text).map fun p => (stripped skip p.1, p.2))) =
      met ((pieces text).map fun p => (stripped skip p.1, p.2)) := by
  refine pieces_joined ((areLines_pieces text).map fun content hPlain => ?_)
  rw [stripped]
  split
  · exact hPlain
  · exact isPlain_rdropWhile hPlain

theorem joined_stripped (text : List Char) (skip : Bool) :
    joined ((pieces text).map fun p => (stripped skip p.1, p.2)) =
      (split text).flatMap fun l => stripped skip l.content ++ l.ending.chars := by
  have hPieces : pieces text = (split text).map fun l => (l.content, l.ending) :=
    (map_place 1 0 (pieces text)).symm
  rw [hPieces, List.map_map, joined, List.flatMap_map]
  rfl

/-- **Deleting all trailing runs** leaves every line with its end, but without the spaces and tabs
before it; the new text has no runs, and each run that was deleted stood at its line and column. -/
theorem stripped_of_scan (text : List Char) (skip : Bool) :
    ∃ fixed, Edit.applied? text ((scan text skip).map edit) = some fixed ∧
      fixed = (split text).flatMap (fun l => stripped skip l.content ++ l.ending.chars) ∧
      scan fixed skip = [] ∧
      ∀ run ∈ scan text skip, (Buffer.ofText text).position run.start = ⟨run.line, run.column⟩ := by
  refine ⟨_, applied?_scan text skip, joined_stripped text skip, ?_, ?_⟩
  · rw [scan_eq, runs, List.map_eq_nil_iff, List.filter_eq_nil_iff]
    intro l hLine
    have hMem := mem_pieces_of_mem_split hLine
    rw [pieces_stripped] at hMem
    obtain ⟨q, hq, hEq⟩ := exists_of_mem_met hMem
    obtain ⟨p, -, rfl⟩ := List.mem_map.1 hq
    have hContent : stripped skip p.1 = l.content := hEq
    rw [hasRun, ← hContent, stripped_stripped, bne_self_eq_false]
    exact Bool.false_ne_true
  · intro run hRun
    rw [scan_eq] at hRun
    exact position_start hRun

end TrailingRun

/-! ### The lines of a fixed text -/

namespace Text

theorem stripped_eq_nil_iff {keepBlank : Bool} {content : List Char} :
    stripped keepBlank content = [] ↔ content = [] ∨ keepBlank = false ∧ content.all isGap = true := by
  have hNil : content.rdropWhile isGap = [] ↔ content.all isGap = true := by
    rw [List.rdropWhile_eq_nil_iff, List.all_eq_true]
  have hEmpty : content = [] → content.all isGap = true := by
    rintro rfl
    rfl
  rw [stripped]
  split
  next hKept =>
    obtain ⟨rfl, -⟩ := Bool.and_eq_true_iff.1 hKept
    simp
  next hStripped =>
    rw [hNil]
    cases keepBlank with
    | false => simpa using hEmpty
    | true =>
      have hSome : ¬ content.all isGap = true := hStripped
      exact iff_of_false hSome fun h => hSome (hEmpty (h.resolve_right fun h => nomatch h.1))

theorem joins_map (f : List Char → List Char) (ps : List (List Char × LineEnd)) :
    joins (ps.map fun p => (f p.1, p.2)) =
      (ps.zip ps.tail).countP fun (p, q) => p.2 = .cr ∧ f q.1 = [] ∧ q.2 = .lf := by
  rw [joins, ← List.map_tail, List.zip_map, List.countP_map]
  refine List.countP_congr fun x _ => ?_
  simp

/-- How many lines of spaces and tabs, ended by a line feed, stand behind a carriage return. -/
def unclosed (text : List Char) : Nat :=
  ((pieces text).zip (pieces text).tail).countP fun (p, q) =>
    p.2 = .cr ∧ q.1.all isGap ∧ q.2 = .lf

/-- The stripped lines that meet are those behind an unclosed carriage return, and none where blank
lines are kept. -/
theorem joins_stripped (skip : Bool) (text : List Char) :
    joins ((pieces text).map fun p => (stripped skip p.1, p.2)) =
      if skip then 0 else unclosed text := by
  rw [joins_map]
  simp only [stripped_eq_nil_iff]
  cases skip with
  | false =>
    refine List.countP_congr fun (p, q) _ => ?_
    have hEmpty : q.1 = [] → ∀ c ∈ q.1, isGap c = true := fun h => by simp [h]
    simpa using fun _ _ => hEmpty
  | true =>
    -- Only a line that was empty is empty then, and the lines of a text stay apart.
    have hSame : (pieces text).map (fun p => (id p.1, p.2)) = pieces text := List.map_id _
    have hApart := joins_map id (pieces text)
    rw [hSame, joins_pieces] at hApart
    simpa using hApart.symm

end Text

namespace TrailingSpaces

open Text

theorem edits_report (runs : List TrailingRun) (path : String) (severity : Value) (b : Buffer) :
    Finding.edits (runs.map fun run => (report run).finding id path severity b) =
      runs.map TrailingRun.edit := by
  rw [Finding.edits, List.flatMap_map]
  exact List.map_eq_flatMap.symm

/-- **The lines of a fixed text** are the stripped ones, and they end as they did, but for carriage
returns behind which there were only spaces and tabs before a line feed: where blank lines are not kept,
that line feed then belongs to the line of the carriage return. -/
theorem lines_of_visit (path : String) (text : List Char) (tree : Option Node) {options : Value}
    {config : TrailingConfig} (hRead : TrailingConfig.read (Rule.givenOptions options) = .ok config) :
    ∃ findings fixed,
      visit ((Analysis.viewOf path text tree).withOptions options) = .ok findings ∧
      Edit.applied? text (Finding.edits findings) = some fixed ∧
      pieces fixed = met ((pieces text).map fun p => (stripped config.skipBlankLines p.1, p.2)) ∧
      (split fixed).length + (if config.skipBlankLines then 0 else unclosed text) =
        (split text).length ∧
      ((split fixed).map Line.ending = (split text).map Line.ending ↔
        config.skipBlankLines = true ∨ unclosed text = 0) := by
  have hPieces := TrailingRun.pieces_stripped text config.skipBlankLines
  have hJoins := joins_stripped config.skipBlankLines text
  have hApplied := TrailingRun.applied?_scan text config.skipBlankLines
  generalize hLines : (pieces text).map (fun p => (stripped config.skipBlankLines p.1, p.2)) = ps
    at hPieces hJoins hApplied ⊢
  refine ⟨_, joined ps, visit_viewOf path text tree hRead, ?_, hPieces, ?_, ?_⟩
  · rw [edits_report, hApplied]
  · have hLength := length_met ps
    rw [split, split, length_place, length_place, hPieces, ← hJoins, hLength, ← hLines, List.length_map]
  · have hEnds : (pieces text).map Prod.snd = ps.map Prod.snd := by
      rw [← hLines, List.map_map]
      rfl
    rw [map_ending_split, map_ending_split, hPieces, hEnds, map_snd_met, hJoins]
    cases config.skipBlankLines <;> simp

/-- A blank line between a carriage return and its line feed, and another one that closes nothing. -/
def halved : List Char := "a\r \n\tb \r\n ".toList

theorem lines_of_visit_halved :
    TrailingConfig.read (Rule.givenOptions .null) = .ok ⟨false⟩ ∧
      ∃ findings fixed,
        visit ((Analysis.viewOf "a.js" halved none).withOptions .null) = .ok findings ∧
        Edit.applied? halved (Finding.edits findings) = some fixed ∧
        pieces fixed = [(['a'], .crlf), (['\t', 'b'], .crlf), ([], .absent)] ∧
        (split fixed).length + 1 = (split halved).length := by
  have hRead : TrailingConfig.read (Rule.givenOptions .null) = .ok ⟨false⟩ := rfl
  obtain ⟨findings, fixed, hVisit, hApplied, hPieces, hLength, -⟩ :=
    lines_of_visit "a.js" halved none hRead
  refine ⟨hRead, findings, fixed, hVisit, hApplied, hPieces.trans ?_, ?_⟩
  · decide +kernel
  · have hUnclosed : unclosed halved = 1 := by decide +kernel
    rw [hUnclosed] at hLength
    exact hLength

/-- **A fixed text can have fewer lines.** -/
theorem fewer_lines :
    ∃ findings fixed,
      visit ((Analysis.viewOf "a.js" "a\r \nb".toList none).withOptions .null) = .ok findings ∧
      Edit.applied? "a\r \nb".toList (Finding.edits findings) = some fixed ∧
      (split "a\r \nb".toList).map Line.ending = [.cr, .lf, .absent] ∧
      (split fixed).map Line.ending = [.crlf, .absent] := by
  have hRead : TrailingConfig.read (Rule.givenOptions .null) = .ok ⟨false⟩ := rfl
  refine ⟨_, "a\r\nb".toList, visit_viewOf "a.js" _ none hRead, ?_, by decide, by decide⟩
  rw [edits_report, TrailingRun.applied?_scan]
  decide

end TrailingSpaces

end TidySpace
