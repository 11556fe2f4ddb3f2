import Mathlib
import TidySpace.Proofs.Hunks
import TidySpace.Proofs.Patches

/-! # Unified differences as patches

The unified difference of two texts is meant to be read as a patch from one to the other. It is made of
lines that end at any line break, and a patch is read off lines that end at line feeds, so this is about
texts whose lines end at line feeds only (`IsPlain`). Then the hunks of the difference, which lead from
the lines of one text to those of the other, are read back and applied (`leads_of_ended`), unless a line
that is shown before the last one lacks its line feed: the next line is then written right behind it
(`not_leads_of_open`). That line is the last one of the text before the change, where lines are added
behind it.
-/

namespace TidySpace.Diff

open Patch (Ended IsLine textLines)

/-- A text that holds no line break but line feeds, with or without a carriage return before. -/
def IsPlain (text : List Char) : Prop := cutLines text = textLines text

instance (text : List Char) : Decidable (IsPlain text) :=
  inferInstanceAs (Decidable (cutLines text = textLines text))

/-! ### Hunks as they are read -/

def Segment.body : Segment → List Patch.Line
  | .keep lines => lines.map fun line => ⟨.kept, line.toList⟩
  | .change removed added =>
    (removed.map fun line => ⟨.removed, line.toList⟩) ++ added.map fun line => ⟨.added, line.toList⟩

def Hunk.body (h : Hunk) : List Patch.Line := h.segments.flatMap Segment.body

def rangeOf (start length : Nat) : Patch.Range := ⟨if length = 0 then start else start + 1, length⟩

def Hunk.patch (h : Hunk) : Patch.Hunk :=
  ⟨rangeOf h.left h.lefts.length, rangeOf h.right h.rights.length, h.body⟩

def Hunk.head (h : Hunk) : List Char :=
  '@' :: '@' :: ' ' :: '-' :: ((rangeText h.left h.lefts.length).toList ++
    ' ' :: '+' :: ((rangeText h.right h.rights.length).toList ++ [' ', '@', '@', '\n']))

def Hunk.texts (h : Hunk) : List (List Char) := h.head :: h.body.map Patch.Line.text

/-- The lines that the difference of two texts shows. -/
def shown (original fixed : List Char) : List Patch.Line :=
  (hunks (script (lines original) (lines fixed))).flatMap Hunk.body

theorem toList_segmentText (s : Segment) :
    (segmentText s).map String.toList = s.body.map Patch.Line.text := by
  cases s with
  | keep lines =>
    simp [segmentText, Segment.body, Patch.Line.text, Patch.Mark.char, Function.comp_def]
  | change removed added =>
    simp [segmentText, Segment.body, Patch.Line.text, Patch.Mark.char, Function.comp_def]

theorem toList_hunkText (h : Hunk) : (hunkText h).map String.toList = h.texts := by
  have hBody : (h.segments.flatMap segmentText).map String.toList = h.body.map Patch.Line.text := by
    rw [Hunk.body, List.map_flatMap, List.map_flatMap]
    simp only [toList_segmentText]
  rw [hunkText, List.map_cons, hBody, Hunk.texts]
  simp [Hunk.head, Hunk.lefts, Hunk.rights]

theorem count_body {side : Patch.Mark → Nat} {pick : Segment → List String}
    (hSegment : ∀ s : Segment, Patch.count side s.body = (pick s).length) (h : Hunk) :
    Patch.count side h.body = (h.segments.flatMap pick).length := by
  rw [Hunk.body]
  induction h.segments with
  | nil => rfl
  | cons s segments ih =>
    rw [List.flatMap_cons, List.flatMap_cons, List.length_append, ← ih, ← hSegment, Patch.count_append]

theorem count_left_body (h : Hunk) : Patch.count Patch.Mark.left h.body = h.lefts.length := by
  refine count_body (fun s => ?_) h
  cases s with
  | keep lines =>
    rw [Segment.body, Patch.count_map]
    exact Nat.mul_one lines.length
  | change removed added =>
    rw [Segment.body, Patch.count_append, Patch.count_map, Patch.count_map]
    show removed.length * 1 + added.length * 0 = removed.length
    omega

theorem count_right_body (h : Hunk) : Patch.count Patch.Mark.right h.body = h.rights.length := by
  refine count_body (fun s => ?_) h
  cases s with
  | keep lines =>
    rw [Segment.body, Patch.count_map]
    exact Nat.mul_one lines.length
  | change removed added =>
    rw [Segment.body, Patch.count_append, Patch.count_map, Patch.count_map]
    show removed.length * 0 + added.length * 1 = added.length
    omega

/-! ### Reading -/

theorem place_rangeOf (start length : Nat) : (rangeOf start length).place = start := by
  rw [Patch.Range.place, rangeOf]
  dsimp only
  split <;> omega

theorem toList_toString (n : Nat) : (toString n).toList = Nat.toDigits 10 n := by
  rw [Nat.toString_eq_repr, Nat.toList_repr]

theorem readNumber?_toDigits (n : Nat) {c : Char} (hc : c.isDigit = false) (rest : List Char) :
    Patch.readNumber? (Nat.toDigits 10 n ++ c :: rest) = some (n, c :: rest) :=
  Patch.readNumber?_toDigits n (by simpa using hc)

theorem toList_rangeText (start length : Nat) : (rangeText start length).toList =
    Nat.toDigits 10 (rangeOf start length).start ++
      if length = 1 then [] else ',' :: Nat.toDigits 10 length := by
  rw [rangeText, rangeOf]
  split
  next hOne => rw [toList_toString, hOne, if_neg Nat.one_ne_zero, List.append_nil]
  next =>
    split
    next hZero =>
      rw [String.toList_append, toList_toString, hZero]
      rfl
    next =>
      rw [String.toList_append, String.toList_append, toList_toString, toList_toString]
      simp

/-- **A range that was written is read.** -/
theorem readRange?_rangeText (start length : Nat) (rest : List Char) :
    Patch.readRange? ((rangeText start length).toList ++ ' ' :: rest) =
      some (rangeOf start length, ' ' :: rest) := by
  rw [toList_rangeText, List.append_assoc, Patch.readRange?]
  by_cases hOne : length = 1
  · rw [if_pos hOne, List.nil_append, readNumber?_toDigits _ (by decide), rangeOf, hOne]
    rfl
  · have hStart : 0 < (rangeOf start length).start ∨ length = 0 := by
      rw [rangeOf]
      dsimp only
      split <;> omega
    rw [if_neg hOne, List.cons_append, readNumber?_toDigits _ (by decide)]
    show (Patch.readNumber? (Nat.toDigits 10 length ++ ' ' :: rest)).bind _ = _
    rw [readNumber?_toDigits _ (by decide)]
    exact if_pos hStart

theorem not_mem_rangeText (start length : Nat) : '\n' ∉ (rangeText start length).toList := by
  have hNumber : ∀ n, '\n' ∉ Nat.toDigits 10 n := fun n hMem =>
    absurd (Nat.isDigit_of_mem_toDigits (by decide) (by decide) hMem) (by decide)
  rw [toList_rangeText]
  split <;> simp [hNumber]

/-- **A head that was written is read.** -/
theorem readHead?_head (h : Hunk) : Patch.readHead? h.head =
    some (rangeOf h.left h.lefts.length, rangeOf h.right h.rights.length) := by
  simp only [Hunk.head, Patch.readHead?, readRange?_rangeText]

theorem exists_head (h : Hunk) : ∃ init, h.head = init ++ ['\n'] ∧ '\n' ∉ init := by
  refine ⟨'@' :: '@' :: ' ' :: '-' :: ((rangeText h.left h.lefts.length).toList ++
    ' ' :: '+' :: ((rangeText h.right h.rights.length).toList ++ [' ', '@', '@'])), ?_, ?_⟩
  · simp [Hunk.head]
  · simp [not_mem_rangeText]

/-- **The hunks of a difference are read** where their lines stand. -/
theorem readHunks?_texts (hs : List Hunk) (rest : List (List Char)) :
    Patch.readHunks? (hs.flatMap Hunk.texts ++ rest) =
      (Patch.readHunks? rest).map (hs.map Hunk.patch ++ ·) := by
  induction hs with
  | nil =>
    show Patch.readHunks? rest = _
    cases Patch.readHunks? rest <;> rfl
  | cons h hs ih =>
    rw [List.flatMap_cons, List.append_assoc, Hunk.texts, List.cons_append,
      Patch.readHunks?_append (readHead?_head h) (count_left_body h) (count_right_body h), ih,
      Option.map_map]
    rfl

/-! ### Applying -/

theorem applyLines?_kept (lines : List (List Char)) (body : List Patch.Line) (rest : List (List Char)) :
    Patch.applyLines? (lines.map (⟨.kept, ·⟩) ++ body) (lines ++ rest) =
      (Patch.applyLines? body rest).map fun (out, after) => (lines ++ out, after) := by
  induction lines with
  | nil =>
    show Patch.applyLines? body rest = _
    cases Patch.applyLines? body rest <;> rfl
  | cons line lines ih =>
    rw [List.map_cons, List.cons_append, List.cons_append, Patch.applyLines?, if_pos rfl, ih,
      Option.map_map]
    rfl

theorem applyLines?_removed (lines : List (List Char)) (body : List Patch.Line)
    (rest : List (List Char)) :
    Patch.applyLines? (lines.map (⟨.removed, ·⟩) ++ body) (lines ++ rest) =
      Patch.applyLines? body rest := by
  induction lines with
  | nil => rfl
  | cons line lines ih =>
    rw [List.map_cons, List.cons_append, List.cons_append, Patch.applyLines?, if_pos rfl, ih]

theorem applyLines?_added (lines : List (List Char)) (body : List Patch.Line) (rest : List (List Char)) :
    Patch.applyLines? (lines.map (⟨.added, ·⟩) ++ body) rest =
      (Patch.applyLines? body rest).map fun (out, after) => (lines ++ out, after) := by
  induction lines with
  | nil =>
    show Patch.applyLines? body rest = _
    cases Patch.applyLines? body rest <;> rfl
  | cons line lines ih =>
    rw [List.map_cons, List.cons_append, Patch.applyLines?, ih, Option.map_map]
    rfl

theorem applyLines?_body (h : Hunk) (rest : List (List Char)) :
    Patch.applyLines? h.body (h.lefts.map String.toList ++ rest) =
      some (h.rights.map String.toList, rest) := by
  rw [Hunk.body, Hunk.lefts, Hunk.rights]
  induction h.segments with
  | nil => rfl
  | cons s segments ih =>
    rw [List.flatMap_cons, List.flatMap_cons, List.flatMap_cons, List.map_append, List.map_append,
      List.append_assoc]
    cases s with
    | keep lines =>
      have hKept := applyLines?_kept (lines.map String.toList) (segments.flatMap Segment.body)
        ((segments.flatMap Segment.left).map String.toList ++ rest)
      rw [List.map_map, ih] at hKept
      exact hKept
    | change removed added =>
      have hRemoved := applyLines?_removed (removed.map String.toList)
        ((added.map String.toList).map (⟨.added, ·⟩) ++ segments.flatMap Segment.body)
        ((segments.flatMap Segment.left).map String.toList ++ rest)
      rw [applyLines?_added, List.map_map, List.map_map, ih] at hRemoved
      rw [Segment.body, List.append_assoc]
      exact hRemoved

/-- **Hunks that lead from one list of lines to another** are applied to the one and give the other. -/
theorem applyFrom?_of_leads {i j : Nat} {hs : List Hunk} {a b : List String} (h : Leads i j hs a b) :
    Patch.applyFrom? i j (hs.map Hunk.patch) (a.map String.toList) = some (b.map String.toList) := by
  induction h with
  | done => rfl
  | @hunk i j kept h hs a b hLeft hRight hRest ih =>
    have hPlaces : h.patch.left.place = h.left ∧ h.patch.right.place = h.right :=
      ⟨place_rangeOf .., place_rangeOf ..⟩
    have hLengths : h.patch.left.length = h.lefts.length ∧ h.patch.right.length = h.rights.length :=
      ⟨rfl, rfl⟩
    have hSkipped : h.left - i = kept.length := by omega
    have hBody : Patch.applyLines? h.patch.body ((h.lefts ++ a).map String.toList) =
        some (h.rights.map String.toList, a.map String.toList) := by
      rw [List.map_append]
      exact applyLines?_body h _
    rw [List.map_cons, Patch.applyFrom?, hPlaces.1, hPlaces.2, hSkipped, hLengths.1, hLengths.2,
      if_pos ⟨hLeft, hRight, by rw [List.length_map, List.length_append]; omega⟩, ← List.map_drop,
      List.drop_left, hBody]
    dsimp only
    rw [ih, ← List.map_take, List.take_left, Option.map_some, List.map_append, List.map_append,
      List.append_assoc]

/-! ### The difference of two texts -/

/-- The lines of a difference that is not empty, as they are written. -/
def diffLines (hs : List Hunk) (path : String) : List (List Char) :=
  ("--- a/".toList ++ path.toList ++ ['\n']) :: ("+++ b/".toList ++ path.toList ++ ['\n']) ::
    hs.flatMap Hunk.texts

theorem toList_unified {original fixed : List Char} (path : String)
    (hSome : hunks (script (lines original) (lines fixed)) ≠ []) :
    (unified original fixed path).toList =
      (diffLines (hunks (script (lines original) (lines fixed))) path).flatten := by
  unfold unified
  split
  next hNil => exact absurd hNil hSome
  next =>
    have hTexts : ∀ hs : List Hunk, (hs.flatMap hunkText).flatMap String.toList =
        (hs.flatMap Hunk.texts).flatten := fun hs => by
      rw [List.flatMap_def, List.map_flatMap]
      simp only [toList_hunkText]
    rw [String.toList_join, List.flatMap_cons, List.flatMap_cons, hTexts, diffLines, List.flatten_cons,
      List.flatten_cons]
    simp [String.toList_append]

theorem lines_injective {text text' : List Char} (h : lines text = lines text') : text = text' := by
  have hCut : cutLines text = cutLines text' := by
    have hChars := congrArg (List.map String.toList) h
    simpa [lines, Function.comp_def] using hChars
  rw [← cutLines_flatten text, hCut, cutLines_flatten]

/-- **The difference is empty** exactly if the texts are equal. -/
theorem unified_eq_empty_iff {original fixed : List Char} {path : String} :
    unified original fixed path = "" ↔ original = fixed := by
  constructor
  · intro hEmpty
    refine lines_injective (hunks_eq_nil_iff.1 (Classical.byContradiction fun hSome => ?_))
    have hText := toList_unified path hSome
    rw [hEmpty] at hText
    cases hText
  · rintro rfl
    rw [unified, hunks_eq_nil_iff.2 rfl]

/-! ### Lines of a difference -/

theorem content_of_mem_body {h : Hunk} {p : List Char → Prop} (hLefts : ∀ line ∈ h.lefts, p line.toList)
    (hRights : ∀ line ∈ h.rights, p line.toList) : ∀ l ∈ h.body, p l.content := by
  intro l hl
  obtain ⟨s, hs, hl⟩ := List.mem_flatMap.1 hl
  have hLeft : ∀ line ∈ s.left, p line.toList := fun line hLine =>
    hLefts line (List.mem_flatMap.2 ⟨s, hs, hLine⟩)
  have hRight : ∀ line ∈ s.right, p line.toList := fun line hLine =>
    hRights line (List.mem_flatMap.2 ⟨s, hs, hLine⟩)
  cases s with
  | keep lines =>
    obtain ⟨line, hLine, rfl⟩ := List.mem_map.1 hl
    exact hLeft line hLine
  | change removed added =>
    rcases List.mem_append.1 hl with hl | hl
    · obtain ⟨line, hLine, rfl⟩ := List.mem_map.1 hl
      exact hLeft line hLine
    · obtain ⟨line, hLine, rfl⟩ := List.mem_map.1 hl
      exact hRight line hLine

theorem isLine_text {l : Patch.Line} (h : IsLine l.content) : IsLine l.text := by
  refine ⟨List.cons_ne_nil _ _, ?_⟩
  rw [Patch.Line.text, List.dropLast_cons_of_ne_nil h.1, List.mem_cons, not_or]
  refine ⟨?_, h.2⟩
  cases l.mark <;> decide

section Lines

variable {original fixed : List Char} {h : Hunk}

theorem isLine_of_mem_lines {line : String} (hLine : line ∈ lines original) : IsLine line.toList := by
  obtain ⟨chars, hChars, rfl⟩ := List.mem_map.1 hLine
  rw [String.toList_ofList]
  exact Patch.isLine_of_mem_cutLines hChars

theorem ended_of_mem_lines (hPlain : IsPlain original) {line : String}
    (hLine : line ∈ (lines original).dropLast) : Ended line.toList := by
  rw [lines, ← List.map_dropLast] at hLine
  obtain ⟨chars, hChars, rfl⟩ := List.mem_map.1 hLine
  rw [hPlain] at hChars
  rw [String.toList_ofList]
  exact Patch.ended_of_mem_dropLast hChars

theorem isLine_of_mem_body (hMem : h ∈ hunks (script (lines original) (lines fixed))) :
    ∀ l ∈ h.body, IsLine l.text := by
  obtain ⟨hLefts, hRights⟩ := (leads_hunks _ _).mem h hMem
  intro l hl
  exact isLine_text (content_of_mem_body (fun line hLine => isLine_of_mem_lines (hLefts line hLine))
    (fun line hLine => isLine_of_mem_lines (hRights line hLine)) l hl)

theorem ended_of_mem_body (hOriginal : IsPlain original) (hFixed : IsPlain fixed)
    (hMem : h ∈ (hunks (script (lines original) (lines fixed))).dropLast) :
    ∀ l ∈ h.body, Ended l.text := by
  obtain ⟨hLefts, hRights⟩ := (leads_hunks _ _).mem_dropLast (fun h => ne_nil_of_mem_tail) h hMem
  intro l hl
  exact (content_of_mem_body (fun line hLine => ended_of_mem_lines hOriginal (hLefts line hLine))
    (fun line hLine => ended_of_mem_lines hFixed (hRights line hLine)) l hl).cons _

end Lines

/-! ### The difference as a patch -/

section Patches

variable {original fixed : List Char} {path : String} {pre : List Hunk} {last : Hunk}

theorem readPatch?_names (rest : List (List Char)) :
    Patch.readPatch? (("--- a/".toList ++ path.toList ++ ['\n']) ::
      ("+++ b/".toList ++ path.toList ++ ['\n']) :: rest) = Patch.readHunks? rest := by
  rw [Patch.readPatch?, if_pos ⟨⟨"a/".toList ++ path.toList ++ ['\n'], rfl⟩,
    ⟨"b/".toList ++ path.toList ++ ['\n'], rfl⟩⟩]

theorem forall_mem_front {p : List Char → Prop} (hPath : '\n' ∉ path.toList)
    (hFeed : ∀ init, '\n' ∉ init → p (init ++ ['\n'])) (hBody : ∀ h ∈ pre, ∀ l ∈ h.body, p l.text) :
    ∀ l ∈ ("--- a/".toList ++ path.toList ++ ['\n']) :: ("+++ b/".toList ++ path.toList ++ ['\n']) ::
      (pre.flatMap Hunk.texts ++ [last.head]), p l := by
  have hName : ∀ side : List Char, '\n' ∉ side → p (side ++ path.toList ++ ['\n']) := by
    intro side hSide
    refine hFeed _ ?_
    rw [List.mem_append, not_or]
    exact ⟨hSide, hPath⟩
  have hHead : ∀ h : Hunk, p h.head := by
    intro h
    obtain ⟨init, hHead, hInit⟩ := exists_head h
    rw [hHead]
    exact hFeed init hInit
  intro l hl
  rw [List.mem_cons, List.mem_cons, List.mem_append, List.mem_flatMap, List.mem_singleton] at hl
  rcases hl with rfl | rfl | ⟨h, hMem, hl⟩ | rfl
  · exact hName _ (by decide)
  · exact hName _ (by decide)
  · rcases List.mem_cons.1 hl with rfl | hl
    · exact hHead h
    · obtain ⟨m, hm, rfl⟩ := List.mem_map.1 hl
      exact hBody h hMem m hm
  · exact hHead last

variable (hOriginal : IsPlain original) (hFixed : IsPlain fixed) (hPath : '\n' ∉ path.toList)
  (hHunks : hunks (script (lines original) (lines fixed)) = pre ++ [last])
include hOriginal hFixed hPath hHunks

theorem readPatch?_unified : Patch.readPatch? (textLines (unified original fixed path).toList) =
    (Patch.readHunks? (last.head :: textLines (last.body.map Patch.Line.text).flatten)).map
      (pre.map Hunk.patch ++ ·) := by
  have hLines : ∀ h ∈ pre, ∀ l ∈ h.body, IsLine l.text := by
    intro h hMem
    have hShown : h ∈ hunks (script (lines original) (lines fixed)) := by
      rw [hHunks]
      exact List.mem_append_left [last] hMem
    exact isLine_of_mem_body hShown
  have hEnded : ∀ h ∈ pre, ∀ l ∈ h.body, Ended l.text := by
    intro h hMem
    refine ended_of_mem_body hOriginal hFixed ?_
    rwa [hHunks, List.dropLast_concat]
  have hText : (unified original fixed path).toList =
      (("--- a/".toList ++ path.toList ++ ['\n']) :: ("+++ b/".toList ++ path.toList ++ ['\n']) ::
        (pre.flatMap Hunk.texts ++ [last.head])).flatten ++ (last.body.map Patch.Line.text).flatten := by
    rw [toList_unified path (by rw [hHunks]; simp), hHunks, diffLines, List.flatMap_append]
    simp [Hunk.texts]
  rw [hText, Patch.textLines_flatten_append
      (forall_mem_front hPath (fun init => Patch.isLine_append) hLines)
      (forall_mem_front hPath (fun init _ => Patch.ended_append init) hEnded),
    List.cons_append, List.cons_append, readPatch?_names, List.append_assoc, readHunks?_texts,
    List.singleton_append]

/-- **The difference is read and applied** if all lines that its last hunk shows, but the last one, have
their line feeds. -/
theorem leads_of_ended (hEnded : ∀ l ∈ last.body.dropLast, Ended l.text) :
    Patch.Leads (unified original fixed path).toList original fixed := by
  have hLines : ∀ l ∈ last.body.map Patch.Line.text, IsLine l :=
    List.forall_mem_map.2 (isLine_of_mem_body (by rw [hHunks]; simp))
  have hBack : textLines (last.body.map Patch.Line.text).flatten = last.body.map Patch.Line.text := by
    refine Patch.textLines_flatten hLines ?_
    rw [← List.map_dropLast]
    exact List.forall_mem_map.2 hEnded
  refine ⟨(pre ++ [last]).map Hunk.patch, ?_, ?_⟩
  · have hLast := readHunks?_texts [last] []
    rw [List.append_nil, List.flatMap_cons, List.flatMap_nil, List.append_nil] at hLast
    rw [readPatch?_unified hOriginal hFixed hPath hHunks, hBack, ← Hunk.texts, hLast, List.map_append]
    rfl
  · have hApplied := applyFrom?_of_leads (leads_hunks (lines original) (lines fixed))
    have hTexts : ∀ text, (lines text).map String.toList = cutLines text := fun text => by
      simp [lines, Function.comp_def]
    rw [hHunks, hTexts, hTexts, hOriginal] at hApplied
    rw [Patch.applyPatch?, hApplied, Option.map_some, cutLines_flatten]

/-- **The difference is not read** if its last hunk shows a line without its line feed before another. -/
theorem not_leads_of_open (hOpen : ¬ ∀ l ∈ last.body.dropLast, Ended l.text) :
    ¬ Patch.Leads (unified original fixed path).toList original fixed := by
  rintro ⟨found, hRead, -⟩
  have hLines : ∀ l ∈ last.body, IsLine l.text := isLine_of_mem_body (by rw [hHunks]; simp)
  have hNone : Patch.readFrom? (rangeOf last.left last.lefts.length).length
      (rangeOf last.right last.rights.length).length
      (textLines (last.body.map Patch.Line.text).flatten) = none := by
    refine Patch.readFrom?_of_merged last.body hLines hOpen (Nat.le_of_eq ?_)
    rw [count_left_body, count_right_body]
    rfl
  rw [readPatch?_unified hOriginal hFixed hPath hHunks, Patch.readHunks?_head (readHead?_head last),
    hNone] at hRead
  cases hRead

end Patches

/-- Whether the lines that are shown have their line feeds is a matter of the last hunk. -/
theorem ended_shown_iff {original fixed : List Char} {pre : List Hunk} {last : Hunk}
    (hOriginal : IsPlain original) (hFixed : IsPlain fixed)
    (hHunks : hunks (script (lines original) (lines fixed)) = pre ++ [last]) :
    (∀ l ∈ (shown original fixed).dropLast, Ended l.text) ↔
      ∀ l ∈ last.body.dropLast, Ended l.text := by
  have hPre : ∀ l ∈ pre.flatMap Hunk.body, Ended l.text := by
    intro l hl
    obtain ⟨h, hMem, hl⟩ := List.mem_flatMap.1 hl
    refine ended_of_mem_body hOriginal hFixed (h := h) ?_ l hl
    rwa [hHunks, List.dropLast_concat]
  rw [shown, hHunks, List.flatMap_append, List.flatMap_cons, List.flatMap_nil, List.append_nil]
  by_cases hNil : last.body = []
  · rw [hNil, List.append_nil]
    exact ⟨fun _ l hl => absurd hl List.not_mem_nil,
      fun _ l hl => hPre l (List.dropLast_subset _ hl)⟩
  · rw [List.dropLast_append_of_ne_nil hNil, List.forall_mem_append]
    exact ⟨And.right, fun hLast => ⟨hPre, hLast⟩⟩

/-- **The unified difference** is empty exactly for equal texts; and for texts whose lines end at line feeds
only, it is a patch from the one to the other exactly if all lines that it shows have their line feeds,
the last one aside. -/
theorem unified_leads_iff (original fixed : List Char) (path : String) :
    (unified original fixed path = "" ↔ original = fixed) ∧
    (IsPlain original → IsPlain fixed → '\n' ∉ path.toList →
      (Patch.Leads (unified original fixed path).toList original fixed ↔
        ∀ l ∈ (shown original fixed).dropLast, Ended l.text)) := by
  refine ⟨unified_eq_empty_iff, fun hOriginal hFixed hPath => ?_⟩
  rcases List.eq_nil_or_concat (hunks (script (lines original) (lines fixed))) with
    hNil | ⟨pre, last, hHunks⟩
  · obtain rfl := lines_injective (hunks_eq_nil_iff.1 hNil)
    have hLeads : Patch.Leads "".toList original original := by
      refine ⟨[], rfl, ?_⟩
      rw [Patch.applyPatch?, Patch.applyFrom?, Option.map_some, ← hOriginal, cutLines_flatten]
    rw [unified_eq_empty_iff.2 rfl, shown, hNil]
    exact ⟨fun _ l hl => absurd hl List.not_mem_nil, fun _ => hLeads⟩
  · rw [List.concat_eq_append] at hHunks
    rw [ended_shown_iff hOriginal hFixed hHunks]
    refine ⟨fun hLeads => ?_, leads_of_ended hOriginal hFixed hPath hHunks⟩
    exact Decidable.byContradiction fun hOpen =>
      not_leads_of_open hOriginal hFixed hPath hHunks hOpen hLeads

/-- A trailing space is taken off a first line; the last line has no line feed, but nothing follows it. -/
theorem unified_leads_iff_trailing :
    IsPlain "a \nb".toList ∧ IsPlain "a\nb".toList ∧ '\n' ∉ "a.js".toList ∧
    Patch.Leads (unified "a \nb".toList "a\nb".toList "a.js").toList "a \nb".toList "a\nb".toList := by
  have hOriginal : IsPlain "a \nb".toList := by decide
  have hFixed : IsPlain "a\nb".toList := by decide
  have hPath : '\n' ∉ "a.js".toList := by decide
  have hShown : shown "a \nb".toList "a\nb".toList =
      [⟨.removed, "a \n".toList⟩, ⟨.added, "a\n".toList⟩, ⟨.kept, "b".toList⟩] := by cbv
  refine ⟨hOriginal, hFixed, hPath, ?_⟩
  refine ((unified_leads_iff "a \nb".toList "a\nb".toList "a.js").2 hOriginal hFixed hPath).2 ?_
  rw [hShown]
  decide

/-- A form feed breaks a line of the difference and ends none: the two lines that it shows for the line that
changes are one behind the other. -/
theorem not_leads_of_form_feed :
    unified "a\x0cb \n".toList "a\x0cb\n".toList "a.js" =
      "--- a/a.js\n+++ b/a.js\n@@ -1,2 +1,2 @@\n a\x0c-b \n+b\n" ∧
    ¬ Patch.Leads (unified "a\x0cb \n".toList "a\x0cb\n".toList "a.js").toList "a\x0cb \n".toList
      "a\x0cb\n".toList := by
  have hText : unified "a\x0cb \n".toList "a\x0cb\n".toList "a.js" =
      "--- a/a.js\n+++ b/a.js\n@@ -1,2 +1,2 @@\n a\x0c-b \n+b\n" := by cbv
  have hNone : Patch.readPatch? (textLines
      "--- a/a.js\n+++ b/a.js\n@@ -1,2 +1,2 @@\n a\x0c-b \n+b\n".toList) = none := by cbv
  refine ⟨hText, ?_⟩
  rintro ⟨found, hRead, -⟩
  rw [hText, hNone] at hRead
  cases hRead

/-- Without line feeds, the removed line and the added one are shown as one. -/
example : unified "a ".toList "a".toList "a.js" =
    "--- a/a.js\n+++ b/a.js\n@@ -1 +1 @@\n-a +a" := by cbv

end TidySpace.Diff
