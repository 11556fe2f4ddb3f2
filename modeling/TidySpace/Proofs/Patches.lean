import TidySpace.Diff.Unified

/-! # Reading and applying a patch

A patch is read off the lines of a text, which end at line feeds only: two lines name the sides, then
hunks follow. The head of a hunk tells where it stands and how many lines of both sides it has; its
lines are marked as kept, removed or added, and there are exactly as many as the head tells
(`readPatch?`). A patch is applied to a text whose lines stand where it says (`applyPatch?`).

Lines that are written one after the other are read back if each has its line feed, the last one aside
(`textLines_flatten`). If one lacks it, then the next is read as part of it; as the head counts both,
the hunk is not read at all (`readFrom?_of_merged`).
-/

namespace TidySpace.Patch

open Diff (consLine cutLines)

/-! ### Lines of a text -/

/-- The lines of a text with their line feeds; the last one may lack it. -/
def textLines : List Char → List (List Char)
  | [] => []
  | c :: cs => if c = '\n' then [c] :: textLines cs else consLine c (textLines cs)

/-- A line that has its line feed. -/
def Ended (line : List Char) : Prop := line.getLast? = some '\n'

instance (line : List Char) : Decidable (Ended line) :=
  inferInstanceAs (Decidable (line.getLast? = some '\n'))

/-- Some characters with no line feed but at their end. -/
def IsLine (line : List Char) : Prop := line ≠ [] ∧ '\n' ∉ line.dropLast

theorem textLines_append {init : List Char} (h : '\n' ∉ init) (cs : List Char) :
    textLines (init ++ '\n' :: cs) = (init ++ ['\n']) :: textLines cs := by
  induction init with
  | nil => rw [List.nil_append, textLines, if_pos rfl]; rfl
  | cons c init ih =>
    rw [List.mem_cons, not_or] at h
    rw [List.cons_append, textLines, if_neg (Ne.symm h.1), ih h.2]
    rfl

theorem textLines_of_not_mem {line : List Char} (h : '\n' ∉ line) (hSome : line ≠ []) :
    textLines line = [line] := by
  induction line with
  | nil => exact absurd rfl hSome
  | cons c line ih =>
    rw [List.mem_cons, not_or] at h
    rw [textLines, if_neg (Ne.symm h.1)]
    cases line with
    | nil => rfl
    | cons d line => rw [ih h.2 (List.cons_ne_nil d line)]; rfl

theorem Ended.exists_init {line : List Char} (h : Ended line) : ∃ init, line = init ++ ['\n'] :=
  List.getLast?_eq_some_iff.1 h

theorem ended_append (init : List Char) : Ended (init ++ ['\n']) :=
  List.getLast?_eq_some_iff.2 ⟨init, rfl⟩

theorem isLine_append {init : List Char} (h : '\n' ∉ init) : IsLine (init ++ ['\n']) :=
  ⟨by simp, by rwa [List.dropLast_concat]⟩

theorem Ended.cons {line : List Char} (h : Ended line) (c : Char) : Ended (c :: line) := by
  obtain ⟨init, rfl⟩ := h.exists_init
  exact ended_append (c :: init)

theorem IsLine.not_mem {line : List Char} (h : IsLine line) (hOpen : ¬ Ended line) : '\n' ∉ line := by
  obtain ⟨hSome, hInit⟩ := h
  rw [← List.dropLast_concat_getLast hSome, List.mem_append, List.mem_singleton, not_or]
  refine ⟨hInit, fun hLast => hOpen ?_⟩
  rw [Ended, List.getLast?_eq_some_getLast hSome, ← hLast]

theorem textLines_line_append {line : List Char} (h : IsLine line) (hEnded : Ended line)
    (cs : List Char) : textLines (line ++ cs) = line :: textLines cs := by
  obtain ⟨init, rfl⟩ := hEnded.exists_init
  have hInit := h.2
  rw [List.dropLast_concat] at hInit
  rw [List.append_assoc, List.singleton_append, textLines_append hInit]

theorem textLines_line {line : List Char} (h : IsLine line) : textLines line = [line] := by
  by_cases hEnded : Ended line
  · have hLine := textLines_line_append h hEnded []
    rwa [List.append_nil] at hLine
  · exact textLines_of_not_mem (h.not_mem hEnded) h.1

theorem textLines_flatten_cons {l : List Char} {ls : List (List Char)} (hLine : IsLine l)
    (h : Ended l ∨ ls = []) : textLines (l :: ls).flatten = l :: textLines ls.flatten := by
  rw [List.flatten_cons]
  rcases h with hEnded | rfl
  · exact textLines_line_append hLine hEnded _
  · rw [List.flatten_nil, List.append_nil, textLines_line hLine]
    rfl

/-- **Lines are read back** if all but the last have their line feeds. -/
theorem textLines_flatten {ls : List (List Char)} (hLines : ∀ l ∈ ls, IsLine l)
    (hEnded : ∀ l ∈ ls.dropLast, Ended l) : textLines ls.flatten = ls := by
  induction ls with
  | nil => rfl
  | cons l ls ih =>
    rw [List.forall_mem_cons] at hLines
    cases ls with
    | nil => exact textLines_flatten_cons hLines.1 (Or.inr rfl)
    | cons m ls =>
      rw [List.dropLast_cons_of_ne_nil (List.cons_ne_nil m ls), List.forall_mem_cons] at hEnded
      rw [textLines_flatten_cons hLines.1 (Or.inl hEnded.1), ih hLines.2 hEnded.2]

theorem textLines_flatten_append {ls : List (List Char)} (hLines : ∀ l ∈ ls, IsLine l)
    (hEnded : ∀ l ∈ ls, Ended l) (cs : List Char) :
    textLines (ls.flatten ++ cs) = ls ++ textLines cs := by
  induction ls with
  | nil => rfl
  | cons l ls ih =>
    rw [List.forall_mem_cons] at hLines hEnded
    rw [List.flatten_cons, List.append_assoc, textLines_line_append hLines.1 hEnded.1,
      ih hLines.2 hEnded.2, List.cons_append]

theorem isLine_of_mem_cutLines {text line : List Char} (h : line ∈ cutLines text) : IsLine line := by
  fun_induction cutLines text generalizing line with
  | case1 => exact absurd h List.not_mem_nil
  | case2 cs ih =>
    rcases List.mem_cons.1 h with rfl | h
    · exact ⟨by simp, by decide⟩
    · exact ih h
  | case3 c cs _ hBreak ih =>
    rcases List.mem_cons.1 h with rfl | h
    · exact ⟨by simp, by simp⟩
    · exact ih h
  | case4 c cs _ hBreak ih =>
    have hc : c ≠ '\n' := by
      rintro rfl
      exact hBreak (by decide)
    cases hCut : cutLines cs with
    | nil =>
      rw [hCut, consLine, List.mem_singleton] at h
      subst h
      exact ⟨by simp, by simp⟩
    | cons first rest =>
      rw [hCut] at h ih
      rcases List.mem_cons.1 h with rfl | h
      · obtain ⟨hSome, hInit⟩ := ih List.mem_cons_self
        refine ⟨by simp, ?_⟩
        rw [List.dropLast_cons_of_ne_nil hSome, List.mem_cons, not_or]
        exact ⟨Ne.symm hc, hInit⟩
      · exact ih (List.mem_cons_of_mem _ h)

theorem ended_of_mem_dropLast {text line : List Char} (h : line ∈ (textLines text).dropLast) :
    Ended line := by
  fun_induction textLines text generalizing line with
  | case1 => exact absurd h List.not_mem_nil
  | case2 cs ih =>
    cases hRest : textLines cs with
    | nil =>
      rw [hRest] at h
      exact absurd h List.not_mem_nil
    | cons first rest =>
      rw [hRest] at h ih
      rw [List.dropLast_cons_of_ne_nil (List.cons_ne_nil first rest), List.mem_cons] at h
      rcases h with rfl | h
      · rfl
      · exact ih h
  | case3 c cs hc ih =>
    cases hRest : textLines cs with
    | nil =>
      rw [hRest] at h
      exact absurd h List.not_mem_nil
    | cons first rest =>
      rw [hRest] at h ih
      cases rest with
      | nil => exact absurd h List.not_mem_nil
      | cons second rest =>
        rcases List.mem_cons.1 h with rfl | h
        · exact (ih (List.mem_cons_self (a := first) (l := (second :: rest).dropLast))).cons c
        · exact ih (List.mem_cons_of_mem _ h)

/-! ### Marked lines -/

/-- What becomes of a line. -/
inductive Mark where
  | kept
  | removed
  | added
  deriving DecidableEq, Repr

namespace Mark

def char : Mark → Char
  | .kept => ' '
  | .removed => '-'
  | .added => '+'

def ofChar? (c : Char) : Option Mark :=
  if c = ' ' then some .kept
  else if c = '-' then some .removed
  else if c = '+' then some .added
  else none

def left : Mark → Nat
  | .added => 0
  | _ => 1

def right : Mark → Nat
  | .removed => 0
  | _ => 1

theorem ofChar?_char (m : Mark) : ofChar? m.char = some m := by
  cases m <;> rfl

theorem left_add_right_pos (m : Mark) : 0 < m.left + m.right := by
  cases m <;> decide

end Mark

structure Line where
  mark : Mark
  content : List Char
  deriving DecidableEq, Repr

def Line.text (l : Line) : List Char := l.mark.char :: l.content

def count (side : Mark → Nat) : List Line → Nat
  | [] => 0
  | l :: body => side l.mark + count side body

structure Range where
  start : Nat
  length : Nat
  deriving DecidableEq, Repr

/-- How many lines stand before a range. -/
def Range.place (r : Range) : Nat := if r.length = 0 then r.start else r.start - 1

/-- A hunk: where it stands on both sides, and its lines. -/
structure Hunk where
  left : Range
  right : Range
  body : List Line
  deriving DecidableEq, Repr

/-! ### Reading -/

def readNumber? (cs : List Char) : Option (Nat × List Char) :=
  if cs.takeWhile Char.isDigit = [] then none
  else some (Nat.ofDigitChars 10 (cs.takeWhile Char.isDigit) 0, cs.dropWhile Char.isDigit)

def readRange? (cs : List Char) : Option (Range × List Char) :=
  match readNumber? cs with
  | none => none
  | some (start, ',' :: rest) =>
    (readNumber? rest).bind fun (length, rest) =>
      if 0 < start ∨ length = 0 then some (⟨start, length⟩, rest) else none
  | some (start, rest) => if 0 < start then some (⟨start, 1⟩, rest) else none

def readHead? : List Char → Option (Range × Range)
  | '@' :: '@' :: ' ' :: '-' :: cs =>
    match readRange? cs with
    | some (left, ' ' :: '+' :: rest) =>
      match readRange? rest with
      | some (right, [' ', '@', '@', '\n']) => some (left, right)
      | _ => none
    | _ => none
  | _ => none

def readLine? : List Char → Option Line
  | [] => none
  | c :: cs => (Mark.ofChar? c).map (⟨·, cs⟩)

/-- Reads the lines of a hunk, of which so many are to come on both sides, and the hunks behind it. -/
def readFrom? (left right : Nat) : List (List Char) → Option (List Line × List Hunk)
  | [] => if left = 0 ∧ right = 0 then some ([], []) else none
  | line :: rest =>
    if left = 0 ∧ right = 0 then
      match readHead? line with
      | none => none
      | some (l, r) =>
        (readFrom? l.length r.length rest).map fun (body, hunks) => ([], ⟨l, r, body⟩ :: hunks)
    else
      match readLine? line with
      | none => none
      | some l =>
        if l.mark.left ≤ left ∧ l.mark.right ≤ right then
          (readFrom? (left - l.mark.left) (right - l.mark.right) rest).map
            fun (body, hunks) => (l :: body, hunks)
        else none

def readHunks? (lines : List (List Char)) : Option (List Hunk) := (readFrom? 0 0 lines).map Prod.snd

/-- Reads a patch; a text without lines has no hunks. -/
def readPatch? : List (List Char) → Option (List Hunk)
  | [] => some []
  | old :: new :: rest =>
    if "--- ".toList <+: old ∧ "+++ ".toList <+: new then readHunks? rest else none
  | _ => none

/-! ### Applying -/

/-- Goes through the lines of a text along those of a hunk: what they become, and the lines behind. -/
def applyLines? : List Line → List (List Char) → Option (List (List Char) × List (List Char))
  | [], lines => some ([], lines)
  | ⟨.added, content⟩ :: body, lines =>
    (applyLines? body lines).map fun (out, rest) => (content :: out, rest)
  | ⟨.kept, content⟩ :: body, line :: lines =>
    if line = content then (applyLines? body lines).map fun (out, rest) => (content :: out, rest)
    else none
  | ⟨.removed, content⟩ :: body, line :: lines =>
    if line = content then applyLines? body lines else none
  | _ :: _, [] => none

/-- Applies hunks to the lines behind the first `i`, which have become the first `j` on the right. -/
def applyFrom? (i j : Nat) : List Hunk → List (List Char) → Option (List (List Char))
  | [], lines => some lines
  | h :: hunks, lines =>
    let skipped := h.left.place - i
    if h.left.place = i + skipped ∧ h.right.place = j + skipped ∧ skipped ≤ lines.length then
      match applyLines? h.body (lines.drop skipped) with
      | none => none
      | some (out, rest) =>
        (applyFrom? (h.left.place + h.left.length) (h.right.place + h.right.length) hunks rest).map
          (lines.take skipped ++ out ++ ·)
    else none

def applyPatch? (hunks : List Hunk) (text : List Char) : Option (List Char) :=
  (applyFrom? 0 0 hunks (textLines text)).map List.flatten

/-- A text that is a patch from one text to another: it is read as hunks, and applying these to the one
text gives the other. -/
def Leads (patch original fixed : List Char) : Prop :=
  ∃ hunks, readPatch? (textLines patch) = some hunks ∧ applyPatch? hunks original = some fixed

/-! ### What is read -/

theorem readNumber?_toDigits (n : Nat) {rest : List Char} (h : ∀ c ∈ rest.head?, c.isDigit = false) :
    readNumber? (Nat.toDigits 10 n ++ rest) = some (n, rest) := by
  have hDigits : ∀ c ∈ Nat.toDigits 10 n, c.isDigit = true := fun c hc =>
    Nat.isDigit_of_mem_toDigits (by decide) (Nat.le_refl _) hc
  have hRest : rest.takeWhile Char.isDigit = [] ∧ rest.dropWhile Char.isDigit = rest := by
    cases rest with
    | nil => exact ⟨rfl, rfl⟩
    | cons c rest => simp [h c rfl]
  rw [readNumber?, List.takeWhile_append_of_pos hDigits, List.dropWhile_append_of_pos hDigits, hRest.1,
    hRest.2, List.append_nil, if_neg Nat.toDigits_ne_nil, Nat.ofDigitChars_toDigits (by decide) (by decide)]

theorem readLine?_text (l : Line) : readLine? l.text = some l := by
  rw [Line.text, readLine?, Mark.ofChar?_char]
  rfl

theorem count_cons (side : Mark → Nat) (l : Line) (body : List Line) :
    count side (l :: body) = side l.mark + count side body := rfl

theorem count_append (side : Mark → Nat) (body more : List Line) :
    count side (body ++ more) = count side body + count side more := by
  induction body with
  | nil => exact (Nat.zero_add _).symm
  | cons l body ih => rw [List.cons_append, count, count, ih, Nat.add_assoc]

theorem count_map {α : Type} (side : Mark → Nat) (mark : Mark) (content : α → List Char)
    (lines : List α) :
    count side (lines.map fun line => ⟨mark, content line⟩) = lines.length * side mark := by
  induction lines with
  | nil => exact (Nat.zero_mul _).symm
  | cons line lines ih => rw [List.map_cons, count, ih, List.length_cons, Nat.succ_mul, Nat.add_comm]

theorem readFrom?_text {left right : Nat} (h : left ≠ 0 ∨ right ≠ 0) (l : Line)
    (rest : List (List Char)) : readFrom? left right (l.text :: rest) =
      if l.mark.left ≤ left ∧ l.mark.right ≤ right then
        (readFrom? (left - l.mark.left) (right - l.mark.right) rest).map
          fun (body, hunks) => (l :: body, hunks)
      else none := by
  rw [readFrom?, if_neg (by omega), readLine?_text]

/-- **The lines of a hunk are read** if the head counts them. -/
theorem readFrom?_append (body : List Line) (left right : Nat) (rest : List (List Char)) :
    readFrom? (left + count Mark.left body) (right + count Mark.right body) (body.map Line.text ++ rest) =
      (readFrom? left right rest).map fun (more, hunks) => (body ++ more, hunks) := by
  induction body with
  | nil =>
    show readFrom? left right rest = _
    cases readFrom? left right rest <;> rfl
  | cons l body ih =>
    have hPos := l.mark.left_add_right_pos
    have hLeft : left + (l.mark.left + count Mark.left body) - l.mark.left =
        left + count Mark.left body := by omega
    have hRight : right + (l.mark.right + count Mark.right body) - l.mark.right =
        right + count Mark.right body := by omega
    rw [count_cons Mark.left, count_cons Mark.right, List.map_cons, List.cons_append,
      readFrom?_text (by omega), if_pos (by omega), hLeft, hRight, ih, Option.map_map]
    rfl

theorem readHunks?_head {head : List Char} {left right : Range}
    (hHead : readHead? head = some (left, right)) (rest : List (List Char)) :
    readHunks? (head :: rest) = (readFrom? left.length right.length rest).map
      fun (body, hunks) => ⟨left, right, body⟩ :: hunks := by
  rw [readHunks?, readFrom?, if_pos ⟨rfl, rfl⟩, hHead]
  dsimp only
  rw [Option.map_map]
  rfl

theorem readHunks?_append {head : List Char} {left right : Range} {body : List Line}
    (hHead : readHead? head = some (left, right)) (hLeft : count Mark.left body = left.length)
    (hRight : count Mark.right body = right.length) (rest : List (List Char)) :
    readHunks? (head :: (body.map Line.text ++ rest)) =
      (readHunks? rest).map (⟨left, right, body⟩ :: ·) := by
  have hNil : ∀ more hunks, readFrom? 0 0 rest = some (more, hunks) → more = [] := by
    intro more hunks hRead
    cases rest with
    | nil =>
      cases hRead
      rfl
    | cons line rest =>
      rw [readFrom?, if_pos ⟨rfl, rfl⟩] at hRead
      split at hRead
      next => cases hRead
      next =>
        obtain ⟨read, -, hEq⟩ := Option.map_eq_some_iff.1 hRead
        cases hEq
        rfl
  have hBody := readFrom?_append body 0 0 rest
  rw [Nat.zero_add, Nat.zero_add, hLeft, hRight] at hBody
  rw [readHunks?_head hHead, hBody, readHunks?, Option.map_map, Option.map_map]
  cases hRead : readFrom? 0 0 rest with
  | none => rfl
  | some read =>
    obtain ⟨more, hunks⟩ := read
    rw [hNil more hunks hRead]
    simp

/-! ### Lines that lack their line feed -/

theorem flatten_merge (l m : Line) (body : List Line) :
    ((l :: m :: body).map Line.text).flatten =
      ((⟨l.mark, l.content ++ m.text⟩ :: body : List Line).map Line.text).flatten := by
  simp only [List.map_cons, List.flatten_cons, Line.text, List.cons_append, List.append_assoc]

theorem isLine_merge {l m : Line} {body : List Line} (hLines : ∀ x ∈ l :: m :: body, IsLine x.text)
    (hOpen : ¬ Ended l.text) :
    ∀ x ∈ (⟨l.mark, l.content ++ m.text⟩ :: body : List Line), IsLine x.text := by
  rw [List.forall_mem_cons, List.forall_mem_cons] at hLines
  obtain ⟨hFirst, hSecond, hRest⟩ := hLines
  rw [List.forall_mem_cons]
  refine ⟨⟨List.append_ne_nil_of_left_ne_nil hFirst.1 m.text, ?_⟩, hRest⟩
  show '\n' ∉ (l.text ++ m.text).dropLast
  rw [List.dropLast_append_of_ne_nil hSecond.1, List.mem_append, not_or]
  exact ⟨hFirst.not_mem hOpen, hSecond.2⟩

theorem count_merge (l m : Line) (body : List Line) :
    count Mark.left (⟨l.mark, l.content ++ m.text⟩ :: body) +
        count Mark.right (⟨l.mark, l.content ++ m.text⟩ :: body) <
      count Mark.left (l :: m :: body) + count Mark.right (l :: m :: body) := by
  have hPos := m.mark.left_add_right_pos
  simp only [count_cons]
  omega

/-- If fewer lines come than the head counts, the hunk is not read. -/
theorem readFrom?_of_short {left right : Nat} (body : List Line) (hLines : ∀ l ∈ body, IsLine l.text)
    (hShort : count Mark.left body + count Mark.right body < left + right) :
    readFrom? left right (textLines (body.map Line.text).flatten) = none := by
  induction hLength : body.length using Nat.strongRecOn generalizing body left right with
  | ind n ih =>
    cases body with
    | nil =>
      rw [List.map_nil, List.flatten_nil, textLines, readFrom?, if_neg]
      have : count Mark.left [] + count Mark.right [] = 0 := rfl
      omega
    | cons l body =>
      by_cases hFirst : Ended l.text ∨ body = []
      · rw [List.forall_mem_cons] at hLines
        rw [count_cons Mark.left, count_cons Mark.right] at hShort
        rw [List.map_cons, textLines_flatten_cons hLines.1 (hFirst.imp_right fun hNil => by rw [hNil]; rfl),
          readFrom?_text (by omega)]
        split
        next hFits =>
          rw [ih body.length (by rw [← hLength]; exact Nat.lt_succ_self _) body hLines.2 (by omega) rfl]
          rfl
        next => rfl
      · -- The next line is read as part of this one, so even fewer come.
        rw [not_or] at hFirst
        obtain ⟨m, body, rfl⟩ := List.exists_cons_of_ne_nil hFirst.2
        rw [flatten_merge]
        exact ih (body.length + 1) (by rw [← hLength]; exact Nat.lt_succ_self _)
          (⟨l.mark, l.content ++ m.text⟩ :: body) (isLine_merge hLines hFirst.1)
          (Nat.lt_trans (count_merge l m body) hShort) rfl

/-- **A hunk in which a line before the last lacks its line feed is not read.** -/
theorem readFrom?_of_merged {left right : Nat} (body : List Line) (hLines : ∀ l ∈ body, IsLine l.text)
    (hOpen : ¬ ∀ l ∈ body.dropLast, Ended l.text)
    (hCount : count Mark.left body + count Mark.right body ≤ left + right) :
    readFrom? left right (textLines (body.map Line.text).flatten) = none := by
  induction body generalizing left right with
  | nil => exact absurd (fun l hl => absurd hl List.not_mem_nil) hOpen
  | cons l body ih =>
    cases body with
    | nil => exact absurd (fun l hl => absurd hl List.not_mem_nil) hOpen
    | cons m body =>
      by_cases hEnded : Ended l.text
      · have hPos := l.mark.left_add_right_pos
        rw [List.forall_mem_cons] at hLines
        rw [List.dropLast_cons_of_ne_nil (List.cons_ne_nil m body), List.forall_mem_cons, not_and] at hOpen
        rw [count_cons Mark.left, count_cons Mark.right] at hCount
        rw [List.map_cons, textLines_flatten_cons hLines.1 (Or.inl hEnded), readFrom?_text (by omega)]
        split
        next =>
          rw [ih hLines.2 (hOpen hEnded) (by omega)]
          rfl
        next => rfl
      · rw [flatten_merge]
        exact readFrom?_of_short (⟨l.mark, l.content ++ m.text⟩ :: body) (isLine_merge hLines hEnded)
          (Nat.lt_of_lt_of_le (count_merge l m body) hCount)

end TidySpace.Patch
