import TidySpace.Analysis
import TidySpace.Proofs.Positions

/-! # Lines on which a comment suppresses

A suppression comment is tried at every character of a line. A try runs over slashes, white space and
letters up to an opening bracket. It cannot run over a slash behind its start: none is white space, and
none stands in a word of the comment. So a try that starts before a comment fails at the slashes of that
comment, unless it has met a bracket of its own before (`brackets?_of_slashes`), and the comment is found
whatever the line begins with (`contents_comment`). What its brackets hold is cut at commas into the ids
that were put there (`patternsIn_listing`).

Suppressions are looked up by the number of the line on which an offset stands, and numbers say no more
than the line itself: an offset is covered just when the comments of its own line name the rule
(`Suppressions.covers_eq`). So a comment suppresses all findings of its rules that start on its line
(`patterns_comment`).
-/

namespace TidySpace

/-! ### Cutting at a separator -/

theorem Text.splitOn_eq (sep : Char) (cs : List Char) : Text.splitOn sep cs = cs.splitOn sep := by
  induction cs with
  | nil => rfl
  | cons c cs ih =>
    obtain ⟨piece, pieces, hPieces⟩ :=
      List.exists_cons_of_ne_nil (List.splitOnP_ne_nil (· == sep) cs)
    rw [List.splitOn_eq_splitOnP] at ih ⊢
    rw [Text.splitOn, List.splitOnP_cons_eq_if_modifyHead, ih, hPieces]
    by_cases hc : c = sep
    · rw [if_pos hc, if_pos (beq_iff_eq.2 hc)]
    · rw [if_neg hc, if_neg (by simpa using hc)]
      rfl

theorem Text.mem_intercalate {sep c : Char} {items : List (List Char)}
    (h : c ∈ [sep].intercalate items) : c = sep ∨ ∃ item ∈ items, c ∈ item := by
  induction items with
  | nil => exact absurd h List.not_mem_nil
  | cons item items ih =>
    cases items with
    | nil =>
      rw [List.intercalate_singleton] at h
      exact Or.inr ⟨item, List.mem_cons_self, h⟩
    | cons next items =>
      rw [List.intercalate_cons_cons, List.append_assoc, List.mem_append, List.mem_append,
        List.mem_singleton] at h
      rcases h with h | rfl | h
      · exact Or.inr ⟨item, List.mem_cons_self, h⟩
      · exact Or.inl rfl
      · exact (ih h).imp_right fun ⟨other, hOther, hc⟩ => ⟨other, List.mem_cons_of_mem item hOther, hc⟩

theorem Text.trim_eq_self {cs : List Char} (hFirst : ∀ c ∈ cs.head?, isBlank c = false)
    (hLast : ∀ c ∈ cs.getLast?, isBlank c = false) : trim cs = cs := by
  have hFront : cs.dropWhile isBlank = cs := by
    cases cs with
    | nil => rfl
    | cons c cs => rw [List.dropWhile_cons_of_neg (by simp [hFirst c rfl])]
  obtain ⟨run, hEq, hRun⟩ := dropTrailing_append isBlank cs
  rw [trim, hFront]
  rcases List.eq_nil_or_concat run with rfl | ⟨init, c, rfl⟩
  · rw [List.append_nil] at hEq
    exact hEq.symm
  · rw [List.concat_eq_append] at hEq hRun
    have hc : isBlank c = false := hLast c (by rw [hEq, ← List.append_assoc]; simp)
    simp [hc] at hRun

namespace Suppression

/-! ### Tries over slashes -/

theorem afterWord?_append {ws : List Char} (h : ws.map foldLetter = ws) (rest : List Char) :
    afterWord? ws (ws ++ rest) = some rest := by
  induction ws with
  | nil => rfl
  | cons w ws ih =>
    obtain ⟨hFirst, hRest⟩ := List.cons.inj h
    rw [List.cons_append, afterWord?, if_pos hFirst, ih hRest]

theorem afterBlanksAndWord?_append {word : String} {blanks : List Char}
    (hBlanks : blanks.all Text.isBlank = true)
    (hWord : ∃ w ws, word.toList = w :: ws ∧ Text.isBlank w = false)
    (hFold : word.toList.map foldLetter = word.toList) (rest : List Char) :
    afterBlanksAndWord? word (blanks ++ (word.toList ++ rest)) = some rest := by
  have hDrop : (blanks ++ (word.toList ++ rest)).dropWhile Text.isBlank = word.toList ++ rest := by
    obtain ⟨w, ws, hEq, hFirst⟩ := hWord
    rw [List.dropWhile_append_of_pos (List.all_eq_true.1 hBlanks), hEq, List.cons_append,
      List.dropWhile_cons_of_neg (by simp [hFirst])]
  rw [afterBlanksAndWord?, hDrop, afterWord?_append hFold]

theorem afterWord?_of_slash {ws cs after rest : List Char} (hWord : '/' ∉ ws)
    (h : afterWord? ws (cs ++ '/' :: after) = some rest) :
    ∃ front back, cs = front ++ back ∧ front.map foldLetter = ws ∧ rest = back ++ '/' :: after := by
  induction ws generalizing cs with
  | nil =>
    rw [afterWord?] at h
    exact ⟨[], cs, rfl, rfl, (Option.some.inj h).symm⟩
  | cons w ws ih =>
    rw [List.mem_cons, not_or] at hWord
    cases cs with
    | nil =>
      have hSlash : ¬ foldLetter '/' = w := hWord.1
      rw [List.nil_append, afterWord?, if_neg hSlash] at h
      cases h
    | cons c cs =>
      rw [List.cons_append, afterWord?] at h
      split at h
      next hc =>
        obtain ⟨front, back, rfl, hFront, hRest⟩ := ih hWord.2 h
        exact ⟨c :: front, back, rfl, by rw [List.map_cons, hc, hFront], hRest⟩
      next => cases h

theorem afterBlanksAndWord?_of_slash {word : String} {cs after rest : List Char}
    (hWord : '/' ∉ word.toList) (h : afterBlanksAndWord? word (cs ++ '/' :: after) = some rest) :
    ∃ blanks front back, cs = blanks ++ (front ++ back) ∧ front.map foldLetter = word.toList ∧
      rest = back ++ '/' :: after := by
  have hDrop : (cs ++ '/' :: after).dropWhile Text.isBlank =
      cs.dropWhile Text.isBlank ++ '/' :: after := by
    rw [List.dropWhile_append]
    split
    next hNil =>
      rw [List.isEmpty_iff.1 hNil]
      exact List.dropWhile_cons_of_neg (by decide)
    next => rfl
  rw [afterBlanksAndWord?, hDrop] at h
  obtain ⟨front, back, hBack, hFront, hRest⟩ := afterWord?_of_slash hWord h
  exact ⟨cs.takeWhile Text.isBlank, front, back, by rw [← hBack, List.takeWhile_append_dropWhile],
    hFront, hRest⟩

/-- No other character has the bracket as another case of its own. -/
theorem eq_bracket_of_fold {c : Char} (h : foldLetter c = '[') : c = '[' := by
  unfold foldLetter at h
  dsimp only at h
  split at h
  · cases h
  split at h
  · cases h
  split at h
  · cases h
  delta Char.toLower at h
  split at h
  next hUpper =>
    have hVal : (c.val + ('a'.val - 'A'.val)).toNat = '['.toNat := congrArg Char.toNat h
    have hLow : 65 ≤ c.val.toNat := hUpper.1
    have hHigh : c.val.toNat ≤ 90 := hUpper.2
    have hSum : (c.val + ('a'.val - 'A'.val)).toNat = c.val.toNat + 32 := by
      rw [UInt32.toNat_add]
      show (c.val.toNat + 32) % 4294967296 = _
      omega
    have hBracket : '['.toNat = 91 := rfl
    omega
  next => exact h

theorem afterCommentStart?_of_slashes {cs after rest : List Char} (hSome : cs ≠ [])
    (h : afterCommentStart? (cs ++ '/' :: '/' :: after) = some rest) :
    ∃ front back after', cs = front ++ back ∧ rest = back ++ '/' :: after' := by
  obtain ⟨c, cs, rfl⟩ := List.exists_cons_of_ne_nil hSome
  cases cs with
  | nil =>
    rw [List.cons_append, List.nil_append] at h
    unfold afterCommentStart? at h
    split at h
    next hEq =>
      cases hEq
      cases h
      exact ⟨['/'], [], after, rfl, rfl⟩
    next hEq => cases hEq
    next => cases h
  | cons d cs =>
    rw [List.cons_append, List.cons_append] at h
    unfold afterCommentStart? at h
    split at h
    next hEq =>
      cases hEq
      cases h
      exact ⟨['/', '/'], cs, '/' :: after, rfl, rfl⟩
    next hEq =>
      cases hEq
      cases h
      exact ⟨['/', '*'], cs, '/' :: after, rfl, rfl⟩
    next => cases h

/-- **A try that starts before two slashes** fails, unless a bracket stands before them. -/
theorem brackets?_of_slashes {cs : List Char} (after : List Char) (hSome : cs ≠ [])
    (hBracket : '[' ∉ cs) : brackets? (cs ++ '/' :: '/' :: after) = none := by
  refine Option.eq_none_iff_forall_ne_some.2 fun found h => ?_
  simp only [brackets?, Option.bind_eq_bind, Option.bind_eq_some_iff] at h
  obtain ⟨a, hStart, b, hName, c, hIgnore, d, hOpen, -⟩ := h
  obtain ⟨_, cs', after, rfl, rfl⟩ := afterCommentStart?_of_slashes hSome hStart
  obtain ⟨_, _, cs', rfl, -, rfl⟩ := afterBlanksAndWord?_of_slash (by decide) hName
  obtain ⟨_, _, cs', rfl, -, rfl⟩ := afterBlanksAndWord?_of_slash (by decide) hIgnore
  obtain ⟨_, front, cs', rfl, hFold, rfl⟩ := afterBlanksAndWord?_of_slash (by decide) hOpen
  obtain ⟨c, rfl, hc⟩ := List.map_eq_singleton_iff.1 (hFold.trans (show "[".toList = ['['] from rfl))
  rw [eq_bracket_of_fold hc] at hBracket
  simp at hBracket

/-! ### Comments -/

/-- A text that can stand for itself among the ids of a comment. -/
structure IsId (id : String) : Prop where
  nonempty : id.toList ≠ []
  comma : ',' ∉ id.toList
  bracket : ']' ∉ id.toList
  first : ∀ c ∈ id.toList.head?, Text.isBlank c = false
  last : ∀ c ∈ id.toList.getLast?, Text.isBlank c = false

instance (id : String) : Decidable (IsId id) :=
  decidable_of_iff (id.toList ≠ [] ∧ ',' ∉ id.toList ∧ ']' ∉ id.toList ∧
      (id.toList.head?.all fun c => !Text.isBlank c) = true ∧
      (id.toList.getLast?.all fun c => !Text.isBlank c) = true) <| by
    simp only [Option.all_eq_true, Bool.not_eq_true']
    exact ⟨fun ⟨h, hComma, hBracket, hFirst, hLast⟩ => ⟨h, hComma, hBracket, hFirst, hLast⟩,
      fun h => ⟨h.nonempty, h.comma, h.bracket, h.first, h.last⟩⟩

/-- What the brackets of a comment hold that suppresses rules by their ids. -/
def listing (ids : List String) : List Char := [','].intercalate (ids.map String.toList)

def opening : List Char := "// spacelint: ignore[".toList

def comment (ids : List String) : List Char := opening ++ (listing ids ++ [']'])

variable {ids : List String}

theorem patternsIn_listing (hSome : ids ≠ []) (hIds : ∀ id ∈ ids, IsId id) :
    patternsIn (listing ids) = ids := by
  have hSplit : Text.splitOn ',' (listing ids) = ids.map String.toList := by
    rw [Text.splitOn_eq]
    refine List.splitOn_intercalate ',' ?_ (by simpa using hSome)
    intro cs hcs
    obtain ⟨id, hId, rfl⟩ := List.mem_map.1 hcs
    exact (hIds id hId).comma
  have hTrim : (ids.map String.toList).map Text.trim = ids.map String.toList := by
    refine List.map_congr_left (g := id) ?_ |>.trans (List.map_id _)
    intro cs hcs
    obtain ⟨id, hId, rfl⟩ := List.mem_map.1 hcs
    exact Text.trim_eq_self (hIds id hId).first (hIds id hId).last
  have hKept : (ids.map String.toList).filter (!·.isEmpty) = ids.map String.toList := by
    refine List.filter_eq_self.2 ?_
    intro cs hcs
    obtain ⟨id, hId, rfl⟩ := List.mem_map.1 hcs
    simpa using (hIds id hId).nonempty
  rw [patternsIn, hSplit, hTrim, hKept, List.map_map]
  refine List.map_congr_left (g := id) ?_ |>.trans (List.map_id _)
  intro id _
  exact String.ofList_toList

theorem listing_ne_nil (hSome : ids ≠ []) (hIds : ∀ id ∈ ids, IsId id) : listing ids ≠ [] := by
  intro hNil
  have hEmpty := patternsIn_listing hSome hIds
  rw [hNil] at hEmpty
  exact hSome hEmpty.symm

theorem bracket_not_mem_listing (hIds : ∀ id ∈ ids, IsId id) : ']' ∉ listing ids := by
  intro hMem
  rcases Text.mem_intercalate hMem with hEq | ⟨cs, hcs, hMem⟩
  · cases hEq
  · obtain ⟨id, hId, rfl⟩ := List.mem_map.1 hcs
    exact (hIds id hId).bracket hMem

theorem opening_append (rest : List Char) : opening ++ rest = '/' :: '/' :: ([' '] ++
    ("spacelint:".toList ++ ([' '] ++ ("ignore".toList ++ ([] ++ ("[".toList ++ rest)))))) := by
  have hOpening : opening = '/' :: '/' :: ([' '] ++ ("spacelint:".toList ++
      ([' '] ++ ("ignore".toList ++ ([] ++ "[".toList))))) := by decide
  simpa only [List.cons_append, List.append_assoc] using congrArg (· ++ rest) hOpening

theorem afterCommentStart?_comment (ids : List String) (after : List Char) :
    afterCommentStart? (comment ids ++ after) = some ([' '] ++ ("spacelint:".toList ++
      ([' '] ++ ("ignore".toList ++ ([] ++ ("[".toList ++ (listing ids ++ ']' :: after))))))) := by
  rw [comment, List.append_assoc, List.append_assoc, List.singleton_append, opening_append,
    afterCommentStart?]

theorem afterName? (rest : List Char) :
    afterBlanksAndWord? "spacelint:" ([' '] ++ ("spacelint:".toList ++ rest)) = some rest :=
  afterBlanksAndWord?_append (by decide) ⟨'s', _, rfl, rfl⟩ (by decide) rest

theorem afterIgnore? (rest : List Char) :
    afterBlanksAndWord? "ignore" ([' '] ++ ("ignore".toList ++ rest)) = some rest :=
  afterBlanksAndWord?_append (by decide) ⟨'i', _, rfl, rfl⟩ (by decide) rest

theorem afterOpening? (rest : List Char) :
    afterBlanksAndWord? "[" ([] ++ ("[".toList ++ rest)) = some rest :=
  afterBlanksAndWord?_append (by decide) ⟨'[', _, rfl, rfl⟩ (by decide) rest

/-- **A comment is found** where it begins, with what its brackets hold. -/
theorem brackets?_comment (hSome : ids ≠ []) (hIds : ∀ id ∈ ids, IsId id) (after : List Char) :
    brackets? (comment ids ++ after) = some (listing ids, after) := by
  have hPlain : ∀ c ∈ listing ids, (c != ']') = true := by
    intro c hc
    rw [bne_iff_ne]
    rintro rfl
    exact bracket_not_mem_listing hIds hc
  have hTake : (listing ids ++ ']' :: after).takeWhile (· != ']') = listing ids := by
    rw [List.takeWhile_append_of_pos hPlain, List.takeWhile_cons_of_neg (by decide), List.append_nil]
  have hDrop : (listing ids ++ ']' :: after).dropWhile (· != ']') = ']' :: after := by
    rw [List.dropWhile_append_of_pos hPlain, List.dropWhile_cons_of_neg (by decide)]
  obtain ⟨c, cs, hListing⟩ := List.exists_cons_of_ne_nil (listing_ne_nil hSome hIds)
  rw [hListing] at hTake hDrop
  simp only [brackets?, afterCommentStart?_comment, Option.bind_eq_bind, Option.bind_some, afterName?,
    afterIgnore?, afterOpening?, hListing, hTake, hDrop]

/-! ### The patterns of a line -/

theorem contents_of_some {c : Char} {cs content rest : List Char}
    (h : brackets? (c :: cs) = some (content, rest)) :
    contents (c :: cs) = content :: contents rest := by
  rw [contents]
  split
  next hFound =>
    obtain ⟨rfl, rfl⟩ := Prod.mk.inj (Option.some.inj (h.symm.trans hFound))
    rfl
  next hNone => cases h.symm.trans hNone

theorem contents_of_none {c : Char} {cs : List Char} (h : brackets? (c :: cs) = none) :
    contents (c :: cs) = contents cs := by
  rw [contents]
  split
  next hFound => cases h.symm.trans hFound
  next => rfl

/-- **A comment is found whatever stands before it**, and the search goes on behind it. -/
theorem contents_comment {before : List Char} (hBefore : '[' ∉ before) (hSome : ids ≠ [])
    (hIds : ∀ id ∈ ids, IsId id) (after : List Char) :
    contents (before ++ (comment ids ++ after)) = listing ids :: contents after := by
  obtain ⟨rest, hSlashes⟩ : ∃ rest, comment ids ++ after = '/' :: '/' :: rest :=
    ⟨_, by rw [comment, List.append_assoc, opening_append]⟩
  induction before with
  | nil =>
    have hFound := brackets?_comment hSome hIds after
    rw [List.nil_append, hSlashes]
    rw [hSlashes] at hFound
    exact contents_of_some hFound
  | cons c before ih =>
    have hNone : brackets? (c :: before ++ (comment ids ++ after)) = none := by
      rw [hSlashes]
      exact brackets?_of_slashes rest (List.cons_ne_nil c before) hBefore
    rw [List.cons_append] at hNone ⊢
    rw [contents_of_none hNone, ih fun hMem => hBefore (List.mem_cons_of_mem c hMem)]

/-- **The patterns of a line with a comment** are the ids of the comment and the patterns behind it. -/
theorem mem_patterns_comment {before : List Char} (hBefore : '[' ∉ before) (hSome : ids ≠ [])
    (hIds : ∀ id ∈ ids, IsId id) (after : List Char) (p : String) :
    p ∈ patterns (before ++ (comment ids ++ after)) ↔ p ∈ ids ∨ p ∈ patterns after := by
  rw [patterns, patterns, Text.mem_ascending, Text.mem_ascending,
    contents_comment hBefore hSome hIds, List.flatMap_cons, patternsIn_listing hSome hIds,
    List.mem_append]

/-- Whether the comments of a line name a rule. -/
def silences (line : List Char) (rule : String) : Bool :=
  (patterns line).any fun pattern => Suppressions.names pattern rule

end Suppression

/-! ### Lines by number -/

namespace Text

/-- An offset stands on a line: at or behind its start, and before the next line if there is one. -/
def Line.Holds (l : Line) (offset : Int) : Prop :=
  l.start ≤ offset ∧
    (offset < l.start + Utf8.width l.content + l.ending.chars.length ∨ l.ending = .absent)

end Text

namespace Suppressions

variable {text : List Char} {l : Text.Line} {offset : Int}

/-- **The line of an offset** is the one on which it stands. -/
theorem lineOf_eq (hLine : l ∈ Text.split text) (hHolds : l.Holds offset) :
    (ofText text).lineOf offset = l.number := by
  obtain ⟨front, rest, hPieces, hSplit, hStart, hNumber⟩ := Text.exists_split hLine
  have hBefore : ∀ x ∈ (Text.place 1 0 front).map Text.Line.start,
      decide ((x : Int) ≤ offset) = true := by
    intro x hx
    obtain ⟨m, hm, rfl⟩ := List.mem_map.1 hx
    obtain ⟨before, after, rfl, hm, -⟩ := Text.mem_place hm
    rw [Text.joined_append, Utf8.width_append] at hStart
    have := hHolds.1
    rw [decide_eq_true_iff]
    omega
  have hBehind : ((Text.place (l.number + 1) (l.start + Utf8.width l.content + l.ending.chars.length)
      rest).map Text.Line.start).takeWhile (fun (x : Nat) => decide ((x : Int) ≤ offset)) = [] := by
    cases rest with
    | nil => rfl
    | cons q rest =>
      obtain ⟨content, ending⟩ := q
      rw [Text.place, List.map_cons, List.takeWhile_cons_of_neg]
      rcases hHolds.2 with hLt | hAbsent
      · simpa using hLt
      · cases Text.eq_nil_of_absent hPieces hAbsent
  show max 1 (((Text.split text).map Text.Line.start).takeWhile _).length = _
  rw [hSplit, List.map_append, List.map_cons, List.takeWhile_append_of_pos hBefore,
    List.takeWhile_cons_of_pos (by simpa using hHolds.1), hBehind, List.length_append, List.length_map,
    Text.length_place, List.length_singleton, hNumber]
  omega

theorem lookup_eq_none {ls : List Text.Line} {number : Nat} (h : ∀ m ∈ ls, m.number ≠ number) :
    ((ls.map fun m => (m.number, Suppression.patterns m.content)).filter
      fun entry => !entry.2.isEmpty).lookup number = none := by
  refine List.lookup_eq_none_iff.2 fun entry hEntry => ?_
  obtain ⟨m, hm, rfl⟩ := List.mem_map.1 (List.mem_filter.1 hEntry).1
  exact bne_iff_ne.2 (h m hm).symm

theorem lookup_byLine (hLine : l ∈ Text.split text) :
    (ofText text).byLine.lookup l.number =
      if (Suppression.patterns l.content).isEmpty then none
      else some (Suppression.patterns l.content) := by
  obtain ⟨front, rest, -, hSplit, -, hNumber⟩ := Text.exists_split hLine
  have hBefore : ∀ m ∈ Text.place 1 0 front, m.number ≠ l.number := by
    intro m hm
    obtain ⟨before, after, rfl, -, hBelow⟩ := Text.mem_place hm
    rw [List.length_append, List.length_cons] at hNumber
    omega
  have hBehind : ∀ m ∈ Text.place (l.number + 1)
      (l.start + Utf8.width l.content + l.ending.chars.length) rest, m.number ≠ l.number := by
    intro m hm
    obtain ⟨before, after, -, -, hAbove⟩ := Text.mem_place hm
    omega
  show ((Text.split text).map _ |>.filter _).lookup _ = _
  rw [hSplit, List.map_append, List.map_cons, List.filter_append, List.lookup_append,
    lookup_eq_none hBefore, List.filter_cons]
  by_cases hEmpty : (Suppression.patterns l.content).isEmpty = true
  · rw [if_neg (by simp [hEmpty]), if_pos hEmpty, lookup_eq_none hBehind]
    rfl
  · rw [if_pos (by simp [hEmpty]), if_neg hEmpty, List.lookup_cons_self]
    rfl

/-- What is noted for the number of a line covers the offsets that are looked up under this number. -/
theorem covers_of_lineOf (hLine : l ∈ Text.split text) (hNumber : (ofText text).lineOf offset = l.number)
    (rule : String) : (ofText text).covers rule offset = Suppression.silences l.content rule := by
  rw [covers, hNumber, lookup_byLine hLine, Suppression.silences]
  split
  next found hFound =>
    split at hFound
    next => cases hFound
    next => rw [Option.some.inj hFound]
  next hNone =>
    split at hNone
    next hEmpty => rw [List.isEmpty_iff.1 hEmpty, List.any_nil]
    next => cases hNone

/-- **An offset is covered** just when the comments of its line name the rule. -/
theorem covers_eq (hLine : l ∈ Text.split text) (hHolds : l.Holds offset) (rule : String) :
    (ofText text).covers rule offset = Suppression.silences l.content rule :=
  covers_of_lineOf hLine (lineOf_eq hLine hHolds) rule

end Suppressions

namespace Suppression

theorem silences_comment {before after : List Char} {ids : List String} {rule : String}
    (hBefore : '[' ∉ before) (hIds : ∀ id ∈ ids, IsId id) (hRule : rule ∈ ids) :
    silences (before ++ (comment ids ++ after)) rule = true := by
  refine List.any_eq_true.2 ⟨rule, ?_, ?_⟩
  · exact (mem_patterns_comment hBefore (List.ne_nil_of_mem hRule) hIds after rule).2 (Or.inl hRule)
  · rw [Suppressions.names, beq_self_eq_true, Bool.true_or]

/-- **A comment suppresses its rules on its line.** Whatever stands before it without an opening
bracket, and whatever follows, the patterns of the line are the ids of the comment and the patterns of
what follows. So in every text with such a line, no finding is left that is of one of these rules and
starts on that line. -/
theorem patterns_comment (before after : List Char) (ids : List String) (hBefore : '[' ∉ before)
    (hSome : ids ≠ []) (hIds : ∀ id ∈ ids, IsId id) :
    (∀ p, p ∈ patterns (before ++ (comment ids ++ after)) ↔ p ∈ ids ∨ p ∈ patterns after) ∧
      ∀ text, ∀ l ∈ Text.split text, l.content = before ++ (comment ids ++ after) →
        ∀ f : Finding, f.rule ∈ ids → l.Holds f.start →
          (Suppressions.ofText text).covers f.rule f.start = true ∧
            ∀ findings, f ∉ Finding.unsuppressed text findings := by
  refine ⟨mem_patterns_comment hBefore hSome hIds after, ?_⟩
  intro text l hLine hContent f hRule hHolds
  have hCovers : (Suppressions.ofText text).covers f.rule f.start = true := by
    rw [Suppressions.covers_eq hLine hHolds, hContent]
    exact silences_comment hBefore hIds hRule
  refine ⟨hCovers, fun findings hMem => ?_⟩
  have hKept := (List.mem_filter.1 hMem).2
  rw [hCovers] at hKept
  cases hKept

def crowd : List Char := "1 / 2; // /* spacelint: ignore /".toList

/-- A comment behind them, and another one behind it. One of its ids looks like a set that is not
closed. -/
def crowdedLine : List Char := crowd ++ (comment ["style.*", "a [b"] ++ comment ["c"])

def crowdedText : List Char := "é;\r\n".toList ++ (crowdedLine ++ ['\n'])

def crowdedFinding : Finding := ⟨"a [b", "", "a.js", 5, 5, .text "warn", none, .null, none, none⟩

/-- The opening bracket in the second id begins nothing. -/
theorem patterns_comment_crowded :
    '[' ∉ crowd ∧ (∀ id ∈ ["style.*", "a [b"], IsId id) ∧
      (∀ p, p ∈ patterns crowdedLine ↔ p ∈ ["style.*", "a [b"] ∨ p = "c") ∧
      ∀ findings, crowdedFinding ∉ Finding.unsuppressed crowdedText findings := by
  have hBefore : '[' ∉ crowd := by decide
  have hIds : ∀ id ∈ ["style.*", "a [b"], IsId id := by decide
  obtain ⟨hPatterns, hCovers⟩ :=
    patterns_comment crowd (comment ["c"]) ["style.*", "a [b"] hBefore (by decide) hIds
  have hAfter : ∀ p, p ∈ patterns (comment ["c"]) ↔ p = "c" := by
    intro p
    have hNone : p ∉ patterns [] := by
      rw [patterns, contents]
      exact List.not_mem_nil
    have hSecond : p ∈ patterns ([] ++ (comment ["c"] ++ [])) ↔ p ∈ ["c"] ∨ p ∈ patterns [] :=
      mem_patterns_comment (by decide) (by decide) (by decide) [] p
    rw [List.nil_append, List.append_nil, List.mem_singleton, or_iff_left hNone] at hSecond
    exact hSecond
  have hLine : (⟨2, crowdedLine, 5, .lf⟩ : Text.Line) ∈ Text.split crowdedText := by
    decide +kernel
  refine ⟨hBefore, hIds, fun p => (hPatterns p).trans (or_congr_right (hAfter p)), ?_⟩
  exact (hCovers crowdedText _ hLine rfl crowdedFinding (by decide) ⟨by decide, Or.inl (by decide)⟩).2

end Suppression

end TidySpace
