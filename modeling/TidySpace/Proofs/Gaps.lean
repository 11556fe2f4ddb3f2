import TidySpace.Gap
import TidySpace.Proofs.Slices

/-! # What a gap depends on

Whether two offsets are on one line depends only on the bytes between them and on the byte behind
(`lineAt_eq_iff`, `endsLine_append`): a carriage return there ends a line unless a line feed follows.
Whether a gap is spaced depends only on its text. A gap that begins or ends with a space is spaced
whatever else it holds, for no block comment reaches over its ends (`isSpaced_space_append`,
`isSpaced_append_space`); in general it has to hold one outside of its block comments
(`isSpaced_iff`).
-/

namespace TidySpace

/-! ### Line ends -/

namespace Text

/-- A byte that ends a line: a line feed, or a carriage return that no line feed follows. -/
def EndsLine (bytes : List UInt8) (i : Nat) : Prop :=
  bytes[i]? = some 0x0A ∨ bytes[i]? = some 0x0D ∧ bytes[i + 1]? ≠ some 0x0A

theorem endsLine_cons {b : UInt8} {bytes : List UInt8} {i : Nat} :
    EndsLine (b :: bytes) (i + 1) ↔ EndsLine bytes i := by
  rw [EndsLine, List.getElem?_cons_succ, List.getElem?_cons_succ]
  exact Iff.rfl

theorem endsLine_append (front bytes : List UInt8) (i : Nat) :
    EndsLine (front ++ bytes) (front.length + i) ↔ EndsLine bytes i := by
  induction front with
  | nil => rw [List.length_nil, Nat.zero_add, List.nil_append]
  | cons b front ih =>
    rw [List.length_cons, Nat.add_right_comm, List.cons_append, endsLine_cons, ih]

theorem endsLine_of_lt {bytes back : List UInt8} {i : Nat} (h : i + 1 < bytes.length) :
    EndsLine (bytes ++ back) i ↔ EndsLine bytes i := by
  rw [EndsLine, List.getElem?_append_left (Nat.lt_of_succ_lt h), List.getElem?_append_left h]
  exact Iff.rfl

/-- **Line ends stop behind the bytes that end a line.** -/
theorem mem_breakEnds {pos k : Nat} {bytes : List UInt8} :
    k ∈ breakEnds pos bytes ↔ ∃ i, k = pos + i + 1 ∧ EndsLine bytes i := by
  fun_induction breakEnds pos bytes with
  | case1 pos => simp [EndsLine]
  | case2 pos bytes ih =>
    rw [List.mem_cons, ih]
    constructor
    · rintro (rfl | ⟨i, rfl, hEnds⟩)
      · exact ⟨1, rfl, Or.inl rfl⟩
      · exact ⟨i + 2, by omega, endsLine_cons.2 (endsLine_cons.2 hEnds)⟩
    · rintro ⟨i, rfl, hEnds⟩
      match i with
      | 0 =>
        rcases hEnds with hFeed | ⟨-, hNext⟩
        · cases hFeed
        · exact absurd rfl hNext
      | 1 => exact Or.inl rfl
      | i + 2 => exact Or.inr ⟨i, by omega, endsLine_cons.1 (endsLine_cons.1 hEnds)⟩
  | case3 pos b bytes hPair hb ih =>
    rw [List.mem_cons, ih]
    constructor
    · rintro (rfl | ⟨i, rfl, hEnds⟩)
      · refine ⟨0, rfl, ?_⟩
        rcases hb with rfl | rfl
        · refine Or.inr ⟨rfl, fun hNext => ?_⟩
          obtain ⟨rest, rfl⟩ : ∃ rest, bytes = 0x0A :: rest := by
            cases bytes with
            | nil => cases hNext
            | cons c rest => exact ⟨rest, by rw [Option.some.inj hNext]⟩
          exact hPair rest rfl rfl
        · exact Or.inl rfl
      · exact ⟨i + 1, by omega, endsLine_cons.2 hEnds⟩
    · rintro ⟨i, rfl, hEnds⟩
      cases i with
      | zero => exact Or.inl rfl
      | succ i => exact Or.inr ⟨i, by omega, endsLine_cons.1 hEnds⟩
  | case4 pos b bytes _ hb ih =>
    rw [ih]
    constructor
    · rintro ⟨i, rfl, hEnds⟩
      exact ⟨i + 1, by omega, endsLine_cons.2 hEnds⟩
    · rintro ⟨i, rfl, hEnds⟩
      cases i with
      | zero =>
        rcases hEnds with hFeed | ⟨hReturn, -⟩
        · exact absurd (Or.inr (Option.some.inj hFeed)) hb
        · exact absurd (Or.inl (Option.some.inj hReturn)) hb
      | succ i => exact ⟨i, by omega, endsLine_cons.1 hEnds⟩

end Text

theorem countP_le_eq_iff {xs : List Nat} {x y : Nat} (h : x ≤ y) :
    xs.countP (· ≤ x) = xs.countP (· ≤ y) ↔ ∀ k ∈ xs, k ≤ y → k ≤ x := by
  induction xs with
  | nil => simp
  | cons k xs ih =>
    have hMono : xs.countP (· ≤ x) ≤ xs.countP (· ≤ y) :=
      List.countP_mono_left fun k _ hk => by
        simp only [decide_eq_true_eq] at hk ⊢
        omega
    rw [List.countP_cons, List.countP_cons, List.forall_mem_cons, ← ih]
    simp only [decide_eq_true_eq]
    split <;> split <;> omega

namespace Buffer

open Text (EndsLine)

/-- **Two offsets are on one line** if no byte between them ends a line. -/
theorem lineAt_eq_iff (text : List Char) {x y : Nat} (h : x ≤ y) :
    (ofText text).lineAt x = (ofText text).lineAt y ↔
      ∀ i, x ≤ i → i < y → ¬ EndsLine (Utf8.encode text) i := by
  show (0 :: Text.breakEnds 0 (Utf8.encode text)).countP _ =
    (0 :: Text.breakEnds 0 (Utf8.encode text)).countP _ ↔ _
  rw [countP_le_eq_iff h, List.forall_mem_cons]
  constructor
  · rintro ⟨-, hBreaks⟩ i hx hy hEnds
    have := hBreaks (i + 1) (Text.mem_breakEnds.2 ⟨i, by omega, hEnds⟩) hy
    omega
  · intro hNone
    refine ⟨fun _ => Nat.zero_le x, fun k hk hy => ?_⟩
    obtain ⟨i, rfl, hEnds⟩ := Text.mem_breakEnds.1 hk
    refine Nat.le_of_not_lt fun hx => hNone i (by omega) (by omega) hEnds

/-- Whether the ends of a gap are on one line is a matter of the gap and the byte behind it. -/
theorem lineAt_eq_iff_of_cut {text : List Char} {front gap back : List UInt8} {c : UInt8}
    (h : Utf8.encode text = front ++ (gap ++ c :: back)) :
    (ofText text).lineAt front.length = (ofText text).lineAt (front.length + gap.length) ↔
      ∀ i, i < gap.length → ¬ EndsLine (gap ++ [c]) i := by
  have hEnds : ∀ i, i < gap.length →
      (EndsLine (Utf8.encode text) (front.length + i) ↔ EndsLine (gap ++ [c]) i) := by
    intro i hi
    have hCut : gap ++ c :: back = gap ++ [c] ++ back := by rw [List.append_assoc]; rfl
    have hLength : i + 1 < (gap ++ [c]).length := by
      rw [List.length_append, List.length_singleton]
      omega
    rw [h, Text.endsLine_append, hCut, Text.endsLine_of_lt hLength]
  rw [lineAt_eq_iff text (Nat.le_add_right ..)]
  constructor
  · intro hNone i hi
    rw [← hEnds i hi]
    exact hNone _ (Nat.le_add_right ..) (by omega)
  · intro hNone i hx hy
    obtain ⟨j, rfl⟩ := Nat.exists_eq_add_of_le hx
    rw [hEnds j (by omega)]
    exact hNone j (by omega)

end Buffer

/-! ### Spaced gaps -/

namespace Gap

theorem exists_cons_of_append_space {cs rest : List Char} {d : Char} (hd : ' ' ≠ d)
    (h : cs ++ [' '] = d :: rest) : ∃ cs', cs = d :: cs' := by
  cases cs with
  | nil => exact absurd (List.cons.inj h).1 hd
  | cons c cs =>
    obtain ⟨rfl, -⟩ := List.cons.inj h
    exact ⟨cs, rfl⟩

theorem afterComment?_append_space (cs : List Char) :
    afterComment? (cs ++ [' ']) = (afterComment? cs).map (· ++ [' ']) := by
  fun_induction afterComment? cs with
  | case1 => rfl
  | case2 => rfl
  | case3 c cs hStar ih =>
    rw [List.cons_append, afterComment?, ih]
    rintro rest rfl hEq
    obtain ⟨cs, rfl⟩ := exists_cons_of_append_space (by decide) hEq
    exact hStar cs rfl rfl

theorem dropComments_append_space (cs : List Char) :
    dropComments (cs ++ [' ']) = dropComments cs ++ [' '] := by
  fun_induction dropComments cs with
  | case1 =>
    rw [List.nil_append, dropComments, dropComments]
    rintro _ hEq
    cases hEq
  | case2 rest rest' h ih =>
    rw [List.cons_append, List.cons_append, dropComments]
    split
    next _ hAfter =>
      rw [afterComment?_append_space, h] at hAfter
      cases hAfter
      exact ih
    next hNone =>
      rw [afterComment?_append_space, h] at hNone
      cases hNone
  | case3 rest h ih =>
    rw [List.cons_append, List.cons_append, dropComments]
    split
    next _ hAfter =>
      rw [afterComment?_append_space, h] at hAfter
      cases hAfter
    next => rw [← List.cons_append, ih, List.cons_append]
  | case4 c rest hStar ih =>
    rw [List.cons_append, dropComments, ih, List.cons_append]
    rintro rest' rfl hEq
    obtain ⟨rest, rfl⟩ := exists_cons_of_append_space (by decide) hEq
    exact hStar rest rfl rfl

theorem isSpaced_append_space (cs : List Char) : isSpaced (cs ++ [' ']) = true := by
  rw [isSpaced, dropComments_append_space, List.any_append, Bool.or_eq_true]
  exact Or.inr rfl

theorem isSpaced_space_append (cs : List Char) : isSpaced (' ' :: cs) = true := by
  rw [isSpaced, dropComments, List.any_cons]
  · rfl
  · rintro _ hEq
    cases hEq

theorem isSpaced_nil : isSpaced [] = false := by
  rw [isSpaced, dropComments]
  rfl

/-! ### What it means to be spaced -/

def Commented (cs rest : List Char) : Prop :=
  ∃ body, cs = '/' :: '*' :: (body ++ '*' :: '/' :: rest) ∧ ¬ ['*', '/'] <:+: body ++ ['*']

/-- A text with a space or a tab outside its block comments. -/
inductive Spaced : List Char → Prop where
  | here {c : Char} {rest : List Char} : Text.isGap c = true → Spaced (c :: rest)
  | comment {cs rest : List Char} : Commented cs rest → Spaced rest → Spaced cs
  | other {c : Char} {rest : List Char} : (∀ rest', ¬ Commented (c :: rest) rest') → Spaced rest →
      Spaced (c :: rest)

theorem afterComment?_eq_some {cs rest : List Char} :
    afterComment? cs = some rest ↔
      ∃ body, cs = body ++ '*' :: '/' :: rest ∧ ¬ ['*', '/'] <:+: body ++ ['*'] := by
  fun_induction afterComment? cs with
  | case1 =>
    constructor
    · intro h
      cases h
    · rintro ⟨body, h, -⟩
      cases body <;> cases h
  | case2 rest' =>
    constructor
    · intro h
      cases h
      exact ⟨[], rfl, by decide⟩
    · rintro ⟨body, h, hFirst⟩
      cases body with
      | nil => cases h; rfl
      | cons c body =>
        refine absurd ?_ hFirst
        cases body with
        | nil => cases h
        | cons d body =>
          cases h
          exact ⟨[], body ++ ['*'], rfl⟩
  | case3 c cs hStar ih =>
    rw [ih]
    constructor
    · rintro ⟨body, rfl, hFirst⟩
      refine ⟨c :: body, rfl, ?_⟩
      rw [List.cons_append, List.infix_cons_iff, not_or]
      refine ⟨?_, hFirst⟩
      rintro ⟨tail, hTail⟩
      obtain ⟨rfl, hRest⟩ := List.cons.inj hTail
      cases body with
      | nil => cases hRest
      | cons d body =>
        obtain ⟨hSlash, -⟩ := List.cons.inj hRest
        exact hStar _ rfl (by rw [← hSlash]; rfl)
    · rintro ⟨body, h, hFirst⟩
      cases body with
      | nil =>
        obtain ⟨rfl, rfl⟩ := List.cons.inj h
        exact absurd rfl (hStar _ rfl)
      | cons d body =>
        obtain ⟨rfl, rfl⟩ := List.cons.inj h
        rw [List.cons_append, List.infix_cons_iff, not_or] at hFirst
        exact ⟨body, rfl, hFirst.2⟩

theorem commented_iff {cs rest : List Char} :
    Commented cs rest ↔ ∃ tail, cs = '/' :: '*' :: tail ∧ afterComment? tail = some rest := by
  constructor
  · rintro ⟨body, rfl, hFirst⟩
    exact ⟨_, rfl, afterComment?_eq_some.2 ⟨body, rfl, hFirst⟩⟩
  · rintro ⟨tail, rfl, hAfter⟩
    obtain ⟨body, rfl, hFirst⟩ := afterComment?_eq_some.1 hAfter
    exact ⟨body, rfl, hFirst⟩

/-- Without a comment at its front, a text is spaced if its first character is a space or a tab, or
the others are spaced. -/
theorem spaced_cons_iff {c : Char} {rest : List Char} (h : ∀ rest', ¬ Commented (c :: rest) rest') :
    Spaced (c :: rest) ↔ Text.isGap c = true ∨ Spaced rest := by
  constructor
  · rintro (hHere | ⟨hComment, -⟩ | ⟨-, hRest⟩)
    · exact Or.inl hHere
    · exact absurd hComment (h _)
    · exact Or.inr hRest
  · rintro (hHere | hRest)
    · exact .here hHere
    · exact .other h hRest

/-- **A gap is spaced if a space or a tab is in it outside of block comments.** -/
theorem isSpaced_iff (cs : List Char) : isSpaced cs = true ↔ Spaced cs := by
  rw [isSpaced]
  fun_induction dropComments cs with
  | case1 =>
    refine ⟨fun h => (by cases h), fun h => ?_⟩
    cases h with
    | comment hComment => obtain ⟨_, h, -⟩ := hComment; cases h
  | case2 rest rest' hAfter ih =>
    have hComment : Commented ('/' :: '*' :: rest) rest' := commented_iff.2 ⟨rest, rfl, hAfter⟩
    rw [ih]
    refine ⟨.comment hComment, fun h => ?_⟩
    cases h with
    | here hGap => exact absurd hGap (by decide)
    | @comment _ rest'' hComment' hRest =>
      obtain ⟨tail, hEq, hAfter'⟩ := commented_iff.1 hComment'
      cases hEq
      cases hAfter.symm.trans hAfter'
      exact hRest
    | other hNone => exact absurd hComment (hNone _)
  | case3 rest hNone ih =>
    have hPlain : ∀ rest', ¬ Commented ('/' :: '*' :: rest) rest' := by
      intro rest' h
      obtain ⟨tail, hEq, hAfter⟩ := commented_iff.1 h
      cases hEq
      cases hNone.symm.trans hAfter
    rw [spaced_cons_iff hPlain, List.any_cons, Bool.or_eq_true, ih]
  | case4 c rest hStar ih =>
    have hPlain : ∀ rest', ¬ Commented (c :: rest) rest' := by
      intro rest' h
      obtain ⟨tail, hEq, -⟩ := commented_iff.1 h
      obtain ⟨rfl, rfl⟩ := List.cons.inj hEq
      exact hStar tail rfl rfl
    rw [spaced_cons_iff hPlain, List.any_cons, Bool.or_eq_true, ih]

instance (cs : List Char) : Decidable (Spaced cs) := decidable_of_iff _ (isSpaced_iff cs)

end Gap

end TidySpace
