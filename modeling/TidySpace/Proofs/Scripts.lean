import TidySpace.Diff.Script

/-! # The script of a list to itself

The script from a list of lines to the same list keeps them all (`script_self`), although lines that
occur often start no stretch. For a stretch that ends at two places of the list is not longer than the
one that ends twice at the first place, or twice at the second. The search comes to one of these two
ends before it comes to the pair, so it never prefers a stretch off the diagonal
(`longestFrom_self`), and a stretch on the diagonal is extended to the whole list.
-/

namespace TidySpace.Diff

variable {anchors : String → Bool}

/-! ### Stretches by their ends -/

/-- How long a shared stretch of anchored lines is at the start of two lists. -/
def sharedRun (anchors : String → Bool) : List String → List String → Nat
  | line :: x, other :: y => if line == other && anchors other then sharedRun anchors x y + 1 else 0
  | _, _ => 0

theorem sharedRun_nil (x : List String) : sharedRun anchors x [] = 0 := by
  cases x <;> rfl

theorem sharedRun_le_length (x : List String) : sharedRun anchors x x ≤ x.length := by
  induction x with
  | nil => exact Nat.le_refl _
  | cons line x ih =>
    rw [sharedRun, List.length_cons]
    split <;> omega

/-- A line that is shared with an anchored one is anchored, so the left list shares it with itself. -/
theorem sharedRun_le_left (x y : List String) : sharedRun anchors x y ≤ sharedRun anchors x x := by
  induction x generalizing y with
  | nil => cases y <;> exact Nat.zero_le _
  | cons line x ih =>
    cases y with
    | nil => exact Nat.zero_le _
    | cons other y =>
      rw [sharedRun]
      split
      next hShared =>
        rw [Bool.and_eq_true, beq_iff_eq] at hShared
        obtain ⟨rfl, hAnchor⟩ := hShared
        rw [sharedRun, if_pos (by simp [hAnchor])]
        exact Nat.succ_le_succ (ih y)
      next => exact Nat.zero_le _

theorem sharedRun_le_right (x y : List String) : sharedRun anchors x y ≤ sharedRun anchors y y := by
  induction y generalizing x with
  | nil => rw [sharedRun_nil]; exact Nat.zero_le _
  | cons other y ih =>
    cases x with
    | nil => exact Nat.zero_le _
    | cons line x =>
      rw [sharedRun]
      split
      next hShared =>
        rw [Bool.and_eq_true, beq_iff_eq] at hShared
        rw [sharedRun, if_pos (by simp [hShared.2])]
        exact Nat.succ_le_succ (ih x)
      next => exact Nat.zero_le _

/-- The stretches that end with the line before `x` and with each of some lines in turn; both lists stand
before their ends backwards. -/
def runsTo (anchors : String → Bool) (x : List String) : List String → List String → List Nat
  | _, [] => []
  | y, other :: b => sharedRun anchors x (other :: y) :: runsTo anchors x (other :: y) b

theorem runsTo_nil (y b : List String) : runsTo anchors [] y b = List.replicate b.length 0 := by
  induction b generalizing y with
  | nil => rfl
  | cons other b ih => rw [runsTo, ih, List.length_cons, List.replicate_succ]; rfl

theorem runsTo_append (x y b c : List String) :
    runsTo anchors x y (b ++ c) = runsTo anchors x y b ++ runsTo anchors x (b.reverse ++ y) c := by
  induction b generalizing y with
  | nil => rfl
  | cons other b ih => rw [List.cons_append, runsTo, runsTo, ih, List.reverse_cons, List.append_assoc]; rfl

theorem mem_runsTo {x y b : List String} {run : Nat} (h : run ∈ runsTo anchors x y b) :
    ∃ front back, b = front ++ back ∧ run = sharedRun anchors x (front.reverse ++ y) := by
  induction b generalizing y with
  | nil => exact absurd h List.not_mem_nil
  | cons other b ih =>
    rw [runsTo, List.mem_cons] at h
    rcases h with rfl | h
    · exact ⟨[other], b, rfl, rfl⟩
    · obtain ⟨front, back, rfl, rfl⟩ := ih h
      refine ⟨other :: front, back, rfl, ?_⟩
      rw [List.reverse_cons, List.append_assoc]
      rfl

theorem runsAt_runsTo (line : String) (x b : List String) :
    runsAt anchors line (runsTo anchors x [] b) b = runsTo anchors (line :: x) [] b := by
  have hStep : ∀ y, List.zipWith
      (fun other run => if line == other && anchors other then run + 1 else 0) b
      (sharedRun anchors x y :: runsTo anchors x y b) = runsTo anchors (line :: x) y b := by
    induction b with
    | nil => exact fun y => rfl
    | cons other b ih => exact fun y => by rw [runsTo, runsTo, List.zipWith_cons_cons, ih]; rfl
  rw [runsAt, ← hStep [], sharedRun_nil]

/-! ### The search -/

theorem better_of_le {i j : Nat} {best : Block} {runs : List Nat} (h : ∀ run ∈ runs, run ≤ best.size) :
    better i best j runs = best := by
  induction runs generalizing j with
  | nil => rfl
  | cons run runs ih =>
    rw [List.forall_mem_cons] at h
    rw [better, if_neg (Nat.not_lt.2 h.1), ih h.2]

theorem better_append (i j : Nat) (best : Block) (runs more : List Nat) :
    better i best j (runs ++ more) = better i (better i best j runs) (j + runs.length) more := by
  induction runs generalizing best j with
  | nil => rfl
  | cons run runs ih => rw [List.cons_append, better, better, ih, List.length_cons, Nat.add_right_comm]; rfl

theorem length_runsTo (x y b : List String) : (runsTo anchors x y b).length = b.length := by
  induction b generalizing y with
  | nil => rfl
  | cons other b ih => rw [runsTo, List.length_cons, ih, List.length_cons]

/-- On one row the search keeps what it has found above, or takes the stretch on the diagonal: before the
diagonal the stretches are no longer than on the rows above, behind it than on it. -/
theorem better_runsTo (line : String) (x rest : List String) {best : Block}
    (hBest : ∀ y, y <:+ x → sharedRun anchors y y ≤ best.size) {run : Nat}
    (hRun : sharedRun anchors (line :: x) (line :: x) = run) :
    better x.length best 0 (runsTo anchors (line :: x) [] (x.reverse ++ line :: rest)) =
      if best.size < run then ⟨x.length + 1 - run, x.length + 1 - run, run⟩ else best := by
  have hFront : ∀ r ∈ runsTo anchors (line :: x) [] x.reverse, r ≤ best.size := by
    intro r hr
    obtain ⟨front, back, hCut, rfl⟩ := mem_runsTo hr
    rw [List.append_nil]
    refine Nat.le_trans (sharedRun_le_right ..) (hBest _ ⟨back.reverse, ?_⟩)
    rw [← List.reverse_append, ← hCut, List.reverse_reverse]
  have hBack : ∀ r ∈ runsTo anchors (line :: x) (line :: x) rest, r ≤ run := by
    intro r hr
    obtain ⟨front, back, -, rfl⟩ := mem_runsTo hr
    rw [← hRun]
    exact sharedRun_le_left ..
  rw [runsTo_append, better_append, better_of_le hFront, List.append_nil, List.reverse_reverse, runsTo,
    better, hRun, length_runsTo, List.length_reverse, Nat.zero_add, better_of_le]
  intro r hr
  have := hBack r hr
  split <;> omega

/-- **The longest stretch of anchored lines that a list shares with itself** starts at one place on both
sides. The lines `x` before the place that the search has come to stand backwards. -/
theorem longestFrom_self (x rest : List String) (best : Block) (hDiagonal : best.left = best.right)
    (hInside : best.left + best.size ≤ x.length)
    (hBest : ∀ y, y <:+ x → sharedRun anchors y y ≤ best.size) :
    ∃ start size, start + size ≤ x.length + rest.length ∧
      longestFrom anchors (x.reverse ++ rest) x.length (runsTo anchors x [] (x.reverse ++ rest)) best rest =
        ⟨start, start, size⟩ := by
  induction rest generalizing x best with
  | nil =>
    obtain ⟨left, right, size⟩ := best
    obtain rfl : left = right := hDiagonal
    exact ⟨left, size, hInside, rfl⟩
  | cons line rest ih =>
    generalize hRun : sharedRun anchors (line :: x) (line :: x) = run
    have hRunLe : run ≤ x.length + 1 := hRun ▸ sharedRun_le_length (line :: x)
    rw [longestFrom, runsAt_runsTo, better_runsTo line x rest hBest hRun]
    generalize hNext : (if best.size < run then
      (⟨x.length + 1 - run, x.length + 1 - run, run⟩ : Block) else best) = next
    have hNextDiagonal : next.left = next.right := by
      rw [← hNext]
      split
      next => rfl
      next => exact hDiagonal
    have hNextInside : next.left + next.size ≤ x.length + 1 := by
      rw [← hNext]
      split
      next => exact Nat.le_of_eq (Nat.sub_add_cancel hRunLe)
      next => omega
    have hNextBest : ∀ y, y <:+ line :: x → sharedRun anchors y y ≤ next.size := by
      have hSize : best.size ≤ next.size ∧ run ≤ next.size := by
        rw [← hNext]
        split
        next hLt => exact ⟨Nat.le_of_lt hLt, Nat.le_refl _⟩
        next hLe => exact ⟨Nat.le_refl _, Nat.le_of_not_lt hLe⟩
      intro y hy
      rcases List.suffix_cons_iff.1 hy with rfl | hy
      · rw [hRun]
        exact hSize.2
      · exact Nat.le_trans (hBest y hy) hSize.1
    have hList : x.reverse ++ line :: rest = (line :: x).reverse ++ rest := by
      rw [List.reverse_cons, List.append_assoc]
      rfl
    obtain ⟨start, size, hSize, hEq⟩ := ih (line :: x) next hNextDiagonal hNextInside hNextBest
    refine ⟨start, size, ?_, ?_⟩
    · rw [List.length_cons] at hSize ⊢
      omega
    · rw [hList]
      exact hEq

theorem sharedStart_self (x : List String) : sharedStart x x = x.length := by
  induction x with
  | nil => rfl
  | cons line x ih => rw [sharedStart, if_pos (beq_self_eq_true line), ih, List.length_cons]

theorem longest_self (a : List String) : longest anchors a a = ⟨0, 0, a.length⟩ := by
  obtain ⟨start, size, hInside, hEq⟩ := @longestFrom_self anchors [] a ⟨0, 0, 0⟩ rfl
    (Nat.le_refl _) (fun y hy => by rw [List.suffix_nil.1 hy]; exact Nat.le_refl _)
  rw [List.reverse_nil, List.nil_append, runsTo_nil, List.length_nil] at hEq
  rw [List.length_nil, Nat.zero_add] at hInside
  rw [longest, hEq, extend]
  dsimp only
  rw [sharedStart_self, sharedStart_self, List.length_reverse, List.length_take, List.length_drop,
    Nat.min_eq_left (by omega), Nat.sub_self, Nat.add_sub_cancel' hInside]

/-- **The script from a list to itself** keeps all of it. -/
theorem script_self (a : List String) : script a a = if a = [] then [] else [.keep a] := by
  have hEmpty : ∀ anchors, scriptFrom anchors [] [] = [] := fun anchors => by
    rw [scriptFrom, longest_self, dif_neg (by decide)]
    rfl
  rw [script]
  split
  next hNil => rw [hNil, hEmpty]
  next hSome =>
    have hFits : Block.fits ⟨0, 0, a.length⟩ a a = true := by
      simpa [Block.fits] using List.length_pos_iff.2 hSome
    rw [scriptFrom, longest_self, dif_pos hFits]
    simp only [List.take_zero, Nat.zero_add, List.drop_length, hEmpty, List.nil_append, List.drop_zero,
      List.take_length]

end TidySpace.Diff
