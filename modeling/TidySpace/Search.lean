/-! # Binary search

`partitionPoint` halves an interval of indices until one is left: where a property that holds on
a front part stops holding. On a list that is not so divided it still ends, at the index to which
the halving leads.
-/

namespace TidySpace

/-- The index in `[low, high]` at which `p` stops holding, by halving. -/
def partitionPoint (p : Nat → Bool) (low high : Nat) : Nat :=
  if low < high then
    let middle := (low + high) / 2
    if p middle then partitionPoint p (middle + 1) high else partitionPoint p low middle
  else low
termination_by high - low

theorem partitionPoint_le (p : Nat → Bool) {low high : Nat} (h : low ≤ high) :
    partitionPoint p low high ≤ high := by
  fun_induction partitionPoint p low high with
  | case1 low high _ middle _ ih => exact ih (by omega)
  | case2 low high _ middle _ ih => have := ih (by omega); omega
  | case3 => exact h

/-- If `p` holds below `k` and fails from `k` on, then `k` is found. -/
theorem partitionPoint_eq {p : Nat → Bool} {low high k : Nat} (hLow : low ≤ k) (hHigh : k ≤ high)
    (hBelow : ∀ i, low ≤ i → i < k → p i = true) (hAbove : ∀ i, k ≤ i → i < high → p i = false) :
    partitionPoint p low high = k := by
  fun_induction partitionPoint p low high with
  | case1 low high hlt middle hp ih =>
    have hk : middle < k := by
      rcases Nat.lt_or_ge middle k with h | h
      · exact h
      · have := hAbove middle h (by omega)
        simp_all
    exact ih (by omega) hHigh (fun i h => hBelow i (by omega)) hAbove
  | case2 low high hlt middle hp ih =>
    have hk : k ≤ middle := by
      rcases Nat.lt_or_ge middle k with h | h
      · have := hBelow middle (by omega) h
        simp_all
      · exact h
    exact ih hLow hk hBelow fun i h h' => hAbove i h (by omega)
  | case3 low high h => omega

/-- The first index of a list whose number is at least `x`, where the numbers increase. -/
def lowerBound (xs : List Int) (x : Int) : Nat :=
  partitionPoint (fun i => xs.getD i 0 < x) 0 xs.length

/-- The first index of a list whose number is above `x`, where the numbers increase. -/
def upperBound (xs : List Int) (x : Int) : Nat :=
  partitionPoint (fun i => xs.getD i 0 ≤ x) 0 xs.length

end TidySpace
