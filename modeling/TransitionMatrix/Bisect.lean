/-!
# Search by halving

In an array whose first elements satisfy a condition and whose later ones do not, the place where it
stops to hold is found by halving the range where that place can be.
-/

namespace TransitionMatrix

namespace Bisect

/-- Searches between `lo` and `hi`, for a place before which `p` holds and from which on it does
not. -/
def partitionFrom (xs : Array Nat) (p : Nat → Bool) (lo hi : Nat) : Nat :=
  if _h : lo < hi then
    let mid := lo + (hi - lo) / 2
    if xs[mid]?.any p then partitionFrom xs p (mid + 1) hi else partitionFrom xs p lo mid
  else lo
termination_by hi - lo

/-- The number of elements in front that satisfy the condition. -/
def partitionPoint (xs : Array Nat) (p : Nat → Bool) : Nat := partitionFrom xs p 0 xs.size

/-- If the condition holds of exactly the elements before `n`, the search ends at `n`. -/
theorem partitionFrom_eq {xs : Array Nat} {p : Nat → Bool} {lo hi n : Nat} (hlo : lo ≤ n)
    (hhi : n ≤ hi) (hsize : hi ≤ xs.size)
    (hp : ∀ i (h : i < xs.size), p xs[i] = true ↔ i < n) : partitionFrom xs p lo hi = n := by
  fun_induction partitionFrom xs p lo hi with
  | case1 lo hi hlt mid hmid ih =>
    have hm : mid = lo + (hi - lo) / 2 := rfl
    rw [Array.getElem?_eq_getElem (by omega)] at hmid
    have := (hp mid (by omega)).1 (by simpa using hmid)
    exact ih (by omega) hhi hsize
  | case2 lo hi hlt mid hmid ih =>
    have hm : mid = lo + (hi - lo) / 2 := rfl
    rw [Array.getElem?_eq_getElem (by omega)] at hmid
    have : ¬ mid < n := fun h => hmid (by simpa using (hp mid (by omega)).2 h)
    exact ih hlo (by omega) (by omega)
  | case3 lo hi hlt => omega

theorem partitionPoint_eq {xs : Array Nat} {p : Nat → Bool} {n : Nat} (hn : n ≤ xs.size)
    (hp : ∀ i (h : i < xs.size), p xs[i] = true ↔ i < n) : partitionPoint xs p = n :=
  partitionFrom_eq (Nat.zero_le n) hn (Nat.le_refl _) hp

end Bisect

end TransitionMatrix
