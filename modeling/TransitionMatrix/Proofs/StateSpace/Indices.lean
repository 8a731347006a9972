import TransitionMatrix.Proofs.StateSpace.Matching

/-!
# Indices of states

The index of an encoding is found by halving the list of encodings. As encodings are in increasing
order, that search finds an encoding exactly where it is listed.
-/

namespace TransitionMatrix

namespace StateSpace

variable {space : StateSpace}

/-- Indices are in the order of the encodings. -/
theorem lt_iff_of_state? {i j s t : Nat} (hi : space.state? i = some s)
    (hj : space.state? j = some t) : s < t ↔ i < j := by
  obtain ⟨hilt, rfl⟩ := Array.getElem?_eq_some_iff.1 hi
  obtain ⟨hjlt, rfl⟩ := Array.getElem?_eq_some_iff.1 hj
  have hincreasing := List.pairwise_iff_getElem.1 space.increasing
  simp only [Array.getElem_toList, Array.length_toList] at hincreasing
  constructor
  · intro hst
    by_contra hji
    rcases Nat.lt_or_eq_of_le (Nat.le_of_not_lt hji) with hlt | heq
    · have := hincreasing j i hjlt hilt hlt
      omega
    · subst heq
      omega
  · intro hij
    exact hincreasing i j hilt hjlt hij

/-- The search for an encoding that is listed ends at its index. -/
theorem partitionPoint_of_state? {i s : Nat} (h : space.state? i = some s) :
    Bisect.partitionPoint space.states (· < s) = i := by
  have hlt := lt_size_of_state? h
  refine Bisect.partitionPoint_eq (Nat.le_of_lt hlt) fun j hj => ?_
  rw [decide_eq_true_eq]
  exact lt_iff_of_state? (Array.getElem?_eq_getElem hj) h

theorem indexOf?_eq_some_iff {i s : Nat} :
    space.indexOf? s = some i ↔ space.state? i = some s := by
  unfold indexOf?
  dsimp only
  constructor
  · intro h
    split at h
    · rename_i hfound
      cases h
      exact hfound
    · cases h
  · intro h
    have hplace := partitionPoint_of_state? h
    rw [hplace]
    exact if_pos h

end StateSpace

end TransitionMatrix
