import TransitionMatrix.Proofs.Symbolic.Labelling

/-!
# The label of a first choice

The row of a state's first choice is found in two ways: as the beginning of the state's rows, and by
adding up the stored numbers of choices of the states before it. The two agree for every state, but
where a state has no choices the row is that of a later state, or lies behind the last one. The label
of a first choice is therefore read only for a state that has choices, and then it is the state's own,
as long as the numbers of choices add up to a word.
-/

namespace TransitionMatrix

namespace ChoiceMatrix

theorem rowLabel_ne_stateOutOfRange (m : ChoiceMatrix) (row state n : Nat) :
    m.rowLabel row ≠ .error (.stateOutOfRange state n) := by
  intro h
  unfold rowLabel at h
  split at h
  · cases h
  · rename_i labels _
    cases hlabel : labels[row]? with
    | none =>
      rw [hlabel] at h
      cases h
    | some label =>
      rw [hlabel] at h
      cases h

section State

variable {m : ChoiceMatrix} {state : Nat}

theorem numChoices_of_lt (hstate : state < m.numStates) :
    m.numChoices state = .ok (m.group state).width := by
  rw [numChoices, checkState, if_pos hstate]
  rfl

theorem choiceLabel_zero (hstate : state < m.numStates) (hpos : 0 < (m.group state).length) :
    m.choiceLabel state 0 = m.rowLabel (m.group state).lo := by
  rw [choiceLabel, choiceRow_of_lt hstate hpos]
  rfl

/-- Asking for the label of a first choice fails for a state that is not there, and only then in this
way. -/
theorem Sound.firstLabel_eq_stateOutOfRange_iff (h : m.Sound) {choice asked n : Nat} :
    m.firstLabel state choice = .error (.stateOutOfRange asked n) ↔
      m.numStates ≤ state ∧ asked = state ∧ n = m.numStates := by
  rcases Nat.lt_or_ge state m.numStates with hstate | hstate
  · rw [h.firstLabel_of_lt hstate]
    constructor
    · intro herr
      split at herr
      · cases herr
      · exact absurd herr (m.rowLabel_ne_stateOutOfRange _ _ _)
    · rintro ⟨hle, _⟩
      omega
  · rw [firstLabel_of_le hstate]
    constructor
    · intro herr
      cases herr
      exact ⟨hstate, rfl, rfl⟩
    · rintro ⟨_, rfl, rfl⟩
      rfl

theorem Sound.firstLabel_of_empty (h : m.Sound) (hstate : state < m.numStates)
    (hempty : (m.group state).width = 0) (choice : Nat) : m.firstLabel state choice = .ok none := by
  rw [h.firstLabel_of_lt hstate, if_pos (by simp [hempty])]

/-- Where there are choices, adding up leads to the beginning of the state's rows. -/
theorem Sound.firstLabel_eq (h : m.Sound) (hstate : state < m.numStates)
    (hpos : 0 < (m.group state).width) (choice : Nat) :
    m.firstLabel state choice = m.rowLabel (m.group state).lo := by
  rw [h.firstLabel_of_lt hstate]
  cases hlabels : m.labels with
  | none => simp [rowLabel, hlabels]
  | some labels => rw [if_neg (by simp; omega)]

end State

/-- Labels for two states, the second choice of the first of them before the first one. -/
def twoStateLabels : List Label := [⟨1, 1, 8⟩, ⟨1, 0, 7⟩, ⟨3, 0, 9⟩]

end ChoiceMatrix

end TransitionMatrix
