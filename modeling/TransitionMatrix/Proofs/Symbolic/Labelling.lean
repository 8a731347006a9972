import TransitionMatrix.Proofs.Symbolic.Origins
import TransitionMatrix.Proofs.Symbolic.Unknown

/-!
# Labels that are attached again and again

A call writes its labels beside the matrix, over rows without labels, and what was written takes the
place of the earlier labels only when no label has failed. What a call makes of a matrix is therefore
the same at any time, and after any calls the labels are those of the last one that succeeded. That
they show on their own choices only is so as long as the numbers of choices add up to a word.
-/

namespace TransitionMatrix

namespace ChoiceMatrix

/-- Labels of which the second one is for a choice that is not there, two labels for one choice, and a
relation with an unknown variable. -/
def failingCalls : List LabelCall :=
  [.ofList [⟨0, 0, 3⟩, ⟨1, 0, 4⟩], .ofList [⟨0, 1, 5⟩, ⟨0, 1, 6⟩],
    .ofRelation (Encoding.twoStates none) Encoding.unmasked Encoding.unmasked]

/-- A label for the last choice of the first state, in the second row of the wrapped entries. -/
theorem exists_wrappedLabels : ∃ choices,
    (ofEntries 3 wrapped {}).result = .ok (wrappedMatrix choices) ∧
    (LabelCall.ofList [⟨0, 1, 7⟩]).run.outcome (wrappedMatrix choices) = .ok () ∧
    (wrappedMatrix choices).afterAll [.ofList [⟨0, 1, 7⟩]]
      = { wrappedMatrix choices with labels := some #[none, some 7] } := by
  obtain ⟨choices, hm, hbuilt⟩ := exists_wrappedMatrix
  have hwritten : (LabelCall.ofList [⟨0, 1, 7⟩]).written (wrappedMatrix choices)
      = .ok #[none, some 7] := by
    show (wrappedMatrix choices).writeLabels (Array.replicate choices.numRows none) _ = _
    rw [hbuilt.numRows_eq]
    rfl
  obtain ⟨houtcome, hafter⟩ := LabelCall.run_of_ok hwritten
  exact ⟨choices, hm, houtcome, hafter⟩

end ChoiceMatrix

end TransitionMatrix
