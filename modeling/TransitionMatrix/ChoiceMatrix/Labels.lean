import TransitionMatrix.ChoiceMatrix.Query
import TransitionMatrix.Update

/-!
# Action labels

Labels are attached all at once and take the place of earlier ones. They are written to an array of
their own first, which becomes that of the matrix when all of them are there.
-/

namespace TransitionMatrix

/-- An action label for a choice of a state. -/
structure Label where
  state : Nat
  choice : Nat
  action : Nat
deriving DecidableEq, Repr

namespace ChoiceMatrix

/-- Writes labels over those there are; of two for the same choice the later one stays. -/
def writeLabels (m : ChoiceMatrix) (written : Array (Option Nat)) :
    List Label → Except Error (Array (Option Nat))
  | [] => return written
  | l :: rest => do
    let row ← m.choiceRow l.state l.choice
    if row < written.size then writeLabels m (written.setIfInBounds row (some l.action)) rest
    else throw (.outOfBounds row written.size)

/-- Gives the matrix the given labels and no others. -/
def setLabels (labels : List Label) : Update ChoiceMatrix Unit := do
  let m ← Update.get
  let written ← m.writeLabels (Array.replicate m.numChoiceRows none) labels
  Traced.emit (.labelsAttached (written.countP Option.isSome) m.numChoiceRows)
  Update.set { m with labels := some written }

end ChoiceMatrix

end TransitionMatrix
