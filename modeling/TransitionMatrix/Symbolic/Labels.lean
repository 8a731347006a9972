import TransitionMatrix.ChoiceMatrix.Labels
import TransitionMatrix.Symbolic.Build

/-!
# Action labels from a relation

The action labels of a model's choices come as a relation whose values are labels counted from one.
Its paths fix states and choices; literals over destination variables are left out. A label for a
choice that the model does not have is passed over.
-/

namespace TransitionMatrix

namespace Encoding

variable (e : Encoding)

/-- The path without its literals over destination variables. -/
def withoutCols (path : Path) : Path :=
  { path with cube := path.cube.filter fun l => (e.cols.position? l.var).isNone }

/-- The action that a value stands for: a positive 32-bit number. -/
def actionOf (value : Binary64) : Except Error Nat :=
  match value.toNat? with
  | some n => if 1 ≤ n ∧ n < 2 ^ 32 then .ok n else .error (.invalidActionLabel value)
  | none => .error (.invalidActionLabel value)

/-- The labels that sorted choices with values give, for the choices that have a number. -/
def labelsOf (numbering : ChoiceNumbering) : List Transition → Traced (List Label)
  | [] => return []
  | t :: rest => do
    let action ← actionOf t.weight
    match numbering.number? t.src t.choice with
    | none =>
      Traced.emit (.labelWithoutChoice t.choice t.src t.weight)
      labelsOf numbering rest
    | some number =>
      let later ← labelsOf numbering rest
      return ⟨t.src, number, action - 1⟩ :: later

/-- The labels that `actions` gives to the choices of `relation`. -/
def labelsFor (relation actions : Relation) : Traced (List Label) := do
  let numbering := ChoiceNumbering.ofSorted (← e.expand relation)
  let labelled ← e.expandChoices (.ofPaths (actions.paths.map e.withoutCols))
  labelsOf numbering labelled

/-- Gives a matrix the labels that `actions` gives to the choices of `relation`, and no others. The
matrix has to be one of that relation. -/
def addActions (relation actions : Relation) : Update ChoiceMatrix Unit := do
  ChoiceMatrix.setLabels (← e.labelsFor relation actions)

end Encoding

/-- A call that gives a matrix labels. -/
inductive LabelCall where
  /-- Labels from a list. -/
  | ofList (labels : List Label)
  /-- Labels from a relation over the choices of another one. -/
  | ofRelation (e : Encoding) (relation actions : Relation)

def LabelCall.run : LabelCall → Update ChoiceMatrix Unit
  | ofList labels => ChoiceMatrix.setLabels labels
  | ofRelation e relation actions => e.addActions relation actions

end TransitionMatrix
