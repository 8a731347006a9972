import TransitionMatrix.Matrix.Query

/-!
# Matrices with choices

In a nondeterministic model every state offers choices, and each choice has its own row. The rows of
a state's choices follow one another, so they are grouped under states the way entries are grouped
under rows: by their number for each state, and by boundaries worked out from that.

```text
state:        0          1     2
choice rows:  [r0 r1]    [r2]  []
entries:      r0: ...    r1: ...    r2: ...
```

A choice may carry an action label. Labels are attached after the matrix is built.
-/

namespace TransitionMatrix

/-- An entry to be stored: a transition of one choice of a state. -/
structure ChoiceEntry where
  state : Nat
  /-- The choice, counted from zero within the state. -/
  choice : Nat
  dst : Nat
  weight : Binary64
deriving DecidableEq, Repr

/-- A sparse matrix with one row for each choice of each state. -/
structure ChoiceMatrix where
  numStates : Nat
  /-- The matrix whose rows are the choices. -/
  choices : Matrix
  /-- The number of choices of each state. -/
  groups : RowExtents
  /-- The boundaries of each state's choices. -/
  groupSpans : RowSpans
  /-- The action label of each choice, if labels were attached. -/
  labels : Option (Array (Option Nat))
deriving DecidableEq, Repr

namespace ChoiceMatrix

variable (m : ChoiceMatrix)

/-- The number of choices of all states. -/
def numChoiceRows : Nat := m.choices.numRows

def nonZeros : Nat := m.choices.nonZeros

/-- The kilobytes taken by the matrix; a label takes eight bytes. -/
def kilobytes : Float :=
  let labelBytes := (m.labels.map fun labels => labels.size * 8).getD 0
  m.choices.kilobytes + Memory.kilobytes (m.groups.bytes + m.groupSpans.bytes + labelBytes)

def fieldText : String :=
  Text.record "NdSparseMatrix" [("states", toString m.numStates), ("choices", m.choices.fieldText),
    ("counts", toString m.groups.usesCounts), ("actions", toString m.labels.isSome)]

end ChoiceMatrix

end TransitionMatrix
