import TransitionMatrix.Matrix.Basic

/-!
# Queries

Every query looks at the entries of one row, between the row's boundaries, and works the same way
for both forms of storage. A row that is not there is an error; a transition that is not there is
not.
-/

namespace TransitionMatrix

namespace Matrix

variable (m : Matrix)

def checkRow (row : Nat) : Except Error Unit :=
  if row < m.numRows then .ok () else .error (.stateOutOfRange row m.numRows)

/-- The boundaries of a row; a row that is not there has none of the positions. -/
def span (row : Nat) : Span := (m.spans.span? row).getD ⟨0, 0⟩

/-- The entries of a row, in the order in which they are stored. -/
def cells (row : Nat) : List Cell := (m.span row).positions.filterMap m.storage.cell?

/-- The entries of a row, in the order in which they are stored. -/
def row (src : Nat) : Except Error (List Cell) := do
  m.checkRow src
  return m.cells src

/-- The destinations of a row, in the order in which they are stored. -/
def successors (src : Nat) : Except Error (List Nat) := do
  m.checkRow src
  return (m.span src).positions.filterMap m.storage.destination?

/-- The weight of the first entry of a row with the given destination. -/
def weight? (src dst : Nat) : Except Error (Option Binary64) := do
  m.checkRow src
  return ((m.cells src).find? fun c => c.dst == dst).map Cell.weight

/-- Whether a state has no transitions, or only one, to itself. -/
def isFinal (src : Nat) : Except Error Bool := do
  m.checkRow src
  let s := m.span src
  return s.length == 0 || s.length == 1 && m.storage.destination? s.lo == some src

/-- The product of `acc` and the weights of the steps of a path, from left to right; zero if a step
is missing. -/
def stepsFrom (acc : Binary64) : List Nat → Except Error Binary64
  | src :: dst :: rest => do
    match ← m.weight? src dst with
    | some w => stepsFrom (acc.mul w) (dst :: rest)
    | none => return .zero
  | _ => return acc

/-- The weight of a path: the product of the weights of its steps. The first state has to be there,
and contributes nothing. -/
def pathWeight (path : List Nat) : Except Error Binary64 := do
  path.head?.forM m.checkRow
  m.stepsFrom .one path

end Matrix

end TransitionMatrix
