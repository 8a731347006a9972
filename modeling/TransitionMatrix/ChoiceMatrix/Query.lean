import TransitionMatrix.ChoiceMatrix.Basic

/-!
# Queries on choices

A choice is found through the boundaries of its state's choices. The label of a state's first choice
is found in another way, through the stored numbers of choices.
-/

namespace TransitionMatrix

namespace ChoiceMatrix

variable (m : ChoiceMatrix)

def checkState (state : Nat) : Except Error Unit :=
  if state < m.numStates then .ok () else .error (.stateOutOfRange state m.numStates)

/-- The rows of a state's choices; a state that is not there has none. -/
def group (state : Nat) : Span := (m.groupSpans.span? state).getD ⟨0, 0⟩

/-- The rows of a state's choices. -/
def choiceRange (state : Nat) : Except Error Span := do
  m.checkState state
  return m.group state

def numChoices (state : Nat) : Except Error Nat := do
  m.checkState state
  return (m.group state).width

def choiceRow (state choice : Nat) : Except Error Nat := do
  let rows ← m.choiceRange state
  if choice < rows.length then return rows.lo + choice
  else throw (.choiceOutOfRange state choice rows.length)

/-- The entries of a choice, in the order in which they are stored. -/
def choice (state choice : Nat) : Except Error (List Cell) := do
  m.choices.row (← m.choiceRow state choice)

/-- The label of a row, if labels are attached. -/
def rowLabel (row : Nat) : Except Error (Option Nat) :=
  match m.labels with
  | none => .ok none
  | some labels => labels[row]?.elim (.error (.outOfBounds row labels.size)) .ok

def choiceLabel (state choice : Nat) : Except Error (Option Nat) := do
  m.rowLabel (← m.choiceRow state choice)

/-- The label of the first choice of a state, whatever choice is asked about. There is none if no
labels are attached, the choice is not labelled or the state has no choices. -/
def firstLabel (state _choice : Nat) : Except Error (Option Nat) := do
  m.checkState state
  if m.labels.isNone || (m.group state).width == 0 then return none
  match m.groups.firstEntry? state with
  | some row => m.rowLabel row
  | none => throw (.outOfBounds state m.groups.numRows)

end ChoiceMatrix

end TransitionMatrix
