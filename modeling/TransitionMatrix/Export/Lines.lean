import TransitionMatrix.ChoiceMatrix.Query
import TransitionMatrix.Update

/-!
# Matrices as lines of text

An exported matrix is a line with its sizes and then a line for each entry, row by row. Fields are
separated by one blank.

```text
3 3
0 1 0.4
0 2 0.6
1 1 1
```

A matrix with choices has three sizes, and its entries have the number of the choice after the
source and, for a labelled choice, the label at the end. It is written through the queries on its
choices, and a query that fails ends the listing: the lines until then stay written.
-/

namespace TransitionMatrix

namespace Export

/-- Writes lines below those there are. -/
def write (lines : List (List String)) : Update (List (List String)) Unit := do
  Update.set ((← Update.get) ++ lines)

end Export

namespace Matrix

def entryFields (src : Nat) (c : Cell) : List String :=
  [toString src, toString c.dst, c.weight.text]

def exportFields (m : Matrix) : List (List String) :=
  [toString m.numRows, toString m.nonZeros] ::
    (List.range m.numRows).flatMap fun src => (m.cells src).map (entryFields src)

def write (m : Matrix) : Update (List (List String)) Unit := Export.write m.exportFields

end Matrix

namespace ChoiceMatrix

def entryFields (state choice : Nat) (label : Option Nat) (c : Cell) : List String :=
  [toString state, toString choice, toString c.dst, c.weight.text] ++ (label.map toString).toList

/-- Writes the entries of a choice of a state. -/
def writeChoice (m : ChoiceMatrix) (state choice : Nat) : Update (List (List String)) Unit := do
  let label ← m.choiceLabel state choice
  let cells ← m.choice state choice
  Export.write (cells.map (entryFields state choice label))

/-- Writes the entries of a state, choice by choice. -/
def writeState (m : ChoiceMatrix) (state : Nat) : Update (List (List String)) Unit := do
  Update.forFrom (m.writeChoice state) 0 (← m.numChoices state)

def write (m : ChoiceMatrix) : Update (List (List String)) Unit := do
  Export.write [[toString m.numStates, toString m.numChoiceRows, toString m.nonZeros]]
  Update.forFrom m.writeState 0 m.numStates

end ChoiceMatrix

namespace Export

def line (fields : List String) : String := " ".intercalate fields

/-- The text of a file with the given lines. -/
def text (lines : List (List String)) : String :=
  String.join (lines.map fun fields => line fields ++ "\n")

def events (lines : List (List String)) : List Event := lines.map fun fields => .exported (line fields)

end Export

end TransitionMatrix
