import TransitionMatrix.Matrix.Basic
import TransitionMatrix.Row.Order

/-!
# Building a matrix from entries

Entries may come in any order. They are put in order by row, and within a row they keep the order in
which they came; this row-major sequence is what is stored and what the dictionary of the compact
form sees. Before anything is stored every entry is checked, so that the first bad entry of the list
decides the error.
-/

namespace TransitionMatrix

namespace Entry

/-- What is wrong with an entry for the given numbers of rows and destinations: the row is looked at
first. -/
def fault? (numRows numCols : Nat) (e : Entry) : Option Error :=
  if numRows ≤ e.src then some (.stateOutOfRange e.src numRows)
  else if numCols ≤ e.dst then some (.stateOutOfRange e.dst numCols)
  else none

/-- What a list of entries puts in one row, in the order in which they came. -/
def rowOf (src : Nat) (entries : List Entry) : List Cell :=
  entries.filterMap fun e => if e.src = src then some e.cell else none

/-- The cells of entries in the given order. -/
def inOrder (entries : Array Entry) (order : Array Nat) : List Cell :=
  order.toList.filterMap fun i => entries[i]?.map cell

end Entry

namespace Matrix

/-- The largest number of states whose numbers fit in 32 bits, with one number to spare. -/
def maxStates : Nat := 2 ^ 32 - 1

/-- The matrix with the given numbers of rows and of states a destination may be. -/
def rectangular (numRows numCols : Nat) (entries : List Entry) (options : Options) :
    Traced Matrix := do
  options.check
  Error.raise (if maxStates < numCols then some (.tooManyStates numCols) else none)
  Reservation.rowLengths.request numRows
  Error.raise (entries.findSome? (Entry.fault? numRows numCols))
  let rows := entries.map Entry.src
  let lengths := (countRows numRows rows).toList
  let extents ← RowExtents.ofLengths lengths options.rowEncoding
  Reservation.rowOrder.request entries.length
  let cells := Entry.inOrder entries.toArray (rowOrder lengths rows)
  let storage ← ColumnStorage.ofCells cells numCols options
  let spans := RowSpans.ofExtents extents
  spans.check entries.length
  let m : Matrix := ⟨numRows, numCols, extents, spans, storage⟩
  Traced.emit (.matrixBuilt numRows m.nonZeros m.isCompact m.usesCounts m.kilobytes)
  return m

/-- The matrix of `n` states with the given entries. -/
def ofEntries (n : Nat) (entries : List Entry) (options : Options) : Traced Matrix :=
  rectangular n n entries options

end Matrix

end TransitionMatrix
