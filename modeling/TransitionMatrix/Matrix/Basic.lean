import TransitionMatrix.Column.Storage
import TransitionMatrix.Row.Spans

/-!
# Sparse matrices

A matrix holds the entries of its rows one row after another, the lengths of the rows and, worked
out from them, the boundaries of each row. It is built once and only read afterwards.
-/

namespace TransitionMatrix

/-- An entry to be stored: a transition from one state, or one choice of a state, to a state. -/
structure Entry where
  src : Nat
  dst : Nat
  weight : Binary64
deriving DecidableEq, Repr

/-- What is stored of an entry in its row. -/
def Entry.cell (e : Entry) : Cell := ⟨e.dst, e.weight⟩

/-- A sparse matrix in row-major order. -/
structure Matrix where
  /-- The number of rows: states, or choices of states. -/
  numRows : Nat
  /-- The number of states a destination may be. -/
  numCols : Nat
  /-- The lengths of the rows. -/
  extents : RowExtents
  /-- The boundaries of the rows. -/
  spans : RowSpans
  /-- The entries of all rows. -/
  storage : ColumnStorage
deriving DecidableEq, Repr

namespace Matrix

def nonZeros (m : Matrix) : Nat := m.storage.size

def isCompact (m : Matrix) : Bool := m.storage.isCompact

/-- Whether the row lengths are stored as counts. -/
def usesCounts (m : Matrix) : Bool := m.extents.usesCounts

/-- The bytes taken by the matrix. -/
def bytes (m : Matrix) : Nat := m.storage.bytes + m.extents.bytes + m.spans.bytes

/-- The kilobytes taken by the matrix. -/
def kilobytes (m : Matrix) : Float := Memory.kilobytes m.bytes

def fieldText (m : Matrix) : String :=
  Text.record "SparseMatrix" [("rows", toString m.numRows), ("cols", toString m.numCols),
    ("counts", toString m.usesCounts), ("storage", m.storage.fieldText)]

end Matrix

end TransitionMatrix
