/-!
# The order of entries by row

Entries may come in any order, and are stored row by row. The place of each of them is found in one
pass over the entries once it is known how many each row has: a cursor for each row starts where the
row begins and moves on with every entry that is put in its place. Entries of the same row keep the
order in which they came.
-/

namespace TransitionMatrix

/-- The number of entries of each row, for entries of the given rows. -/
def countRows (numRows : Nat) (rows : List Nat) : Array Nat :=
  rows.foldl (fun lengths row => lengths.modify row (· + 1)) (Array.replicate numRows 0)

/-- Where the next entry of each row goes, and the entries in their places, by number. -/
structure RowCursors where
  next : Array Nat
  order : Array Nat

namespace RowCursors

/-- The cursors where rows of the given lengths begin. -/
def start (lengths : List Nat) (numEntries : Nat) : RowCursors where
  next := (lengths.foldl (fun (next, offset) length => (next.push offset, offset + length)) (#[], 0)).1
  order := Array.replicate numEntries 0

/-- Puts an entry in the next place of its row. -/
def place : RowCursors → Nat → Nat → RowCursors
  | ⟨next, order⟩, row, entry =>
    let position := next.getD row 0
    ⟨next.modify row (· + 1), order.setIfInBounds position entry⟩

end RowCursors

/-- The numbers of entries of the given rows, row by row. -/
def rowOrder (lengths rows : List Nat) : Array Nat :=
  (rows.zipIdx.foldl (fun cursors (row, entry) => RowCursors.place cursors row entry)
    (RowCursors.start lengths rows.length)).order

end TransitionMatrix
