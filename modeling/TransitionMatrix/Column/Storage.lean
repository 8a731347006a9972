import TransitionMatrix.Column.Dictionary
import TransitionMatrix.Options
import TransitionMatrix.Traced

/-!
# Stored entries

The entries of a matrix, row after row, are stored in one of two forms. The plain form has an array
of destinations and an array of weights. The compact form has one packed word for each entry, with
the weight's number in a dictionary. It is used when it is asked for and the fields fit.
-/

namespace TransitionMatrix

/-- An entry of a row: where a transition leads, and its weight. -/
structure Cell where
  dst : Nat
  weight : Binary64
deriving DecidableEq, Repr

/-- The entries of all rows. -/
inductive ColumnStorage where
  /-- Destinations and weights. -/
  | plain (cols : Array UInt32) (weights : Array Binary64)
  /-- Packed words, and the weights they mention. -/
  | compact (words : Array UInt32) (dictionary : Array Binary64) (packing : Packing)
deriving DecidableEq, Repr

namespace ColumnStorage

def size : ColumnStorage → Nat
  | plain cols _ => cols.size
  | compact words _ _ => words.size

def isCompact : ColumnStorage → Bool
  | plain .. => false
  | compact .. => true

def cell? : ColumnStorage → Nat → Option Cell
  | plain cols weights, j => do
    let dst ← cols[j]?
    let weight ← weights[j]?
    return ⟨dst.toNat, weight⟩
  | compact words dictionary packing, j => do
    let word ← words[j]?
    let weight ← dictionary[(packing.index word).toNat]?
    return ⟨(packing.destination word).toNat, weight⟩

/-- The destination of the entry at a position; the weight is not looked at. -/
def destination? : ColumnStorage → Nat → Option Nat
  | plain cols _, j => cols[j]?.map UInt32.toNat
  | compact words _ packing, j => words[j]?.map fun word => (packing.destination word).toNat

/-- The bytes taken by the entries: four for a destination or a packed word, eight for a weight. -/
def bytes : ColumnStorage → Nat
  | plain cols weights => cols.size * 4 + weights.size * 8
  | compact words dictionary _ => words.size * 4 + dictionary.size * 8

def fieldText : ColumnStorage → String
  | plain cols _ => Text.record "Plain" [("nnz", toString cols.size)]
  | compact words dictionary packing =>
    Text.record "Compact" [("nnz", toString words.size), ("dictionary", toString dictionary.size),
      ("shift", toString packing.shift)]

/-! ## Storing entries -/

/-- The plain form of the given entries. -/
def plainOf (cells : List Cell) : ColumnStorage :=
  .plain (cells.map fun c => UInt32.ofNat c.dst).toArray (cells.map Cell.weight).toArray

/-- The compact form of the given entries, whose weights have the given numbers in a dictionary. -/
def packedOf (cells : List Cell) (numbers : List UInt32) (dictionary : Dictionary)
    (packing : Packing) : ColumnStorage :=
  .compact (List.zipWith (fun c i => packing.encode (UInt32.ofNat c.dst) i) cells numbers).toArray
    dictionary.values packing

/-- The compact form of the given entries, if the fields fit next to destinations below
`numStates`. -/
def compactOf? (cells : List Cell) (numStates columnBits : Nat) : Traced (Option ColumnStorage) :=
  let (dictionary, numbers) := Dictionary.ofValues (cells.map Cell.weight)
  match dictionary.fit numStates columnBits with
  | .fits packing => do
    Traced.emit (.compacting dictionary.size packing.shift)
    return some (packedOf cells numbers dictionary packing)
  | .tooWide dictionaryBits stateBits columnBits => do
    Traced.emit (.compactionRefused dictionary.size dictionaryBits numStates stateBits columnBits)
    return none

/-- Stores the given entries, whose destinations are below `numStates`. -/
def ofCells (cells : List Cell) (numStates : Nat) (options : Options) : Traced ColumnStorage := do
  if options.compact then
    return (← compactOf? cells numStates options.columnBits).getD (plainOf cells)
  else
    return plainOf cells

end ColumnStorage

end TransitionMatrix
