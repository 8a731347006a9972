import Std.Data.HashMap
import TransitionMatrix.Column.Packing
import TransitionMatrix.Binary64

/-!
# Weight dictionaries

A dictionary numbers distinct weights in the order in which they are first seen. Weights are told
apart by their bits, except that the two zeros count as one weight, so a weight read back from the
dictionary is the one that was inserted, up to the sign of a zero.

The numbers are 32-bit words, the width of a packed entry. They run out after `2 ^ 32` weights. More
weights are kept, but then a number no longer says which weight is meant; so many weights fit in no
packed entry.
-/

namespace TransitionMatrix

/-- Distinct weights, numbered in the order in which they were first seen. -/
structure Dictionary where
  values : Array Binary64
  /-- The number of each weight, by its key. -/
  numbers : Std.HashMap UInt64 UInt32

namespace Dictionary

def empty : Dictionary := ⟨#[], ∅⟩

/-- The number of a weight, and the dictionary in which it has that number. The next number is the
low word of the number of weights, and a weight is new if that is the number it gets. -/
def insert (d : Dictionary) (w : Binary64) : Dictionary × UInt32 :=
  let next := UInt32.ofNat d.values.size
  let number := d.numbers.getD w.key next
  (⟨if number = next then d.values.push w else d.values, d.numbers.insertIfNew w.key next⟩, number)

/-- The numbers of the given weights, and the dictionary in which they have them. -/
def insertAll (d : Dictionary) : List Binary64 → Dictionary × List UInt32
  | [] => (d, [])
  | w :: rest =>
    let (d, i) := d.insert w
    let (d, is) := d.insertAll rest
    (d, i :: is)

/-- The dictionary of the given weights, and their numbers in it. -/
def ofValues (weights : List Binary64) : Dictionary × List UInt32 := empty.insertAll weights

def get? (d : Dictionary) (i : Nat) : Option Binary64 := d.values[i]?

/-- The number of a weight, if it is in the dictionary. -/
def indexOf? (d : Dictionary) (w : Binary64) : Option UInt32 := d.numbers[w.key]?

def size (d : Dictionary) : Nat := d.values.size

/-- Whether the dictionary's weights can share packed entries with `numStates` destinations. -/
def fit (d : Dictionary) (numStates columnBits : Nat) : Fit := .of numStates d.size columnBits

end Dictionary

end TransitionMatrix
