import TransitionMatrix.Options
import TransitionMatrix.Traced
import TransitionMatrix.Word

/-!
# Row lengths

The entries of all rows are stored one row after another, so the lengths of the rows say where each
of them begins. They are stored in one of two forms: a byte for each row, while no row is longer than
255, or the offset of each row and the total at the end.
-/

namespace TransitionMatrix

/-- The lengths of consecutive rows. -/
inductive RowExtents where
  /-- The length of each row. -/
  | counts (lengths : Array UInt8)
  /-- The offset of each row, and the total. -/
  | starts (offsets : Array Nat)
deriving DecidableEq, Repr

namespace RowExtents

/-- The longest row that fits in the form with counts. -/
def maxCount : Nat := 255

/-- The last one of the longest rows, and its length; `row` is the number of the first row. -/
def longestFrom (row : Nat) : List Nat → Option (Nat × Nat)
  | [] => none
  | length :: rest =>
    match longestFrom (row + 1) rest with
    | none => some (row, length)
    | some (other, l) => if length ≤ l then some (other, l) else some (row, length)

/-- The last one of the longest rows, and its length. -/
def longest? (lengths : List Nat) : Option (Nat × Nat) := longestFrom 0 lengths

/-- Whether the form with counts is to be used, for rows of which `longest` is a longest one. -/
def useCounts (longest : Option (Nat × Nat)) : RowEncoding → Except Error Bool
  | .starts => .ok false
  | .auto =>
    match longest with
    | none => .ok true
    | some (_, length) => .ok (decide (length ≤ maxCount))
  | .counts =>
    match longest with
    | none => .ok true
    | some (row, length) => if length ≤ maxCount then .ok true else .error (.rowTooLong row length)

/-- The offset of each row, the first one at `start`, and the total. -/
def offsetsFrom (start : Nat) : List Nat → List Nat
  | [] => [start]
  | length :: rest => start :: offsetsFrom (Word.add start length) rest

/-- The form with counts. Lengths above 255 do not fit in it. -/
def ofCounts (lengths : List Nat) : RowExtents := .counts (lengths.map UInt8.ofNat).toArray

/-- The form with offsets. -/
def ofStarts (lengths : List Nat) : RowExtents := .starts (offsetsFrom 0 lengths).toArray

/-- Stores row lengths in the form the encoding asks for. -/
def ofLengths (lengths : List Nat) (encoding : RowEncoding) : Traced RowExtents := do
  let longest := longest? lengths
  let counts ← useCounts longest encoding
  Traced.emit (.rowsEncoded lengths.length longest counts)
  return if counts then ofCounts lengths else ofStarts lengths

def numRows : RowExtents → Nat
  | counts lengths => lengths.size
  | starts offsets => offsets.size - 1

/-- Whether the lengths are stored as counts. -/
def usesCounts : RowExtents → Bool
  | counts _ => true
  | starts _ => false

/-- The offset of the first entry of a row, or of the end of the last row. It is a sum over the rows
before it when lengths are stored as counts. -/
def firstEntry? : RowExtents → Nat → Option Nat
  | counts lengths, row =>
    if row ≤ lengths.size then some (Word.sum 0 ((lengths.toList.take row).map UInt8.toNat))
    else none
  | starts offsets, row => offsets[row]?

/-- The bytes taken by the lengths: one for a count and eight for an offset. -/
def bytes : RowExtents → Nat
  | counts lengths => lengths.size
  | starts offsets => offsets.size * 8

/-- The form and its numbers. -/
def fieldText : RowExtents → String
  | counts lengths =>
    Text.tagged "Counts" (Text.sequence (lengths.toList.map fun n => toString n.toNat))
  | starts offsets => Text.tagged "Starts" (Text.sequence (offsets.toList.map toString))

/-! ## First facts -/

@[simp] theorem length_offsetsFrom (start : Nat) (lengths : List Nat) :
    (offsetsFrom start lengths).length = lengths.length + 1 := by
  induction lengths generalizing start with
  | nil => rfl
  | cons l rest ih => simp [offsetsFrom, ih]

/-- Lengths that fit in a byte come back from it. -/
theorem map_toNat_ofNat {lengths : List Nat} (h : ∀ l ∈ lengths, l ≤ maxCount) :
    lengths.map (UInt8.toNat ∘ UInt8.ofNat) = lengths := by
  refine (List.map_congr_left fun l hl => ?_).trans (List.map_id lengths)
  have hbound := h l hl
  simp [maxCount] at *
  omega

@[simp] theorem numRows_ofCounts (lengths : List Nat) :
    (ofCounts lengths).numRows = lengths.length := by simp [ofCounts, numRows]

@[simp] theorem numRows_ofStarts (lengths : List Nat) :
    (ofStarts lengths).numRows = lengths.length := by simp [ofStarts, numRows]

end RowExtents

end TransitionMatrix
