import TransitionMatrix.Row.Extents
import TransitionMatrix.Span

/-!
# Row boundaries

`RowSpans` holds for each row where its entries begin and where they end, so that a row is found
without a sum. It is worked out once from the stored row lengths, and both stored forms of the same
lengths give the same boundaries.
-/

namespace TransitionMatrix

/-- The boundaries of consecutive rows. -/
structure RowSpans where
  /-- The boundaries of each row. -/
  spans : Array Span
deriving DecidableEq, Repr

namespace RowSpans

/-- Consecutive spans of the given lengths, the first one at `start`. -/
def consecutive (start : Nat) : List Nat → List Span
  | [] => []
  | length :: rest => ⟨start, Word.add start length⟩ :: consecutive (Word.add start length) rest

/-- The spans between neighbouring offsets. -/
def between (offsets : List Nat) : List Span := List.zipWith Span.mk offsets offsets.tail

/-- The boundaries of the rows with the stored lengths. -/
def ofExtents : RowExtents → RowSpans
  | .counts lengths => ⟨(consecutive 0 (lengths.toList.map UInt8.toNat)).toArray⟩
  | .starts offsets => ⟨(between offsets.toList).toArray⟩

def numRows (i : RowSpans) : Nat := i.spans.size

def span? (i : RowSpans) (row : Nat) : Option Span := i.spans[row]?

def lo (i : RowSpans) : List Nat := i.spans.toList.map Span.lo

def hi (i : RowSpans) : List Nat := i.spans.toList.map Span.hi

/-- Where the last row ends. -/
def total (i : RowSpans) : Nat := i.hi.getLast?.getD 0

/-- Checks that the last row ends at the number of stored entries. -/
def check (i : RowSpans) (expected : Nat) : Except Error Unit :=
  if i.total = expected then .ok () else .error (.inconsistentIndex expected i.total)

/-- The bytes taken by the boundaries: sixteen for each row. -/
def bytes (i : RowSpans) : Nat := 16 * i.spans.size

/-! ## Both forms of the same lengths have the same boundaries -/

@[simp] theorem length_consecutive (start : Nat) (lengths : List Nat) :
    (consecutive start lengths).length = lengths.length := by
  induction lengths generalizing start with
  | nil => rfl
  | cons l rest ih => simp [consecutive, ih]

theorem between_offsetsFrom (start : Nat) (lengths : List Nat) :
    between (RowExtents.offsetsFrom start lengths) = consecutive start lengths := by
  induction lengths generalizing start with
  | nil => rfl
  | cons l rest ih =>
    have h := ih (Word.add start l)
    cases rest <;> simp_all [RowExtents.offsetsFrom, consecutive, between]

theorem ofExtents_ofStarts (lengths : List Nat) :
    ofExtents (.ofStarts lengths) = ⟨(consecutive 0 lengths).toArray⟩ := by
  simp [ofExtents, RowExtents.ofStarts, between_offsetsFrom]

theorem ofExtents_ofCounts {lengths : List Nat} (h : ∀ l ∈ lengths, l ≤ RowExtents.maxCount) :
    ofExtents (.ofCounts lengths) = ⟨(consecutive 0 lengths).toArray⟩ := by
  simp [ofExtents, RowExtents.ofCounts, RowExtents.map_toNat_ofNat h]

end RowSpans

end TransitionMatrix
