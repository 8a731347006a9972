import TransitionMatrix.Error

/-!
# Build options

How a matrix is to be stored. None of it changes what the matrix answers.
-/

namespace TransitionMatrix

/-- How row lengths are to be stored. -/
inductive RowEncoding where
  /-- One byte for each row if every row fits, offsets otherwise. -/
  | auto
  /-- One byte for each row; a longer row is an error. -/
  | counts
  /-- The offset of each row. -/
  | starts
deriving DecidableEq, Repr

/-- How a matrix is to be stored. -/
structure Options where
  /-- Try to pack each entry into one word first. -/
  compact : Bool := true
  /-- The number of bits of a packed entry. -/
  columnBits : Nat := 32
  /-- How row lengths are to be stored. -/
  rowEncoding : RowEncoding := .auto
deriving DecidableEq, Repr

/-- Packed entries have at least 2 and at most 32 bits. -/
def Options.check (o : Options) : Except Error Unit :=
  if 2 ≤ o.columnBits ∧ o.columnBits ≤ 32 then .ok () else .error (.invalidColumnWidth o.columnBits)

theorem Options.check_eq_ok_iff {o : Options} :
    o.check = .ok () ↔ 2 ≤ o.columnBits ∧ o.columnBits ≤ 32 := by
  unfold check
  by_cases hwidth : 2 ≤ o.columnBits ∧ o.columnBits ≤ 32
  · simp [hwidth]
  · simp [hwidth]

theorem Options.check_eq_error_iff {o : Options} {e : Error} : o.check = .error e ↔
    ¬ (2 ≤ o.columnBits ∧ o.columnBits ≤ 32) ∧ e = .invalidColumnWidth o.columnBits := by
  unfold check
  by_cases hwidth : 2 ≤ o.columnBits ∧ o.columnBits ≤ 32
  · simp [hwidth]
  · simp [hwidth, eq_comm]

end TransitionMatrix
