import TransitionMatrix.Binary64.Text
import TransitionMatrix.Variable
import TransitionMatrix.Word

/-!
# Errors

Everything that can go wrong while a matrix is built, queried or exported. A compact form that does
not fit is no error (the plain form takes its place), and neither is a transition that is not there.
-/

namespace TransitionMatrix

/-- Why a file cannot be created. -/
inductive FileFault where
  /-- A folder on the way, or the name itself, is missing. -/
  | notFound
  /-- The name is that of a folder. -/
  | isDirectory
  /-- Something on the way is a file. -/
  | notDirectory
deriving DecidableEq, Repr

/-- The fault in words, with its number. -/
def FileFault.message : FileFault → String
  | notFound => "No such file or directory (os error 2)"
  | isDirectory => "Is a directory (os error 21)"
  | notDirectory => "Not a directory (os error 20)"

/-- The arrays that are asked for. No other array is longer than the longest of them. -/
inductive Reservation where
  /-- One length for each row. -/
  | rowLengths
  /-- One number for each entry. -/
  | rowOrder
  /-- One number of choices for each state. -/
  | choiceCounts
  /-- The transitions whose choices are numbered. -/
  | transitions
deriving DecidableEq, Repr

def Reservation.text : Reservation → String
  | rowLengths => "row lengths"
  | rowOrder => "row order"
  | choiceCounts => "choice counts"
  | transitions => "transitions"

/-- What goes wrong while a matrix is built, queried or exported. -/
inductive Error where
  /-- An array of the given length cannot be had. -/
  | outOfMemory (what : Reservation) (requested : Nat)
  /-- The slot holds no matrix. -/
  | noMatrix
  /-- There is no such row or state. -/
  | stateOutOfRange (state numStates : Nat)
  /-- The state has no such choice. -/
  | choiceOutOfRange (state choice numChoices : Nat)
  /-- Counts were asked for, and a row is too long for one byte. -/
  | rowTooLong (row length : Nat)
  /-- The last row does not end at the number of non-zeros. -/
  | inconsistentIndex (expected found : Nat)
  /-- A path mentions a variable of no order. -/
  | unknownVariable (v : Variable)
  /-- Packed entries have at least 2 and at most 32 bits. -/
  | invalidColumnWidth (bits : Nat)
  /-- An action label is not a positive 32-bit number. -/
  | invalidActionLabel (value : Binary64)
  /-- Destinations would not fit in 32 bits. -/
  | tooManyStates (n : Nat)
  /-- Two orders, or an order and the state space, differ in their number of bits. -/
  | orderingMismatch (expected found : Nat)
  /-- The file cannot be written. -/
  | exportFailed (fault : FileFault)
  /-- An array of the given size has no such position. -/
  | outOfBounds (position size : Nat)
deriving DecidableEq, Repr

namespace Error

def message : Error → String
  | outOfMemory what requested =>
    s!"out of memory while allocating {what.text} ({requested} elements)"
  | noMatrix => "no sparse matrix has been built"
  | stateOutOfRange state numStates =>
    s!"state {state} is out of range (matrix has {numStates} states)"
  | choiceOutOfRange state choice numChoices =>
    s!"choice {choice} is out of range (state {state} has {numChoices} choices)"
  | rowTooLong row length =>
    s!"row {row} has {length} entries, too many for the counts encoding"
  | inconsistentIndex expected found =>
    s!"inconsistent row index: expected {expected} non-zeros, found {found}"
  | unknownVariable v =>
    s!"relation mentions variable {v.text} outside of the given orderings"
  | invalidColumnWidth bits => s!"column width must be in the range 2..=32, got {bits}"
  | invalidActionLabel value => s!"invalid action label value {value.text}"
  | tooManyStates n => s!"{n} states do not fit into 32-bit column indices"
  | orderingMismatch expected found =>
    s!"orderings disagree: expected {expected} variables, found {found}"
  | exportFailed fault => s!"export failed: {fault.message}"
  | outOfBounds position size =>
    s!"index out of bounds: the len is {size} but the index is {position}"

/-- Fails with the error that was found, if any. -/
def raise : Option Error → Except Error Unit
  | none => .ok ()
  | some e => .error e

theorem raise_eq_ok_iff {found : Option Error} : raise found = .ok () ↔ found = none := by
  cases found <;> simp [raise]

theorem raise_eq_error_iff {found : Option Error} {e : Error} :
    raise found = .error e ↔ found = some e := by
  cases found <;> simp [raise]

end Error

/-- The length from which on an array cannot be had. -/
def Reservation.limit : Nat := 2 ^ 50

/-- Asks for an array of the given length. -/
def Reservation.request (what : Reservation) (length : Nat) : Except Error Unit :=
  if length < limit then .ok () else .error (.outOfMemory what length)

namespace Reservation

variable {what : Reservation} {length : Nat}

theorem request_eq_ok_iff : what.request length = .ok () ↔ length < limit := by
  unfold request
  by_cases hlt : length < limit
  · simp [hlt]
  · simp [hlt]

/-- The length of an array that can be had is a word. -/
theorem lt_size_of_lt_limit (h : length < limit) : length < Word.size := by
  have hlimit : limit < Word.size := by decide
  omega

theorem request_eq_error_iff {e : Error} :
    what.request length = .error e ↔ limit ≤ length ∧ e = .outOfMemory what length := by
  rw [← Nat.not_lt]
  unfold request
  by_cases hlt : length < limit
  · simp [hlt]
  · simp [hlt, eq_comm]

end Reservation

end TransitionMatrix
