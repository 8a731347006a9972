import TransitionMatrix.Matrix.Query
import TransitionMatrix.Traced

/-!
# A place for the current matrix

A slot holds at most one matrix, and the last error of a build or a query. Building lets go of the
matrix first, so that a failed build leaves the slot empty. A matrix that was taken from the slot is
a value of its own and does not change with the slot.
-/

namespace TransitionMatrix

/-- A place for one matrix. -/
structure Slot where
  /-- The matrix. -/
  current : Option Matrix
  /-- The error of the latest build or query that failed. -/
  lastError : Option Error

namespace Slot

/-- The slot that nothing has happened to. -/
def empty : Slot := ⟨none, none⟩

/-- Whether the slot holds a matrix. -/
def isBuilt (s : Slot) : Bool := s.current.isSome

/-- The matrix in the slot. Asking for it in vain is not recorded as an error. -/
def current? (s : Slot) : Except Error Matrix := s.current.elim (.error .noMatrix) .ok

/-- The slot after a result: an error is recorded, and anything else changes nothing. -/
def record {α : Type} (s : Slot) : Except Error α → Slot
  | .ok _ => s
  | .error e => { s with lastError := some e }

/-- The slot without its matrix, and what there is to report. -/
def release (s : Slot) : Slot × List Event :=
  ({ s with current := none }, if s.isBuilt then [.slotReleased] else [])

/-- The slot with a matrix in place of its own, and what there is to report. -/
def install (s : Slot) (m : Matrix) : Slot × List Event :=
  ({ s with current := some m }, if s.isBuilt then [.slotReplaced] else [])

/-- Lets go of the matrix, then builds another one and installs it; and the slot after that. -/
def build (s : Slot) (make : Traced Matrix) : Slot × Traced Matrix :=
  let (s, released) := s.release
  match make.result with
  | .ok m =>
    let (s, installed) := s.install m
    (s, ⟨released ++ make.log ++ installed, .ok m⟩)
  | .error e => (s.record make.result, ⟨released ++ make.log ++ [.slotBuildFailed e], .error e⟩)

/-- Asks something of the matrix in the slot; and the slot after that. -/
def ask {α : Type} (s : Slot) (query : Matrix → Except Error α) : Slot × Except Error α :=
  let answer := s.current?.bind query
  (s.record answer, answer)

end Slot

end TransitionMatrix
