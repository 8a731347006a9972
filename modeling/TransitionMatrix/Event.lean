import TransitionMatrix.Error
import TransitionMatrix.Memory
import TransitionMatrix.Relation

/-!
# Log events

What happens on the way to a result is kept as a list of events. Each event is a constructor with
the facts it reports; its level and its wording are functions of it.
-/

namespace TransitionMatrix

/-- How much attention an event asks for. -/
inductive Level where
  | error
  /-- Something may not be what was meant. -/
  | warning
  | info
  /-- A step on the way to a result. -/
  | debug
deriving DecidableEq, Repr

def Level.text : Level → String
  | error => "ERROR"
  | warning => "WARN"
  | info => "INFO"
  | debug => "DEBUG"

/-- Something that happened on the way to a result. -/
inductive Event where
  /-- Row lengths were encoded; `longest` is a longest row and its length. -/
  | rowsEncoded (rows : Nat) (longest : Option (Nat × Nat)) (counts : Bool)
  /-- The distinct weights and the destinations do not fit in a packed entry together. -/
  | compactionRefused (distinct dictionaryBits states stateBits columnBits : Nat)
  | compacting (distinct shift : Nat)
  | matrixBuilt (rows nonZeros : Nat) (compact counts : Bool) (kilobytes : Float)
  /-- The shape of a matrix with choices is known. -/
  | choicesGrouped (states choiceRows : Nat)
  | choiceMatrixBuilt (states choices nonZeros : Nat) (kilobytes : Float)
  | labelsAttached (labelled choiceRows : Nat)
  /-- A path fixes some bit to both values. -/
  | contradictoryPath (path : Path)
  /-- Some transitions were on more than one path. -/
  | overlapsDropped (count : Nat)
  /-- Transitions that carry a reward were kept. -/
  | rewardsKept (count : Nat)
  /-- Choices are ignored in the matrix that follows. -/
  | choicesMerged
  /-- An action is given for a choice that is not there. -/
  | labelWithoutChoice (choice state : Nat) (action : Binary64)
  /-- The slot's matrix made room for another. -/
  | slotReplaced
  /-- The slot's matrix was let go. -/
  | slotReleased
  /-- No matrix could be built for the slot. -/
  | slotBuildFailed (cause : Error)
  | exporting (file : String)
  | exported (line : String)

namespace Event

def level : Event → Level
  | matrixBuilt .. | choiceMatrixBuilt .. | exported _ => .info
  | overlapsDropped _ | choicesMerged => .warning
  | slotBuildFailed _ => .error
  | _ => .debug

/-- A longest row and its length, or none. -/
def longestText : Option (Nat × Nat) → String
  | none => "None"
  | some (row, length) => Text.tagged "Some" (s!"({row}, {length})")

def message : Event → String
  | rowsEncoded rows longest counts =>
    s!"row lengths: {rows} rows, longest {longestText longest}, using " ++
      (if counts then "counts" else "starts")
  | compactionRefused distinct dictionaryBits states stateBits columnBits =>
    s!"cannot compact: {distinct} distinct values ({dictionaryBits} bits) and {states} states " ++
      s!"({stateBits} bits) exceed {columnBits} bits"
  | compacting distinct shift => s!"compacting: {distinct} distinct values, shift = {shift}"
  | matrixBuilt rows nonZeros compact counts kilobytes =>
    s!"Sparse matrix: {rows} rows, {nonZeros} non-zeros, compact = {compact}, " ++
      s!"counts = {counts} [{Memory.text kilobytes}]"
  | choicesGrouped states choiceRows =>
    s!"nondeterministic matrix: {states} states, {choiceRows} choice-rows"
  | choiceMatrixBuilt states choices nonZeros kilobytes =>
    s!"ND sparse matrix: {states} states, {choices} choices, {nonZeros} non-zeros " ++
      s!"[{Memory.text kilobytes}]"
  | labelsAttached labelled choiceRows =>
    s!"attached {labelled} action labels to {choiceRows} choice-rows"
  | contradictoryPath path => s!"skipping contradictory path {path.text}"
  | overlapsDropped count => s!"{count} entries covered by more than one path were dropped"
  | rewardsKept count => s!"sub-matrix keeps {count} rewarded entries"
  | choicesMerged => "building a deterministic matrix; choices are merged per state"
  | labelWithoutChoice choice state action =>
    s!"no choice {choice} in state {state} for action {action.text}"
  | slotReplaced => "replaced current sparse matrix"
  | slotReleased => "released current sparse matrix"
  | slotBuildFailed cause => s!"sparse matrix construction failed: {cause.message}"
  | exporting file => s!"exporting to {file}"
  | exported line => line

end Event

end TransitionMatrix
