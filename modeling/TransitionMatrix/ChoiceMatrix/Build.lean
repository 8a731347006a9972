import TransitionMatrix.ChoiceMatrix.Basic
import TransitionMatrix.Matrix.Build

/-!
# Building a matrix with choices

The number of choices of each state is given, or taken from the entries: a state then has as many
choices as its largest choice asks for. Choices without entries are empty rows. Once the choices are
grouped, the state and choice of an entry name a row, and the rows are built as those of any matrix.
-/

namespace TransitionMatrix

namespace ChoiceEntry

/-- What is wrong with an entry for the given numbers of choices: the state is looked at first, the
destination not at all. -/
def fault? (numChoices : Array Nat) (e : ChoiceEntry) : Option Error :=
  match numChoices[e.state]? with
  | none => some (.stateOutOfRange e.state numChoices.size)
  | some count =>
    if count ≤ e.choice then some (.choiceOutOfRange e.state e.choice count) else none

/-- A choice is numbered below this, so that the number of choices is a 64-bit number. -/
def choiceLimit : Nat := 2 ^ 64 - 1

/-- What keeps an entry from being counted among the choices of `n` states. -/
def countFault? (n : Nat) (e : ChoiceEntry) : Option Error :=
  if n ≤ e.state then some (.stateOutOfRange e.state n)
  else if choiceLimit ≤ e.choice then some (.choiceOutOfRange e.state e.choice choiceLimit)
  else none

/-- The number of choices of each of `n` states that the entries ask for. -/
def countChoices (n : Nat) (entries : List ChoiceEntry) : Array Nat :=
  entries.foldl (fun counts e => counts.modify e.state (max · (e.choice + 1)))
    (Array.replicate n 0)

/-- The entry in the row of its choice. -/
def toEntry (groupSpans : RowSpans) (e : ChoiceEntry) : Entry :=
  ⟨Word.add (((groupSpans.span? e.state).map Span.lo).getD 0) e.choice, e.dst, e.weight⟩

end ChoiceEntry

namespace ChoiceMatrix

/-- The matrix whose states have the given numbers of choices. -/
def ofGroups (numChoices : List Nat) (entries : List ChoiceEntry) (options : Options) :
    Traced ChoiceMatrix := do
  Error.raise (entries.findSome? (ChoiceEntry.fault? numChoices.toArray))
  let n := numChoices.length
  let total := Word.sum 0 numChoices
  Traced.emit (.choicesGrouped n total)
  let groups ← RowExtents.ofLengths numChoices options.rowEncoding
  let groupSpans := RowSpans.ofExtents groups
  groupSpans.check total
  let choices ← Matrix.rectangular total n (entries.map (ChoiceEntry.toEntry groupSpans)) options
  let m : ChoiceMatrix := ⟨n, choices, groups, groupSpans, none⟩
  Traced.emit (.choiceMatrixBuilt n m.numChoiceRows m.nonZeros m.kilobytes)
  return m

/-- The matrix of `n` states with the choices that the entries ask for. -/
def ofEntries (n : Nat) (entries : List ChoiceEntry) (options : Options) :
    Traced ChoiceMatrix := do
  Reservation.choiceCounts.request n
  Error.raise (entries.findSome? (ChoiceEntry.countFault? n))
  ofGroups (ChoiceEntry.countChoices n entries).toList entries options

end ChoiceMatrix

end TransitionMatrix
