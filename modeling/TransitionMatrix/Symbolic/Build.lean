import TransitionMatrix.ChoiceMatrix.Build
import TransitionMatrix.Symbolic.Numbering

/-!
# Matrices of a relation

A relation is expanded into transitions, and the transitions are stored in a matrix with one row for
each state or, in a nondeterministic model, for each choice. A reward matrix has the transitions of
one relation that also occur in another, with the weights of the other; the choices of its states are
those of the first relation, so that they have the same numbers in both matrices.
-/

namespace TransitionMatrix

namespace Transition

/-- The transition as an entry in the row of its source. -/
def toEntry (t : Transition) : Entry := ⟨t.src, t.dst, t.weight⟩

/-- The transition as an entry in the row of its choice, under a numbering that has it. -/
def toChoiceEntry? (numbering : ChoiceNumbering) (t : Transition) : Option ChoiceEntry :=
  (numbering.number? t.src t.choice).map fun number => ⟨t.src, number, t.dst, t.weight⟩

/-- The transitions that carry a reward, with the reward as weight. -/
def withRewards (transitions rewards : List Transition) : List Transition :=
  let values : Std.HashMap (Nat × Nat × Nat) Binary64 :=
    Std.HashMap.ofList (rewards.map fun r => (r.key, r.weight))
  transitions.filterMap fun t => (values[t.key]?).map fun weight => { t with weight }

end Transition

namespace Encoding

variable (e : Encoding)

/-- The transitions among the given ones that a relation gives a reward to. -/
def reward (transitions : List Transition) (rewards : Relation) : Traced (List Transition) := do
  let rewarded := Transition.withRewards transitions (← e.expand rewards)
  Traced.emit (.rewardsKept rewarded.length)
  return rewarded

/-- The matrix of transitions, whose choices are ignored. -/
def store (transitions : List Transition) : Traced Matrix := do
  if 0 < e.choiceWidth then Traced.emit .choicesMerged
  Matrix.ofEntries e.states.size (transitions.map Transition.toEntry) e.options

/-- The matrix of transitions whose choices are among those of `grouping`, where each state has the
choices that occur in `grouping`. -/
def storeChoices (grouping transitions : List Transition) : Traced ChoiceMatrix := do
  Reservation.transitions.request grouping.length
  let numbering := ChoiceNumbering.ofSorted grouping
  ChoiceMatrix.ofGroups (numbering.counts e.states.size)
    (transitions.filterMap (Transition.toChoiceEntry? numbering)) e.options

/-- The matrix of a relation. -/
def matrix (relation : Relation) : Traced Matrix := do
  e.store (← e.expand relation)

/-- The matrix of the rewards of a relation's transitions. -/
def rewardMatrix (relation rewards : Relation) : Traced Matrix := do
  let transitions ← e.expand relation
  e.store (← e.reward transitions rewards)

/-- The matrix with choices of a relation. -/
def choiceMatrix (relation : Relation) : Traced ChoiceMatrix := do
  let transitions ← e.expand relation
  e.storeChoices transitions transitions

/-- The matrix with choices of the rewards of a relation's transitions. A choice without rewards is
an empty row. -/
def rewardChoiceMatrix (relation rewards : Relation) : Traced ChoiceMatrix := do
  let transitions ← e.expand relation
  e.storeChoices transitions (← e.reward transitions rewards)

end Encoding

end TransitionMatrix
