import TransitionMatrix.Symbolic.Completions
import TransitionMatrix.Symbolic.Encoding
import TransitionMatrix.Traced

/-!
# Expanding a relation into transitions

A path of a relation stands for every transition whose source, choice and destination agree with the
bits its cube fixes, between reachable states. Expanding a relation lists all of them, sorted by
source, choice and destination and without repetitions: where several paths have the same
transition, the first of them gives its weight.
-/

namespace TransitionMatrix

/-- A transition between two states, by index, with the encoding of the choice it belongs to. -/
structure Transition where
  src : Nat
  choice : Nat
  dst : Nat
  weight : Binary64
deriving DecidableEq, Repr

namespace Transition

/-- What tells transitions apart. -/
def key (t : Transition) : Nat × Nat × Nat := (t.src, t.choice, t.dst)

/-- Transitions are ordered by source, then by choice, then by destination. -/
def le (a b : Transition) : Bool :=
  decide (a.src < b.src) || decide (a.src = b.src) &&
    (decide (a.choice < b.choice) || decide (a.choice = b.choice) && decide (a.dst ≤ b.dst))

/-- The transitions in order, the first one of those with the same source, choice and
destination. -/
def distinct (transitions : List Transition) : List Transition :=
  Runs.firsts key (transitions.mergeSort le)

end Transition

namespace Encoding

variable (e : Encoding)

/-- The destinations that agree with a pattern. -/
def destinations (p : CubePattern) : List Nat :=
  (e.states.matching p.col.mask p.col.value).map Prod.fst

/-- The transitions that agree with a pattern, with the given destinations and weight. -/
def expandPattern (p : CubePattern) (destinations : List Nat) (weight : Binary64) :
    List Transition :=
  (e.states.matching p.row.mask p.row.value).flatMap fun (src, _) =>
    (p.choice.completions e.choiceWidth).flatMap fun choice =>
      destinations.map fun dst => ⟨src, choice, dst, weight⟩

/-- The transitions of each path, one path after the other. The destinations of a path are given as
a function of the bits it fixes. -/
def expandPaths (destinations : CubePattern → List Nat) : List Path → Traced (List Transition)
  | [] => return []
  | path :: rest => do
    match ← e.patterns path.cube with
    | none =>
      Traced.emit (.contradictoryPath path)
      expandPaths destinations rest
    | some p =>
      let later ← expandPaths destinations rest
      return e.expandPattern p (destinations p) path.value ++ later

/-- The transitions of a relation, sorted and without repetitions, with the destinations given as a
function of the bits a path fixes. -/
def expandTo (destinations : CubePattern → List Nat) (relation : Relation) :
    Traced (List Transition) := do
  e.check
  let transitions ← e.expandPaths destinations relation.paths
  let distinct := Transition.distinct transitions
  if distinct.length < transitions.length then
    Traced.emit (.overlapsDropped (transitions.length - distinct.length))
  return distinct

/-- The transitions of a relation, sorted and without repetitions. -/
def expand (relation : Relation) : Traced (List Transition) := e.expandTo e.destinations relation

/-- The sources and choices of a relation, sorted and without repetitions; all destinations are
reported as zero. -/
def expandChoices (relation : Relation) : Traced (List Transition) :=
  e.expandTo (fun _ => [0]) relation

end Encoding

end TransitionMatrix
