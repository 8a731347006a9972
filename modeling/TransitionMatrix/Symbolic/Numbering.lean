import Std.Data.HashMap
import TransitionMatrix.Symbolic.Expansion

/-!
# Numbering the choices of a state

The choices of a state are encoded by numbers that need not be consecutive. In a matrix they are
numbered from zero, in the order of their encodings.
-/

namespace TransitionMatrix

/-- The numbers of the choices of each state. -/
structure ChoiceNumbering where
  /-- The number of a choice, by its state and its encoding. -/
  numbers : Std.HashMap (Nat × Nat) Nat

namespace ChoiceNumbering

/-- Numbers the choices of sorted transitions that follow a transition of the choice `last`, whose
number is `number`. -/
def numberFrom (last : Option (Nat × Nat)) (number : Nat) :
    List Transition → List ((Nat × Nat) × Nat)
  | [] => []
  | t :: rest =>
    if last = some (t.src, t.choice) then numberFrom last number rest
    else
      let number := if last.map Prod.fst = some t.src then number + 1 else 0
      ((t.src, t.choice), number) :: numberFrom (some (t.src, t.choice)) number rest

/-- The numbering of the choices that occur in sorted transitions. -/
def ofSorted (transitions : List Transition) : ChoiceNumbering :=
  ⟨Std.HashMap.ofList (numberFrom none 0 transitions)⟩

/-- The number of a choice. -/
def number? (n : ChoiceNumbering) (state choice : Nat) : Option Nat := n.numbers[(state, choice)]?

/-- The number of choices of each of `numStates` states. -/
def counts (n : ChoiceNumbering) (numStates : Nat) : List Nat :=
  (n.numbers.fold (fun counts choice number => counts.modify choice.1 (max · (number + 1)))
    (Array.replicate numStates 0)).toList

end ChoiceNumbering

end TransitionMatrix
