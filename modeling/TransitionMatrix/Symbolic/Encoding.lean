import TransitionMatrix.Options
import TransitionMatrix.Relation
import TransitionMatrix.StateSpace
import TransitionMatrix.Symbolic.BitPattern

/-!
# Encodings of models by variables

An encoding says which variables carry the source state of a transition, which ones the destination
and, in a nondeterministic model, which ones the choice. A cube then fixes bits of these three
numbers. A variable that occurs in several orders is read at its first place in the first of them;
a variable in none of them is an error.
-/

namespace TransitionMatrix

/-- The variables that carry a model's transitions, its state space, and how its matrices are to be
stored. -/
structure Encoding where
  /-- The variables of the source state. -/
  rows : VariableOrder
  /-- The variables of the destination. -/
  cols : VariableOrder
  /-- The variables of the choice, in a nondeterministic model. -/
  choices : Option VariableOrder
  /-- The reachable states. -/
  states : StateSpace
  /-- How matrices are to be stored. -/
  options : Options

/-- The three numbers that the variables of a cube carry. -/
inductive Component where
  | row
  | col
  | choice
deriving DecidableEq, Repr

/-- The bits that a cube fixes, in each of the three numbers. -/
structure CubePattern where
  row : BitPattern
  col : BitPattern
  choice : BitPattern
deriving DecidableEq, Repr

namespace CubePattern

/-- The pattern without fixed bits. -/
def free : CubePattern := ⟨.free, .free, .free⟩

/-- The pattern with one more fixed bit, unless that bit is fixed to the opposite value already. -/
def fix (p : CubePattern) (component : Component) (bit : Nat) (positive : Bool) :
    Option CubePattern :=
  match component with
  | .row => (p.row.fix bit positive).map fun row => { p with row }
  | .col => (p.col.fix bit positive).map fun col => { p with col }
  | .choice => (p.choice.fix bit positive).map fun choice => { p with choice }

end CubePattern

namespace Encoding

variable (e : Encoding)

/-- The number of bits of a choice. -/
def choiceWidth : Nat := (e.choices.map VariableOrder.length).getD 0

/-- Checks that states have the same number of bits everywhere, and choices at most 63. -/
def check : Except Error Unit :=
  if e.cols.length ≠ e.rows.length then
    .error (.orderingMismatch e.rows.length e.cols.length)
  else if e.states.numBits ≠ e.rows.length then
    .error (.orderingMismatch e.rows.length e.states.numBits)
  else if 63 < e.choiceWidth then .error (.orderingMismatch 63 e.choiceWidth)
  else .ok ()

/-- The number and the bit that a variable carries. -/
def locate? (v : Variable) : Option (Component × Nat) :=
  match e.rows.bit? v with
  | some bit => some (.row, bit)
  | none =>
    match e.cols.bit? v with
    | some bit => some (.col, bit)
    | none => (e.choices.bind fun order => order.bit? v).map fun bit => (.choice, bit)

/-- Fixes the bits of the given literals on top of those of a pattern. The first literal that is
unknown, or contradicts the bits fixed so far, decides; there is no pattern in the second case. -/
def restrict (p : CubePattern) : List Literal → Except Error (Option CubePattern)
  | [] => .ok (some p)
  | l :: rest =>
    match e.locate? l.var with
    | none => .error (.unknownVariable l.var)
    | some (component, bit) =>
      match p.fix component bit l.positive with
      | none => .ok none
      | some p => restrict p rest

/-- The bits that a cube fixes, or nothing if it fixes some bit to both values. -/
def patterns (cube : List Literal) : Except Error (Option CubePattern) := e.restrict .free cube

end Encoding

end TransitionMatrix
