import TransitionMatrix.Arithmetic
import TransitionMatrix.Runs
import TransitionMatrix.Violation
import TransitionMatrix.Text.Record

/-!
# Decision-diagram variables and literals

A relation is given over numbered variables. A literal is a variable together with the value it is
fixed to, and can be given and shown as a signed number: positive for true, negative for false.
-/

namespace TransitionMatrix

/-- A decision-diagram variable. -/
structure Variable where
  id : Nat
  /-- Numbers start at one: zero is kept for terminals. -/
  id_pos : 0 < id
deriving DecidableEq, Repr

/-- A variable fixed to a value. -/
structure Literal where
  var : Variable
  positive : Bool
deriving DecidableEq, Repr

namespace Variable

/-- The variable with the given number. -/
def ofId (id : Nat) : Except Violation Variable :=
  if h : 0 < id then .ok ⟨id, h⟩ else .error .zeroVariable

/-- The literal that fixes the variable to true. -/
def pos (v : Variable) : Literal := ⟨v, true⟩

/-- The literal that fixes the variable to false. -/
def neg (v : Variable) : Literal := ⟨v, false⟩

def text (v : Variable) : String := s!"x{v.id}"

end Variable

namespace Literal

/-- The literal a signed number stands for. -/
def ofSigned (n : Int) : Except Violation Literal :=
  if h : n = 0 then .error .zeroLiteral
  else .ok ⟨⟨n.natAbs, Int.natAbs_pos.2 h⟩, decide (0 < n)⟩

/-- The literal as a signed number: the variable's number, read as a 32-bit two's complement word,
with the sign of the literal. -/
def signed (l : Literal) : Int :=
  let number := Int.bmod l.var.id (2 ^ 32)
  if l.positive then number else -number

/-- The variable, with a tilde when it is fixed to false. -/
def text (l : Literal) : String := if l.positive then l.var.text else "~" ++ l.var.text

def fieldText (l : Literal) : String :=
  Text.record "Lit" [("var", Text.tagged "Var" (toString l.var.id)), ("positive", toString l.positive)]

/-- Literals are ordered by variable, the negative one first. -/
def le (a b : Literal) : Bool :=
  decide (a.var.id < b.var.id) || decide (a.var.id = b.var.id) && (!a.positive || b.positive)

/-- The distinct literals of a list in increasing order. -/
def sorted (literals : List Literal) : List Literal := Runs.firsts id (literals.mergeSort le)

end Literal

end TransitionMatrix
