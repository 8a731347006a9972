import TransitionMatrix.Variable

/-!
# Variable orders

One number, such as the encoding of a state, is carried by a sequence of variables with one bit
each, the first variable carrying the most significant bit. `VariableOrder.cube` writes a number
down as literals, and `VariableOrder.bit?` says which bit of the number a variable carries.
-/

namespace TransitionMatrix

/-- The variables that carry one number, most significant bit first. -/
structure VariableOrder where
  /-- The variables. A variable that occurs again carries its first bit only. -/
  vars : List Variable
deriving DecidableEq, Repr

namespace VariableOrder

/-- The order of the variables with the given numbers. -/
def ofIds (ids : List Nat) : Except Violation VariableOrder := do
  return ⟨← ids.mapM Variable.ofId⟩

def length (o : VariableOrder) : Nat := o.vars.length

def isEmpty (o : VariableOrder) : Bool := o.vars.isEmpty

/-- The first place of a variable in the order, counted from the most significant end. -/
def position? (o : VariableOrder) (v : Variable) : Option Nat := o.vars.idxOf? v

/-- The bit of the number that a variable carries, counted from the least significant end. -/
def bit? (o : VariableOrder) (v : Variable) : Option Nat :=
  (o.position? v).map fun p => o.length - 1 - p

/-- The literals that fix the given variables to the low bits of `n`. -/
def cubeOf (n : Nat) : List Variable → List Literal
  | [] => []
  | v :: rest => ⟨v, n.testBit rest.length⟩ :: cubeOf n rest

/-- The literals that fix the variables of the order to the bits of `n`. -/
def cube (o : VariableOrder) (n : Nat) : List Literal := cubeOf n o.vars

/-! ## First facts -/

theorem bit?_lt {o : VariableOrder} {v : Variable} {b : Nat} (h : o.bit? v = some b) :
    b < o.length := by
  obtain ⟨p, hp, rfl⟩ := Option.map_eq_some_iff.1 h
  have hlt : p < o.vars.length := by
    rw [position?, List.idxOf?_eq_some_iff] at hp
    exact hp.1
  unfold length
  omega

@[simp] theorem cube_map_var (o : VariableOrder) (n : Nat) :
    (o.cube n).map Literal.var = o.vars := by
  unfold cube
  induction o.vars with
  | nil => rfl
  | cons v rest ih => simp [cubeOf, ih]

end VariableOrder

end TransitionMatrix
