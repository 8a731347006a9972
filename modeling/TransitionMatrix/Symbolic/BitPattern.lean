import TransitionMatrix.Arithmetic

/-!
# Partly fixed bit vectors

A bit pattern fixes some bits of a number and leaves the others free. The literals of a cube are
gathered into patterns, one for each number that the cube's variables carry.
-/

namespace TransitionMatrix

/-- Some bits of a number, fixed. -/
structure BitPattern where
  /-- The number whose ones are the fixed bits. -/
  mask : Nat
  /-- The fixed bits that are ones. -/
  value : Nat
deriving DecidableEq, Repr

namespace BitPattern

/-- The pattern without fixed bits. -/
def free : BitPattern := ⟨0, 0⟩

/-- The pattern with one more fixed bit, unless that bit is fixed to the opposite value already. -/
def fix (p : BitPattern) (bit : Nat) (positive : Bool) : Option BitPattern :=
  if p.mask.testBit bit then
    if p.value.testBit bit = positive then some p else none
  else some ⟨p.mask ||| 2 ^ bit, if positive then p.value ||| 2 ^ bit else p.value⟩

end BitPattern

end TransitionMatrix
