import TransitionMatrix.Arithmetic

/-!
# Packed entries

A packed entry is a 32-bit word with two fields: the low `shift` bits hold the number of a weight in
a dictionary, the bits above them the destination. Each field has at least one bit, and `Fit.of`
says whether given numbers of weights and destinations can share the bits there are.
-/

namespace TransitionMatrix

/-- The number of bits that tell `n` values apart. -/
def bitsFor (n : Nat) : Nat := if n ≤ 1 then 0 else Nat.log2 (n - 1) + 1

/-- The division of a word into two fields. -/
structure Packing where
  /-- The bits of the low field. -/
  shift : Nat
  /-- The word has 32 bits, and some of them belong to the high field. -/
  shift_lt : shift < 32
deriving DecidableEq, Repr

namespace Packing

/-- The word whose low field has all bits set and whose high field has none. -/
def mask (p : Packing) : UInt32 := (1 <<< UInt32.ofNat p.shift) - 1

/-- The number of values of the low field. -/
def capacity (p : Packing) : Nat := 2 ^ p.shift

/-- The word with the given fields. Bits of the destination beyond its field are lost. -/
def encode (p : Packing) (destination index : UInt32) : UInt32 :=
  destination <<< UInt32.ofNat p.shift ||| index

def destination (p : Packing) (word : UInt32) : UInt32 := word >>> UInt32.ofNat p.shift

def index (p : Packing) (word : UInt32) : UInt32 := word &&& p.mask

end Packing

/-- Whether weights and destinations can share a packed entry. -/
inductive Fit where
  /-- They can, with the low field just wide enough for the weights. -/
  | fits (packing : Packing)
  /-- The two fields together need more bits than there are. -/
  | tooWide (dictionaryBits stateBits columnBits : Nat)
deriving DecidableEq, Repr

/-- The fit of `numValues` weights and `numStates` destinations in `columnBits` bits. -/
def Fit.of (numStates numValues columnBits : Nat) : Fit :=
  let dictionaryBits := max (bitsFor numValues) 1
  let stateBits := max (bitsFor numStates) 1
  if h : columnBits ≤ 32 ∧ dictionaryBits + stateBits ≤ columnBits then
    .fits ⟨dictionaryBits, by omega⟩
  else .tooWide dictionaryBits stateBits columnBits

/-- `n` values are told apart by `b` bits exactly when `b` is at least `bitsFor n`. -/
theorem bitsFor_le_iff {n b : Nat} : bitsFor n ≤ b ↔ n ≤ 2 ^ b := by
  unfold bitsFor
  split
  · have := Nat.two_pow_pos b
    omega
  · have h : n - 1 ≠ 0 := by omega
    rw [Nat.succ_le_iff, Nat.log2_lt h]
    omega

end TransitionMatrix
