import TransitionMatrix.Arithmetic

/-!
# Binary64 numbers as bit patterns

A transition weight is a binary64 number, and it is kept as its 64 bits: two weights are equal
exactly when their bits are. A NaN therefore equals itself, and the two zeros are different
weights. Whatever has to treat the zeros as one number goes through `Binary64.key`.

The fields of the pattern are read with natural-number arithmetic, so that statements about them
need no facts on floating-point operations; only `Binary64.mul` uses the machine's arithmetic.
-/

namespace TransitionMatrix

/-- A binary64 number, kept as its bit pattern. -/
structure Binary64 where
  /-- Sign, biased exponent and fraction, from the high end. -/
  bits : UInt64
deriving DecidableEq, Repr

namespace Binary64

def ofFloat (x : Float) : Binary64 := ⟨x.toBits⟩

def toFloat (w : Binary64) : Float := Float.ofBits w.bits

def zero : Binary64 := ⟨0⟩

def one : Binary64 := ⟨0x3ff0000000000000⟩

/-- The product as the machine rounds it. -/
def mul (v w : Binary64) : Binary64 := ofFloat (v.toFloat * w.toFloat)

/-! ## Fields of the pattern -/

def isNegative (w : Binary64) : Bool := decide (2 ^ 63 ≤ w.bits.toNat)

/-- The eleven exponent bits. -/
def biasedExponent (w : Binary64) : Nat := w.bits.toNat / 2 ^ 52 % 2 ^ 11

def fraction (w : Binary64) : Nat := w.bits.toNat % 2 ^ 52

def isZero (w : Binary64) : Bool := decide (w.bits.toNat % 2 ^ 63 = 0)

/-- Not a number: all exponent bits and some fraction bit are set. -/
def isNaN (w : Binary64) : Bool := decide (w.biasedExponent = 2047) && decide (w.fraction ≠ 0)

def isInfinite (w : Binary64) : Bool := decide (w.biasedExponent = 2047) && decide (w.fraction = 0)

/-- The integer `m` for which a finite number has the magnitude `m · 2 ^ exponent`. -/
def significand (w : Binary64) : Nat :=
  if w.biasedExponent = 0 then w.fraction else 2 ^ 52 + w.fraction

/-- The exponent that goes with `significand`; subnormal numbers share that of the smallest normal
ones. -/
def exponent (w : Binary64) : Int := (max w.biasedExponent 1 : Nat) - 1075

/-- The next smaller magnitude is only half as far away as the next larger one: the number is a
power of two, and not the smallest normal one. -/
def narrowBelow (w : Binary64) : Bool := decide (w.fraction = 0) && decide (1 < w.biasedExponent)

/-! ## Classes and integer values -/

/-- What weights are told apart by: the bits, with the two zeros merged. -/
def key (w : Binary64) : UInt64 := if w.isZero then 0 else w.bits

/-- The number as a natural number, when it is one. Both zeros are `0`; a fraction, a negative
number, an infinity and a NaN are none. -/
def toNat? (w : Binary64) : Option Nat :=
  if w.isZero then some 0
  else if w.isNegative || w.biasedExponent = 2047 then none
  else if 0 ≤ w.exponent then some (w.significand * 2 ^ w.exponent.toNat)
  else
    let scale := 2 ^ (-w.exponent).toNat
    if w.significand % scale = 0 then some (w.significand / scale) else none

/-! ## First facts -/

@[simp] theorem isZero_zero : zero.isZero = true := by decide

@[simp] theorem isZero_one : one.isZero = false := by decide

theorem key_of_isZero {w : Binary64} (h : w.isZero = true) : w.key = 0 := by simp [key, h]

theorem key_of_not_isZero {w : Binary64} (h : w.isZero = false) : w.key = w.bits := by
  simp [key, h]

/-- The key is zero for the two zeros only. -/
theorem key_eq_zero_iff {w : Binary64} : w.key = 0 ↔ w.isZero = true := by
  unfold key
  split
  · simp_all
  · rename_i h
    refine ⟨fun hb => absurd ?_ h, fun hz => absurd hz h⟩
    simp [isZero, hb]

/-- Two numbers have one key exactly when they have the same bits or are both zeros. -/
theorem key_eq_key_iff {v w : Binary64} :
    v.key = w.key ↔ v = w ∨ v.isZero = true ∧ w.isZero = true := by
  cases hv : v.isZero with
  | true =>
    rw [key_of_isZero hv, eq_comm, key_eq_zero_iff]
    constructor
    · intro hw; exact Or.inr ⟨rfl, hw⟩
    · rintro (rfl | ⟨_, hw⟩)
      · exact hv
      · exact hw
  | false =>
    cases hw : w.isZero with
    | true =>
      rw [key_of_isZero hw, key_eq_zero_iff, hv]
      constructor
      · intro h; cases h
      · rintro (rfl | ⟨h, _⟩)
        · rw [hv] at hw; exact hw
        · exact h
    | false =>
      rw [key_of_not_isZero hv, key_of_not_isZero hw]
      constructor
      · intro h; left; cases v; cases w; simp_all
      · rintro (rfl | ⟨h, _⟩)
        · rfl
        · cases h

end Binary64

end TransitionMatrix
