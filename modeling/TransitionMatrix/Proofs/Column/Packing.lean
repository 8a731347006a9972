import TransitionMatrix.Column.Packing

/-!
# Packed entries can be read back

A word whose fields have room for a destination and a number gives both of them back. The word is
computed on machine words; as a natural number it is the destination times the size of the low field
plus the number, and everything else follows from that.
-/

namespace TransitionMatrix

namespace Packing

variable (p : Packing)

/-- The amount of the shift is a 32-bit word. -/
theorem toNat_shift : (UInt32.ofNat p.shift).toNat = p.shift := by
  have := p.shift_lt
  simp only [UInt32.toNat_ofNat']
  omega

theorem toNat_mask : p.mask.toNat = 2 ^ p.shift - 1 := by
  have hlt := p.shift_lt
  have hone : ((1 : UInt32) <<< UInt32.ofNat p.shift).toNat = 2 ^ p.shift := by
    have hpow : 2 ^ p.shift < 2 ^ 32 := Nat.pow_lt_pow_right (by omega) hlt
    rw [UInt32.toNat_shiftLeft, toNat_shift, Nat.mod_eq_of_lt hlt, Nat.shiftLeft_eq]
    simpa using Nat.mod_eq_of_lt hpow
  have hpos := Nat.two_pow_pos p.shift
  rw [mask, UInt32.toNat_sub_of_le _ _ (by rw [UInt32.le_iff_toNat_le, hone]; exact hpos), hone]
  rfl

variable {p} {destination index : UInt32}

/-- Fields that have room are next to each other in the word. -/
theorem toNat_encode (hd : destination.toNat < 2 ^ (32 - p.shift)) (hi : index.toNat < 2 ^ p.shift) :
    (p.encode destination index).toNat = destination.toNat * 2 ^ p.shift + index.toNat := by
  have hlt := p.shift_lt
  have hpow : 2 ^ (32 - p.shift) * 2 ^ p.shift = 2 ^ 32 := by
    rw [← Nat.pow_add]
    congr 1
    omega
  have hfield : destination.toNat * 2 ^ p.shift < 2 ^ 32 := by
    rw [← hpow]
    exact Nat.mul_lt_mul_of_pos_right hd (Nat.two_pow_pos _)
  rw [encode, UInt32.toNat_or, UInt32.toNat_shiftLeft, toNat_shift, Nat.mod_eq_of_lt hlt,
    Nat.shiftLeft_eq, Nat.mod_eq_of_lt hfield, ← Nat.shiftLeft_eq,
    ← Nat.shiftLeft_add_eq_or_of_lt hi, Nat.shiftLeft_eq]

/-- The fields of a word are the quotient and the remainder by the size of the low field. -/
theorem toNat_destination (p : Packing) (word : UInt32) :
    (p.destination word).toNat = word.toNat / 2 ^ p.shift := by
  rw [Packing.destination, UInt32.toNat_shiftRight, toNat_shift, Nat.mod_eq_of_lt p.shift_lt,
    Nat.shiftRight_eq_div_pow]

theorem toNat_index (p : Packing) (word : UInt32) :
    (p.index word).toNat = word.toNat % 2 ^ p.shift := by
  rw [Packing.index, UInt32.toNat_and, toNat_mask, Nat.and_two_pow_sub_one_eq_mod]

theorem destination_encode (hd : destination.toNat < 2 ^ (32 - p.shift))
    (hi : index.toNat < 2 ^ p.shift) :
    p.destination (p.encode destination index) = destination := by
  apply UInt32.toNat_inj.1
  rw [toNat_destination, toNat_encode hd hi, Nat.mul_comm, Nat.mul_add_div (Nat.two_pow_pos _),
    Nat.div_eq_of_lt hi, Nat.add_zero]

theorem index_encode (hd : destination.toNat < 2 ^ (32 - p.shift))
    (hi : index.toNat < 2 ^ p.shift) : p.index (p.encode destination index) = index := by
  apply UInt32.toNat_inj.1
  rw [toNat_index, toNat_encode hd hi, Nat.mul_comm, Nat.mul_add_mod, Nat.mod_eq_of_lt hi]

/-- A word is put together again from its fields, whatever it is. -/
theorem encode_fields (p : Packing) (word : UInt32) :
    p.encode (p.destination word) (p.index word) = word := by
  have hpow : 2 ^ (32 - p.shift) * 2 ^ p.shift = 2 ^ 32 := by
    rw [← Nat.pow_add, Nat.sub_add_cancel (Nat.le_of_lt p.shift_lt)]
  have hd : (p.destination word).toNat < 2 ^ (32 - p.shift) := by
    rw [toNat_destination, Nat.div_lt_iff_lt_mul (Nat.two_pow_pos _), hpow]
    exact word.toNat_lt
  have hi : (p.index word).toNat < 2 ^ p.shift := by
    rw [toNat_index]
    exact Nat.mod_lt _ (Nat.two_pow_pos _)
  apply UInt32.toNat_inj.1
  rw [toNat_encode hd hi, toNat_destination, toNat_index]
  exact Nat.div_add_mod' _ _

end Packing

namespace Fit

/-- When weights and destinations fit, each of the fields has room for all of them. -/
theorem room_of_fits {numStates numValues columnBits : Nat} {p : Packing}
    (h : of numStates numValues columnBits = .fits p) :
    p.shift < columnBits ∧ columnBits ≤ 32 ∧ numValues ≤ 2 ^ p.shift ∧
      numStates ≤ 2 ^ (columnBits - p.shift) := by
  simp only [of] at h
  split at h
  · rename_i hfit
    cases h
    have hstates := Nat.le_max_left (bitsFor numStates) 1
    have hone := Nat.le_max_right (bitsFor numStates) 1
    refine ⟨?_, hfit.1, bitsFor_le_iff.1 (Nat.le_max_left _ _), bitsFor_le_iff.1 ?_⟩
    · simp only
      omega
    · simp only
      omega
  · cases h

/-- Weights that fit have not run out of numbers. -/
theorem numValues_lt {numStates numValues columnBits : Nat} {p : Packing}
    (h : of numStates numValues columnBits = .fits p) : numValues < 2 ^ 32 :=
  Nat.lt_of_le_of_lt (room_of_fits h).2.2.1 (Nat.pow_lt_pow_right (by decide) p.shift_lt)

section Words

variable {numStates numValues columnBits : Nat} {p : Packing}
  (h : of numStates numValues columnBits = .fits p)

include h

/-- A destination is a 32-bit word that has room above the low field. -/
theorem toNat_dst {dst : Nat} (hdst : dst < numStates) :
    (UInt32.ofNat dst).toNat = dst ∧ (UInt32.ofNat dst).toNat < 2 ^ (32 - p.shift) := by
  obtain ⟨hlt, hbits, _, hstates⟩ := room_of_fits h
  have hhigh : 2 ^ (columnBits - p.shift) ≤ 2 ^ (32 - p.shift) :=
    Nat.pow_le_pow_right (by omega) (by omega)
  have hword : 2 ^ (32 - p.shift) ≤ 2 ^ 32 := Nat.pow_le_pow_right (by omega) (by omega)
  have heq : (UInt32.ofNat dst).toNat = dst :=
    UInt32.toNat_ofNat_of_lt' (show dst < 2 ^ 32 by omega)
  exact ⟨heq, by omega⟩

/-- The number of a weight is a 32-bit word that has room in the low field. -/
theorem toNat_number {number : Nat} (hnumber : number < numValues) :
    (UInt32.ofNat number).toNat = number ∧ (UInt32.ofNat number).toNat < 2 ^ p.shift := by
  obtain ⟨_, _, hvalues, _⟩ := room_of_fits h
  have hword : 2 ^ p.shift ≤ 2 ^ 32 :=
    Nat.pow_le_pow_right (by omega) (Nat.le_of_lt p.shift_lt)
  have heq : (UInt32.ofNat number).toNat = number :=
    UInt32.toNat_ofNat_of_lt' (show number < 2 ^ 32 by omega)
  exact ⟨heq, by omega⟩

end Words

end Fit

end TransitionMatrix
