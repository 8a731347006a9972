import Mathlib.Order.Bounds.Basic
import TransitionMatrix.Proofs.Column.Packing

/-!
# Sharing the bits of an entry

Weights and destinations fit into packed entries exactly if the bits of an entry can be divided into
two fields, with room for the numbers of the weights in one and for the destinations in the other.
The low field is then made as narrow as it can be, and words and pairs of fields stand for each other.
-/

namespace TransitionMatrix

namespace Fit

/-- The bits of an entry are divided into fields of `low` and `high` bits, at least one each, that
tell the weights and the destinations apart. -/
structure Room (numStates numValues columnBits low high : Nat) : Prop where
  one_le_low : 1 ≤ low
  one_le_high : 1 ≤ high
  low_add_high : low + high = columnBits
  numValues_le : numValues ≤ 2 ^ low
  numStates_le : numStates ≤ 2 ^ high

variable {numStates numValues columnBits low high : Nat} {p : Packing}

theorem Room.max_le_low (h : Room numStates numValues columnBits low high) :
    max (bitsFor numValues) 1 ≤ low :=
  Nat.max_le.2 ⟨bitsFor_le_iff.2 h.numValues_le, h.one_le_low⟩

theorem Room.max_add_max_le (h : Room numStates numValues columnBits low high) :
    max (bitsFor numValues) 1 + max (bitsFor numStates) 1 ≤ columnBits := by
  rw [← h.low_add_high]
  exact Nat.add_le_add h.max_le_low
    (Nat.max_le.2 ⟨bitsFor_le_iff.2 h.numStates_le, h.one_le_high⟩)

/-- If the two fields can be had at all, the narrowest low field leaves enough for the high one. -/
theorem exists_room_max (h : max (bitsFor numValues) 1 + max (bitsFor numStates) 1 ≤ columnBits) :
    ∃ high, Room numStates numValues columnBits (max (bitsFor numValues) 1) high := by
  have hstates : max (bitsFor numStates) 1 ≤ columnBits - max (bitsFor numValues) 1 := by omega
  obtain ⟨hbits, hone⟩ := Nat.max_le.1 hstates
  exact ⟨columnBits - max (bitsFor numValues) 1, Nat.le_max_right _ _, hone, by omega,
    bitsFor_le_iff.1 (Nat.le_max_left _ _), bitsFor_le_iff.1 hbits⟩

theorem isLeast_max (h : max (bitsFor numValues) 1 + max (bitsFor numStates) 1 ≤ columnBits) :
    IsLeast {low | ∃ high, Room numStates numValues columnBits low high}
      (max (bitsFor numValues) 1) := by
  refine ⟨exists_room_max h, ?_⟩
  rintro low ⟨high, hroom⟩
  exact hroom.max_le_low

/-- The fit, if there is one, has the narrowest low field that leaves enough bits for the high one. -/
theorem of_eq_fits_iff : of numStates numValues columnBits = .fits p ↔
    columnBits ≤ 32 ∧ IsLeast {low | ∃ high, Room numStates numValues columnBits low high} p.shift := by
  constructor
  · intro h
    simp only [of] at h
    split at h
    · rename_i hfit
      cases h
      exact ⟨hfit.1, isLeast_max hfit.2⟩
    · cases h
  · rintro ⟨hcolumn, hleast⟩
    obtain ⟨high, hroom⟩ := hleast.1
    have hshift : max (bitsFor numValues) 1 = p.shift :=
      (isLeast_max hroom.max_add_max_le).unique hleast
    obtain ⟨shift, hlt⟩ := p
    subst hshift
    exact dif_pos ⟨hcolumn, hroom.max_add_max_le⟩

theorem exists_of_eq_fits_iff : (∃ p, of numStates numValues columnBits = .fits p) ↔
    columnBits ≤ 32 ∧ ∃ low high, Room numStates numValues columnBits low high := by
  constructor
  · rintro ⟨p, h⟩
    obtain ⟨hcolumn, hleast⟩ := of_eq_fits_iff.1 h
    exact ⟨hcolumn, p.shift, hleast.1⟩
  · rintro ⟨hcolumn, low, high, hroom⟩
    exact ⟨_, dif_pos ⟨hcolumn, hroom.max_add_max_le⟩⟩

/-! ## Words -/

section Fields

variable (h : of numStates numValues columnBits = .fits p) {dst number : Nat}
  (hdst : dst < numStates) (hnumber : number < numValues)

include h hdst hnumber

/-- Neither of the fields loses bits. -/
theorem toNat_encode :
    (p.encode (UInt32.ofNat dst) (UInt32.ofNat number)).toNat = dst * 2 ^ p.shift + number := by
  obtain ⟨hd, hdroom⟩ := toNat_dst h hdst
  obtain ⟨hn, hnroom⟩ := toNat_number h hnumber
  rw [Packing.toNat_encode hdroom hnroom, hd, hn]

theorem toNat_destination_encode :
    (p.destination (p.encode (UInt32.ofNat dst) (UInt32.ofNat number))).toNat = dst := by
  obtain ⟨hd, hdroom⟩ := toNat_dst h hdst
  obtain ⟨_, hnroom⟩ := toNat_number h hnumber
  rw [Packing.destination_encode hdroom hnroom, hd]

theorem toNat_index_encode :
    (p.index (p.encode (UInt32.ofNat dst) (UInt32.ofNat number))).toNat = number := by
  obtain ⟨_, hdroom⟩ := toNat_dst h hdst
  obtain ⟨hn, hnroom⟩ := toNat_number h hnumber
  rw [Packing.index_encode hdroom hnroom, hn]

/-- A word takes no more bits than an entry has. -/
theorem encode_lt :
    (p.encode (UInt32.ofNat dst) (UInt32.ofNat number)).toNat < 2 ^ columnBits := by
  obtain ⟨hlt, _, _, hstates⟩ := room_of_fits h
  obtain ⟨hn, hnroom⟩ := toNat_number h hnumber
  rw [hn] at hnroom
  rw [toNat_encode h hdst hnumber]
  calc dst * 2 ^ p.shift + number
      < dst * 2 ^ p.shift + 2 ^ p.shift := Nat.add_lt_add_left hnroom _
    _ = (dst + 1) * 2 ^ p.shift := (Nat.succ_mul _ _).symm
    _ ≤ 2 ^ (columnBits - p.shift) * 2 ^ p.shift :=
        Nat.mul_le_mul_right _ (Nat.le_trans hdst hstates)
    _ = 2 ^ columnBits := by rw [← Nat.pow_add, Nat.sub_add_cancel (Nat.le_of_lt hlt)]

end Fields

/-- Weights and destinations fit exactly if the bits of an entry, at most 32, can be divided between
them, and the low field is then the narrowest that does it. Every destination and every number of a
weight come back from their word, which has no bits beyond those of an entry; and every word, whatever
it stands for, comes back from its fields. -/
theorem packing_of_fit (numStates numValues columnBits : Nat) :
    ((∃ p, of numStates numValues columnBits = .fits p) ↔
      columnBits ≤ 32 ∧ ∃ low high, Room numStates numValues columnBits low high) ∧
    ∀ p, of numStates numValues columnBits = .fits p →
      IsLeast {low | ∃ high, Room numStates numValues columnBits low high} p.shift ∧
      (∀ dst < numStates, ∀ number < numValues,
        (p.destination (p.encode (UInt32.ofNat dst) (UInt32.ofNat number))).toNat = dst ∧
        (p.index (p.encode (UInt32.ofNat dst) (UInt32.ofNat number))).toNat = number ∧
        (p.encode (UInt32.ofNat dst) (UInt32.ofNat number)).toNat < 2 ^ columnBits) ∧
      ∀ word, p.encode (p.destination word) (p.index word) = word := by
  refine ⟨exists_of_eq_fits_iff, fun p h => ⟨(of_eq_fits_iff.1 h).2, ?_, p.encode_fields⟩⟩
  intro dst hdst number hnumber
  exact ⟨toNat_destination_encode h hdst hnumber, toNat_index_encode h hdst hnumber,
    encode_lt h hdst hnumber⟩

/-- As many weights and destinations as two fields of 16 bits have room for: the word with the last of
both has all its bits set. -/
theorem packing_of_full_width :
    ∃ p, of (2 ^ 16) (2 ^ 16) 32 = .fits p ∧
      (p.destination (p.encode (UInt32.ofNat 65535) (UInt32.ofNat 65535))).toNat = 65535 ∧
      (p.index (p.encode (UInt32.ofNat 65535) (UInt32.ofNat 65535))).toNat = 65535 ∧
      (p.encode (UInt32.ofNat 65535) (UInt32.ofNat 65535)).toNat < 2 ^ 32 ∧
      p.encode (p.destination 0xffffffff) (p.index 0xffffffff) = 0xffffffff := by
  obtain ⟨hfits, hwords⟩ := packing_of_fit (2 ^ 16) (2 ^ 16) 32
  obtain ⟨p, hp⟩ := hfits.2
    ⟨by decide, 16, 16, by decide, by decide, by decide, by decide, by decide⟩
  obtain ⟨_, hround, hagain⟩ := hwords p hp
  obtain ⟨hdst, hnumber, hlt⟩ := hround 65535 (by decide) 65535 (by decide)
  exact ⟨p, hp, hdst, hnumber, hlt, hagain 0xffffffff⟩

end Fit

end TransitionMatrix
