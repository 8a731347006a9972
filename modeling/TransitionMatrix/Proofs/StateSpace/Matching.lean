import Mathlib.Data.List.Sort
import TransitionMatrix.Proofs.Symbolic.BitPattern
import TransitionMatrix.StateSpace

/-!
# States that agree with a pattern

The search for the states that agree with a pattern is narrowed to the range of indices that agree
with its leading fixed bits. As encodings are listed in increasing order, that range loses no state:
the search finds all states that agree, in the order of their indices.
-/

namespace TransitionMatrix

namespace Bisect

/-- In an increasing list, a condition that holds of smaller numbers too holds of the first ones. -/
theorem exists_boundary {xs : List Nat} (hxs : xs.Pairwise (· < ·)) {p : Nat → Bool}
    (hp : ∀ a b, a ≤ b → p b = true → p a = true) :
    ∃ n ≤ xs.length, ∀ i (hi : i < xs.length), p xs[i] = true ↔ i < n := by
  induction xs with
  | nil => exact ⟨0, Nat.le_refl 0, fun i hi => absurd hi (Nat.not_lt_zero i)⟩
  | cons x xs ih =>
    obtain ⟨hx, hxs⟩ := List.pairwise_cons.1 hxs
    cases hpx : p x with
    | true =>
      obtain ⟨n, hn, hspec⟩ := ih hxs
      refine ⟨n + 1, Nat.succ_le_succ hn, fun i hi => ?_⟩
      cases i with
      | zero => simp [hpx]
      | succ i => simpa using hspec i (by simpa using hi)
    | false =>
      refine ⟨0, Nat.zero_le _, fun i hi => ?_⟩
      have hfalse : p (x :: xs)[i] = false := by
        cases i with
        | zero => exact hpx
        | succ i =>
          have hi' : i < xs.length := by simpa using hi
          have hlt := hx xs[i] (List.getElem_mem hi')
          by_contra hne
          have htrue : p xs[i] = true := by simpa using hne
          rw [hp x xs[i] (Nat.le_of_lt hlt) htrue] at hpx
          cases hpx
      simp [hfalse]

section Increasing

variable {xs : Array Nat} (hxs : xs.toList.Pairwise (· < ·)) {p : Nat → Bool}
  (hp : ∀ a b, a ≤ b → p b = true → p a = true)

include hxs hp

theorem partitionPoint_le : partitionPoint xs p ≤ xs.size := by
  obtain ⟨n, hn, hspec⟩ := exists_boundary hxs hp
  rw [partitionPoint_eq (by simpa using hn) fun i hi => hspec i (by simpa using hi)]
  simpa using hn

theorem lt_partitionPoint_iff {i : Nat} (hi : i < xs.size) :
    i < partitionPoint xs p ↔ p xs[i] = true := by
  obtain ⟨n, hn, hspec⟩ := exists_boundary hxs hp
  rw [partitionPoint_eq (by simpa using hn) fun i hi => hspec i (by simpa using hi)]
  exact (hspec i (by simpa using hi)).symm

/-- A condition that holds more often holds of as many elements in front or more. -/
theorem partitionPoint_mono {q : Nat → Bool} (hq : ∀ a b, a ≤ b → q b = true → q a = true)
    (hpq : ∀ a, p a = true → q a = true) : partitionPoint xs p ≤ partitionPoint xs q := by
  by_contra hlt
  have hsize : partitionPoint xs q < xs.size :=
    Nat.lt_of_lt_of_le (Nat.lt_of_not_le hlt) (partitionPoint_le hxs hp)
  have hend := (lt_partitionPoint_iff hxs hp hsize).1 (Nat.lt_of_not_le hlt)
  exact Nat.lt_irrefl _ ((lt_partitionPoint_iff hxs hq hsize).2 (hpq _ hend))

end Increasing

end Bisect

namespace Span

/-- The positions of a range are those of a longer list that are between its ends. -/
theorem positions_eq_filter {s : Span} {n : Nat} (hs : s.hi ≤ n) :
    s.positions = (List.range n).filter fun i => s.lo ≤ i ∧ i < s.hi := by
  refine List.Pairwise.eq_of_mem_iff (List.pairwise_lt_range' ..)
    (List.Pairwise.filter _ List.pairwise_lt_range) fun i => ?_
  rw [mem_positions]
  simp only [List.mem_filter, List.mem_range, decide_eq_true_eq]
  omega

end Span

namespace StateSpace

variable (space : StateSpace)

/-- The state with the given index has the bits that the pattern fixes. -/
def agrees (p : BitPattern) (i : Nat) : Bool := (space.state? i).any fun s => p.Agrees s

variable {space}

theorem state?_lt {i s : Nat} (h : space.state? i = some s) : s < 2 ^ space.numBits :=
  space.lt_two_pow s (Array.mem_toList_iff.2 (Array.mem_of_getElem? h))

theorem lt_size_of_state? {i s : Nat} (h : space.state? i = some s) : i < space.size :=
  (Array.getElem?_eq_some_iff.1 h).1

/-! ## Leading fixed bits -/

theorem leadingOnes_le (n width : Nat) : leadingOnes n width ≤ width := by
  induction width with
  | zero => exact Nat.le_refl 0
  | succ width ih =>
    unfold leadingOnes
    split
    · omega
    · omega

theorem testBit_of_leadingOnes {m width b : Nat} (hlow : width - leadingOnes m width ≤ b)
    (hb : b < width) : m.testBit b = true := by
  induction width with
  | zero => exact absurd hb (Nat.not_lt_zero b)
  | succ width ih =>
    rw [leadingOnes] at hlow
    split at hlow
    · rename_i htop
      rcases Nat.lt_succ_iff_lt_or_eq.1 hb with hlt | rfl
      · exact ih (by omega) hlt
      · exact htop
    · omega

/-- States that have the fixed bits have the leading ones of them in front. -/
theorem shiftRight_eq {m value s width : Nat} (hs : s < 2 ^ width) (hvalue : value < 2 ^ width)
    (h : s &&& m = value &&& m) :
    s >>> (width - leadingOnes m width) = value >>> (width - leadingOnes m width) := by
  apply Nat.eq_of_testBit_eq
  intro b
  rw [Nat.testBit_shiftRight, Nat.testBit_shiftRight]
  by_cases hb : width - leadingOnes m width + b < width
  · have hm := testBit_of_leadingOnes (Nat.le_add_right _ b) hb
    have hbit := congrArg (fun x => x.testBit (width - leadingOnes m width + b)) h
    simpa [Nat.testBit_and, hm] using hbit
  · have hpow : 2 ^ width ≤ 2 ^ (width - leadingOnes m width + b) :=
      Nat.pow_le_pow_right (by omega) (by omega)
    rw [Nat.testBit_lt_two_pow (by omega), Nat.testBit_lt_two_pow (by omega)]

/-! ## Searching -/

theorem shiftRight_mono {a b : Nat} (h : a ≤ b) (shift : Nat) : a >>> shift ≤ b >>> shift := by
  rw [Nat.shiftRight_eq_div_pow, Nat.shiftRight_eq_div_pow]
  exact Nat.div_le_div_right h

theorem hi_agreeing_le (fixed value : Nat) : (space.agreeing fixed value).hi ≤ space.size := by
  rw [agreeing]
  split
  · exact Nat.le_refl _
  · refine Bisect.partitionPoint_le space.increasing fun a b hab hb => ?_
    have hshift := shiftRight_mono hab (space.numBits - fixed)
    rw [decide_eq_true_eq] at hb ⊢
    omega

theorem lo_agreeing_le_hi (fixed value : Nat) :
    (space.agreeing fixed value).lo ≤ (space.agreeing fixed value).hi := by
  unfold agreeing
  split
  · exact Nat.zero_le _
  · refine Bisect.partitionPoint_mono space.increasing (fun a b hab hb => ?_) (fun a b hab hb => ?_)
      fun a ha => ?_
    · have hshift := shiftRight_mono hab (space.numBits - fixed)
      rw [decide_eq_true_eq] at hb ⊢
      omega
    · have hshift := shiftRight_mono hab (space.numBits - fixed)
      rw [decide_eq_true_eq] at hb ⊢
      omega
    · rw [decide_eq_true_eq] at ha ⊢
      omega

/-- The range of indices has the states with the given leading bits. -/
theorem mem_agreeing {fixed value i s : Nat} (hfixed : fixed ≠ 0) (hi : space.state? i = some s) :
    ((space.agreeing fixed value).lo ≤ i ∧ i < (space.agreeing fixed value).hi) ↔
      s >>> (space.numBits - fixed) = value >>> (space.numBits - fixed) := by
  obtain ⟨hlt, rfl⟩ := Array.getElem?_eq_some_iff.1 hi
  rw [agreeing, if_neg hfixed, ← Nat.not_lt, Bisect.lt_partitionPoint_iff space.increasing _ hlt,
    Bisect.lt_partitionPoint_iff space.increasing _ hlt]
  · simp only [decide_eq_true_eq]
    omega
  · intro a b hab hb
    have hshift := shiftRight_mono hab (space.numBits - fixed)
    rw [decide_eq_true_eq] at hb ⊢
    omega
  · intro a b hab hb
    have hshift := shiftRight_mono hab (space.numBits - fixed)
    rw [decide_eq_true_eq] at hb ⊢
    omega

/-- The search loses no state, unless the value has bits that no state can have. -/
theorem matching_eq {mask value : Nat} (h : value < 2 ^ space.numBits ∨
      leadingOnes (mask % 2 ^ space.numBits) space.numBits = 0) :
    space.matching mask value = (List.range space.size).filterMap fun i =>
      (space.state? i).bind fun s =>
        if s &&& mask % 2 ^ space.numBits = value &&& mask % 2 ^ space.numBits then some (i, s)
        else none := by
  rw [matching]
  generalize mask % 2 ^ space.numBits = m at h ⊢
  rw [Span.positions_eq_filter (hi_agreeing_le _ _), List.filterMap_filter]
  refine List.filterMap_congr fun i hi => ?_
  split
  · rfl
  · rename_i hout
    cases hs : space.state? i with
    | none => rfl
    | some s =>
      have hne : ¬ s &&& m = value &&& m := by
        intro heq
        by_cases hfixed : leadingOnes m space.numBits = 0
        · rw [hfixed, agreeing, if_pos rfl] at hout
          simp at hi hout
          omega
        · have hvalue := h.resolve_right hfixed
          have hin := (mem_agreeing hfixed hs).2 (shiftRight_eq (state?_lt hs) hvalue heq)
          simp [hin] at hout
      rw [Option.bind_some, if_neg hne]

/-- The indices found for a pattern are those of the states that agree with it. -/
theorem map_fst_matching {p : BitPattern} (hp : p.Within space.numBits) :
    (space.matching p.mask p.value).map Prod.fst
      = (List.range space.size).filter (space.agrees p) := by
  have hvalue := hp.value_lt
  have hmask : p.mask % 2 ^ space.numBits = p.mask :=
    Nat.mod_eq_of_lt (BitPattern.within_iff.1 hp).2
  rw [matching_eq (Or.inl hvalue), hmask, List.map_filterMap, ← List.filterMap_eq_filter]
  refine List.filterMap_congr fun i _ => ?_
  rw [Option.guard, agrees]
  cases space.state? i with
  | none => rfl
  | some s =>
    by_cases hs : p.Agrees s
    · simp [hs, show s &&& p.mask = p.value &&& p.mask from hs]
    · simp [hs, show ¬ s &&& p.mask = p.value &&& p.mask from hs]

theorem mem_map_fst_matching {p : BitPattern} (hp : p.Within space.numBits) {i : Nat} :
    i ∈ (space.matching p.mask p.value).map Prod.fst ↔
      ∃ s, space.state? i = some s ∧ p.Agrees s := by
  rw [map_fst_matching hp, List.mem_filter, List.mem_range, agrees]
  constructor
  · rintro ⟨_, hany⟩
    obtain ⟨s, hs, hagrees⟩ := (Option.any_eq_true _ _).1 hany
    exact ⟨s, hs, by simpa using hagrees⟩
  · rintro ⟨s, hs, hagrees⟩
    refine ⟨lt_size_of_state? hs, ?_⟩
    rw [hs, Option.any_some, decide_eq_true hagrees]

end StateSpace

end TransitionMatrix
