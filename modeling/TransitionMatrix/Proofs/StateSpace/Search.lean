import TransitionMatrix.Proofs.StateSpace.Matching

/-!
# Searching for arbitrary bits

A search may be asked for bits that no state has. Bits of the mask beyond those of an encoding are
left out. Bits of the value beyond them are not, when the search starts from the first bit of the
encodings: then nothing is found. In all other cases the search finds what looking at every state
would find.
-/

namespace TransitionMatrix

namespace StateSpace

variable {space : StateSpace} {mask value : Nat}

/-- The states in the order of their indices, as pairs of index and encoding. -/
def indexed (space : StateSpace) : List (Nat × Nat) :=
  (List.range space.size).filterMap fun i => (space.state? i).map fun s => (i, s)

/-- The first bit of the encodings is among those of the mask. -/
def FixesFirst (space : StateSpace) (mask : Nat) : Prop :=
  0 < space.numBits ∧ mask.testBit (space.numBits - 1) = true

theorem mem_indexed {i s : Nat} : (i, s) ∈ space.indexed ↔ space.state? i = some s := by
  simp only [indexed, List.mem_filterMap, List.mem_range, Option.map_eq_some_iff]
  constructor
  · rintro ⟨j, _, t, ht, heq⟩
    cases heq
    exact ht
  · intro hs
    exact ⟨i, lt_size_of_state? hs, s, hs, rfl⟩

theorem pairwise_indexed (space : StateSpace) : space.indexed.Pairwise fun a b => a.1 < b.1 := by
  refine List.Pairwise.filterMap _ (fun i j hij a ha b hb => ?_) List.pairwise_lt_range
  obtain ⟨s, _, rfl⟩ := Option.map_eq_some_iff.1 ha
  obtain ⟨t, _, rfl⟩ := Option.map_eq_some_iff.1 hb
  exact hij

/-- The search starts from the first bits unless the very first is left free. -/
theorem leadingOnes_eq_zero_iff :
    leadingOnes (mask % 2 ^ space.numBits) space.numBits = 0 ↔ ¬ space.FixesFirst mask := by
  unfold FixesFirst
  cases space.numBits with
  | zero => simp [leadingOnes]
  | succ width =>
    rw [leadingOnes, Nat.testBit_mod_two_pow, decide_eq_true (Nat.lt_succ_self width),
      Bool.true_and, Nat.add_sub_cancel]
    split
    · rename_i htop
      simp [htop]
    · rename_i htop
      simp [htop]

theorem matching_eq_filter (h : value < 2 ^ space.numBits ∨ ¬ space.FixesFirst mask) :
    space.matching mask value = space.indexed.filter fun at_ =>
      at_.2 &&& mask % 2 ^ space.numBits = value &&& mask % 2 ^ space.numBits := by
  rw [matching_eq (h.imp_right leadingOnes_eq_zero_iff.2), indexed, List.filter_filterMap]
  refine List.filterMap_congr fun i _ => ?_
  cases space.state? i with
  | none => rfl
  | some s => simp [Option.filter]

/-- A number with a bit beyond the encodings differs from every state in its first bits. -/
theorem shiftRight_lt {s shift width : Nat} (hs : s < 2 ^ width) (hvalue : 2 ^ width ≤ value)
    (hshift : shift ≤ width) : s >>> shift < value >>> shift := by
  have hpow : 2 ^ width = 2 ^ (width - shift) * 2 ^ shift := by
    rw [← Nat.pow_add, Nat.sub_add_cancel hshift]
  have hpos := Nat.two_pow_pos shift
  rw [Nat.shiftRight_eq_div_pow, Nat.shiftRight_eq_div_pow]
  calc s / 2 ^ shift < 2 ^ (width - shift) := (Nat.div_lt_iff_lt_mul hpos).2 (hpow ▸ hs)
    _ ≤ value / 2 ^ shift := (Nat.le_div_iff_mul_le hpos).2 (hpow ▸ hvalue)

theorem matching_eq_nil (hvalue : 2 ^ space.numBits ≤ value) (h : space.FixesFirst mask) :
    space.matching mask value = [] := by
  have hfixed : leadingOnes (mask % 2 ^ space.numBits) space.numBits ≠ 0 :=
    fun hzero => leadingOnes_eq_zero_iff.1 hzero h
  rw [matching, List.filterMap_eq_nil_iff]
  intro i hi
  obtain ⟨hlo, hhi⟩ := Span.mem_positions.1 hi
  have hlt := Nat.lt_of_lt_of_le hhi (hi_agreeing_le _ _)
  have hstate : space.state? i = some space.states[i] := Array.getElem?_eq_getElem hlt
  have hshift := (mem_agreeing hfixed hstate).1 ⟨hlo, hhi⟩
  exact absurd hshift (Nat.ne_of_lt (shiftRight_lt (state?_lt hstate) hvalue (Nat.sub_le _ _)))

/-- The search looks at the bits of the mask that states have, and finds the states that agree with
the value there, each of them once and in the order of their indices. The exception is a value with
bits that no state has when the first bit is looked at: for this one nothing is found. -/
theorem matching_of_mask (space : StateSpace) (mask value : Nat) :
    (space.indexed.Pairwise fun a b => a.1 < b.1) ∧
    (∀ i s, (i, s) ∈ space.indexed ↔ space.state? i = some s) ∧
    (value < 2 ^ space.numBits ∨ ¬ space.FixesFirst mask →
      space.matching mask value = space.indexed.filter fun at_ =>
        at_.2 &&& mask % 2 ^ space.numBits = value &&& mask % 2 ^ space.numBits) ∧
    (2 ^ space.numBits ≤ value → space.FixesFirst mask → space.matching mask value = []) ∧
    (mask < 2 ^ space.numBits → value &&& mask = value →
      space.matching mask value = space.indexed.filter fun at_ => at_.2 &&& mask = value) := by
  refine ⟨pairwise_indexed space, fun i s => mem_indexed, matching_eq_filter, matching_eq_nil,
    fun hmask hvalue => ?_⟩
  have hlt : value < 2 ^ space.numBits := by
    rw [← hvalue]
    exact Nat.lt_of_le_of_lt Nat.and_le_right hmask
  rw [matching_eq_filter (Or.inl hlt), Nat.mod_eq_of_lt hmask, hvalue]

/-- Three of the sixteen states over four bits. -/
def threeOfSixteen : StateSpace := ⟨4, #[1, 9, 10], by decide, by decide, by decide⟩

/-- The value has a fifth bit: with the first bit fixed it keeps the search from the states `9` and
`10`, and with that bit free it does nothing. -/
theorem matching_of_stray_bit : threeOfSixteen.matching 8 24 = [] ∧
    threeOfSixteen.matching 1 17 = [(0, 1), (1, 9)] ∧
    threeOfSixteen.matching 9 1 = [(0, 1)] := by
  obtain ⟨_, _, _, hnil, _⟩ := matching_of_mask threeOfSixteen 8 24
  obtain ⟨_, _, hfree, _, _⟩ := matching_of_mask threeOfSixteen 1 17
  obtain ⟨_, _, _, _, hwithin⟩ := matching_of_mask threeOfSixteen 9 1
  have hfirst : ¬ threeOfSixteen.FixesFirst 1 := by
    rintro ⟨_, hbit⟩
    cases hbit
  refine ⟨hnil (by decide) ⟨by decide, by decide⟩, ?_, ?_⟩
  · rw [hfree (Or.inr hfirst)]
    decide
  · rw [hwithin (by decide) (by decide)]
    decide

end StateSpace

end TransitionMatrix
