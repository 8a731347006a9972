import TransitionMatrix.Proofs.StateSpace.Indices

/-!
# State spaces of given encodings

A state space lists the encodings that it is made of in increasing order, whatever the order in which
they are given and however often. It exists if there are at most 63 bits and the largest encoding fits
them. Index and encoding then determine each other, and go up together.
-/

namespace TransitionMatrix

/-- The distinct numbers of a list depend on its members only. -/
theorem sortedDistinct_congr {xs ys : List Nat} (h : ∀ n, n ∈ xs ↔ n ∈ ys) :
    sortedDistinct xs = sortedDistinct ys := by
  refine List.Pairwise.eq_of_mem_iff (pairwise_sortedDistinct xs) (pairwise_sortedDistinct ys)
    fun n => ?_
  rw [mem_sortedDistinct, mem_sortedDistinct, h]

theorem sortedDistinct_range (n : Nat) : sortedDistinct (List.range n) = List.range n := by
  refine List.Pairwise.eq_of_mem_iff (pairwise_sortedDistinct _) List.pairwise_lt_range fun k => ?_
  rw [mem_sortedDistinct]

namespace StateSpace

variable {numBits : Nat} {encodings : List Nat} {space : StateSpace}

/-! ## Making a state space -/

/-- The last of the distinct encodings is the largest one. -/
theorem largest_of_getLast? {s : Nat} (h : (sortedDistinct encodings).getLast? = some s) :
    s ∈ encodings ∧ ∀ t ∈ encodings, t ≤ s := by
  refine ⟨mem_sortedDistinct.1 (List.mem_of_getLast? h), fun t ht => ?_⟩
  have hle := le_last_of_increasing (pairwise_sortedDistinct encodings) t (mem_sortedDistinct.2 ht)
  rw [h] at hle
  exact hle

theorem ofEncodings_of_lt (h : 63 < numBits) : ofEncodings numBits encodings = .error .tooManyBits :=
  dif_neg (Nat.not_le_of_lt h)

/-- An encoding that is too wide is refused for the largest one. -/
theorem ofEncodings_of_wide (hbits : numBits ≤ 63) {s : Nat} (hs : s ∈ encodings)
    (hwide : 2 ^ numBits ≤ s) : ∃ largest ∈ encodings, (∀ t ∈ encodings, t ≤ largest) ∧
      ofEncodings numBits encodings = .error (.stateTooWide largest numBits) := by
  have hne : sortedDistinct encodings ≠ [] := List.ne_nil_of_mem (mem_sortedDistinct.2 hs)
  obtain ⟨largest, hlast⟩ : ∃ largest, (sortedDistinct encodings).getLast? = some largest :=
    ⟨_, List.getLast?_eq_some_getLast hne⟩
  obtain ⟨hmem, hle⟩ := largest_of_getLast? hlast
  have hnot : ¬ largest < 2 ^ numBits := by
    have := hle s hs
    omega
  refine ⟨largest, hmem, hle, ?_⟩
  simp only [ofEncodings, dif_pos hbits, hlast, Option.getD_some, dif_neg hnot]

theorem exists_ofEncodings (hbits : numBits ≤ 63) (hfit : ∀ s ∈ encodings, s < 2 ^ numBits) :
    ∃ space, ofEncodings numBits encodings = .ok space ∧ space.numBits = numBits ∧
      space.states.toList = sortedDistinct encodings := by
  have hlargest : (sortedDistinct encodings).getLast?.getD 0 < 2 ^ numBits := by
    cases hlast : (sortedDistinct encodings).getLast? with
    | none => exact Nat.two_pow_pos numBits
    | some largest => exact hfit largest (largest_of_getLast? hlast).1
  unfold ofEncodings
  rw [dif_pos hbits]
  dsimp only
  rw [dif_pos hlargest]
  exact ⟨_, rfl, rfl, rfl⟩

/-- A state space is refused exactly for too many bits or an encoding that does not fit. -/
theorem exists_error_iff : (∃ v, ofEncodings numBits encodings = .error v) ↔
    63 < numBits ∨ ∃ s ∈ encodings, 2 ^ numBits ≤ s := by
  constructor
  · rintro ⟨v, hv⟩
    by_contra hnot
    obtain ⟨hbits, hfit⟩ := not_or.1 hnot
    obtain ⟨space, hspace, _⟩ := exists_ofEncodings (Nat.le_of_not_lt hbits) fun s hs =>
      Nat.lt_of_not_le fun hwide => hfit ⟨s, hs, hwide⟩
    rw [hspace] at hv
    cases hv
  · rintro (hbits | ⟨s, hs, hwide⟩)
    · exact ⟨_, ofEncodings_of_lt hbits⟩
    · rcases Nat.lt_or_ge 63 numBits with hbits | hbits
      · exact ⟨_, ofEncodings_of_lt hbits⟩
      · obtain ⟨largest, _, _, herr⟩ := ofEncodings_of_wide hbits hs hwide
        exact ⟨_, herr⟩

theorem states_of_ofEncodings (h : ofEncodings numBits encodings = .ok space) :
    space.numBits = numBits ∧ space.states.toList = sortedDistinct encodings := by
  have hnone : ¬ ∃ v, ofEncodings numBits encodings = .error v := by
    rintro ⟨v, hv⟩
    rw [h] at hv
    cases hv
  rw [exists_error_iff, not_or] at hnone
  obtain ⟨hbits, hfit⟩ := hnone
  obtain ⟨space', hspace', hstates⟩ := exists_ofEncodings (Nat.le_of_not_lt hbits) fun s hs =>
    Nat.lt_of_not_le fun hwide => hfit ⟨s, hs, hwide⟩
  rw [h] at hspace'
  cases hspace'
  exact hstates

theorem ofEncodings_congr {other : List Nat} (h : ∀ s, s ∈ other ↔ s ∈ encodings) :
    ofEncodings numBits other = ofEncodings numBits encodings := by
  simp only [ofEncodings, sortedDistinct_congr h]

/-! ## Indices and encodings -/

/-- The encodings are listed once each, in increasing order, and correspond to the indices one to one
and in order. -/
structure Enumerates (space : StateSpace) (encodings : List Nat) : Prop where
  increasing : space.states.toList.Pairwise (· < ·)
  mem_states : ∀ s, s ∈ space.states.toList ↔ s ∈ encodings
  /-- The index of an encoding leads back to it. -/
  state_of_index : ∀ s ∈ encodings, ∃ i < space.size, space.indexOf? s = some i ∧
    space.state? i = some s
  /-- The encoding of an index leads back to it. -/
  index_of_state : ∀ i < space.size, ∃ s ∈ encodings, space.state? i = some s ∧
    space.indexOf? s = some i
  state_none : ∀ i, space.size ≤ i → space.state? i = none
  index_none : ∀ s, s ∉ encodings → space.indexOf? s = none
  state_lt_iff : ∀ i j s t, space.state? i = some s → space.state? j = some t → (s < t ↔ i < j)
  index_lt_iff : ∀ s t i j, space.indexOf? s = some i → space.indexOf? t = some j → (i < j ↔ s < t)

theorem enumerates_of_mem_iff (h : ∀ s, s ∈ space.states.toList ↔ s ∈ encodings) :
    space.Enumerates encodings where
  increasing := space.increasing
  mem_states := h
  state_of_index := by
    intro s hs
    obtain ⟨i, hi⟩ := Array.mem_iff_getElem?.1 (Array.mem_toList_iff.1 ((h s).2 hs))
    exact ⟨i, lt_size_of_state? hi, indexOf?_eq_some_iff.2 hi, hi⟩
  index_of_state := by
    intro i hi
    have hstate : space.state? i = some space.states[i] := Array.getElem?_eq_getElem hi
    refine ⟨space.states[i], (h _).1 (Array.getElem_mem_toList hi), hstate, ?_⟩
    exact indexOf?_eq_some_iff.2 hstate
  state_none := fun i hi => Array.getElem?_eq_none hi
  index_none := by
    intro s hs
    refine Option.eq_none_iff_forall_ne_some.2 fun i hi => hs ((h s).1 ?_)
    exact Array.mem_toList_iff.2 (Array.mem_of_getElem? (indexOf?_eq_some_iff.1 hi))
  state_lt_iff := fun i j s t => lt_iff_of_state?
  index_lt_iff := by
    intro s t i j hi hj
    exact (lt_iff_of_state? (indexOf?_eq_some_iff.1 hi) (indexOf?_eq_some_iff.1 hj)).symm

/-- Where every encoding is reachable, it is its own index. -/
theorem exists_full (hbits : numBits ≤ 63) : ∃ space, full numBits = .ok space ∧
    space.size = 2 ^ numBits ∧ space.Enumerates (List.range (2 ^ numBits)) ∧
    ∀ s < 2 ^ numBits, space.state? s = some s ∧ space.indexOf? s = some s := by
  have hfit : ∀ s ∈ List.range (2 ^ numBits), s < 2 ^ numBits := fun s => List.mem_range.1
  obtain ⟨space, hspace, _, hstates⟩ := exists_ofEncodings hbits hfit
  rw [sortedDistinct_range] at hstates
  have hstate : ∀ s < 2 ^ numBits, space.state? s = some s := by
    intro s hs
    rw [state?, ← Array.getElem?_toList, hstates, List.getElem?_range hs]
  refine ⟨space, ?_, ?_, enumerates_of_mem_iff fun s => by rw [hstates], fun s hs => ?_⟩
  · rw [full, if_pos hbits, hspace]
  · rw [size, ← Array.length_toList, hstates, List.length_range]
  · exact ⟨hstate s hs, indexOf?_eq_some_iff.2 (hstate s hs)⟩

/-- Encodings are refused exactly if there are more than 63 bits or some encoding does not fit its bits;
the first is noticed first, and of the encodings the largest is named. Otherwise they are listed once
each and in increasing order, and index and encoding determine each other and go up together. All this
depends on which encodings are given only, not on their order or on repetitions. If every encoding is
given, each is its own index. -/
theorem enumeration_of_encodings (numBits : Nat) (encodings : List Nat) :
    ((∃ v, ofEncodings numBits encodings = .error v) ↔
      63 < numBits ∨ ∃ s ∈ encodings, 2 ^ numBits ≤ s) ∧
    (63 < numBits → ofEncodings numBits encodings = .error .tooManyBits) ∧
    (numBits ≤ 63 → (∃ s ∈ encodings, 2 ^ numBits ≤ s) → ∃ largest ∈ encodings,
      (∀ t ∈ encodings, t ≤ largest) ∧
      ofEncodings numBits encodings = .error (.stateTooWide largest numBits)) ∧
    (∀ space, ofEncodings numBits encodings = .ok space →
      space.numBits = numBits ∧ space.Enumerates encodings) ∧
    (∀ other, (∀ s, s ∈ other ↔ s ∈ encodings) →
      ofEncodings numBits other = ofEncodings numBits encodings) ∧
    (numBits ≤ 63 → ∃ space, full numBits = .ok space ∧ space.size = 2 ^ numBits ∧
      space.Enumerates (List.range (2 ^ numBits)) ∧
      ∀ s < 2 ^ numBits, space.state? s = some s ∧ space.indexOf? s = some s) := by
  refine ⟨exists_error_iff, ofEncodings_of_lt, ?_, fun space h => ?_, fun other => ofEncodings_congr,
    exists_full⟩
  · rintro hbits ⟨s, hs, hwide⟩
    exact ofEncodings_of_wide hbits hs hwide
  · obtain ⟨hnumBits, hstates⟩ := states_of_ofEncodings h
    exact ⟨hnumBits, enumerates_of_mem_iff fun s => by rw [hstates, mem_sortedDistinct]⟩

/-- Three encodings, one of them given twice, and not in their order; over one bit less the largest of
them is refused. -/
theorem enumeration_of_unsorted : ∃ space, ofEncodings 3 [5, 1, 6, 1] = .ok space ∧
    space.states.toList = [1, 5, 6] ∧ space.state? 1 = some 5 ∧ space.indexOf? 5 = some 1 ∧
    space.indexOf? 2 = none ∧ ofEncodings 3 [6, 5, 1] = .ok space ∧
    ofEncodings 2 [5, 1, 6, 1] = .error (.stateTooWide 6 2) := by
  obtain ⟨herror, _, _, hok, hset, _⟩ := enumeration_of_encodings 3 [5, 1, 6, 1]
  obtain ⟨_, _, hwide, _⟩ := enumeration_of_encodings 2 [5, 1, 6, 1]
  obtain ⟨largest, hmem, hmax, hrefused⟩ := hwide (by decide) ⟨5, by decide, by decide⟩
  have hlargest : largest = 6 := by
    have hall : ∀ s ∈ [5, 1, 6, 1], 6 ≤ s → s = 6 := by decide
    exact hall largest hmem (hmax 6 (by decide))
  cases h : ofEncodings 3 [5, 1, 6, 1] with
  | error v =>
    rcases herror.1 ⟨v, h⟩ with hbits | hfit
    · exact absurd hbits (by decide)
    · exact absurd hfit (by decide)
  | ok space =>
    obtain ⟨_, henum⟩ := hok space h
    have hsame : ∀ s, s ∈ [1, 5, 6] ↔ s ∈ [5, 1, 6, 1] := by
      intro s
      simp only [List.mem_cons, List.not_mem_nil, or_false]
      omega
    have hstates : space.states.toList = [1, 5, 6] :=
      List.Pairwise.eq_of_mem_iff henum.increasing (by decide) fun s => by
        rw [henum.mem_states, hsame]
    have hstate : space.state? 1 = some 5 := by
      rw [state?, ← Array.getElem?_toList, hstates]
      rfl
    refine ⟨space, rfl, hstates, hstate, indexOf?_eq_some_iff.2 hstate, henum.index_none 2 (by decide),
      ?_, ?_⟩
    · rw [hset [6, 5, 1] fun s => by simp only [List.mem_cons, List.not_mem_nil, or_false]; omega, h]
    · rw [hrefused, hlargest]

end StateSpace

end TransitionMatrix
