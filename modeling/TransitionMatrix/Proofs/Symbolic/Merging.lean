import TransitionMatrix.Proofs.Symbolic.Rewards

/-!
# Merged choices

A model with choices also has a matrix without them. It has the choices of a state in one row, in the
order of their encodings: the same entries as the matrix with choices, in the same sequence. Entries
of different choices stay apart there, so a destination that several choices lead to is listed once
for each of them, and only the weight of the first is found by a query.
-/

namespace TransitionMatrix

theorem flatMap_filter_of_nil {α β : Type} {p : α → Bool} {f : α → List β} {xs : List α}
    (h : ∀ x ∈ xs, p x = false → f x = []) : (xs.filter p).flatMap f = xs.flatMap f := by
  induction xs with
  | nil => rfl
  | cons x xs ih =>
    have hrest := ih fun y hy => h y (List.mem_cons_of_mem _ hy)
    cases hx : p x with
    | false =>
      rw [List.filter_cons_of_neg (by simp [hx]), List.flatMap_cons, h x List.mem_cons_self hx,
        List.nil_append, hrest]
    | true =>
      rw [List.filter_cons_of_pos hx, List.flatMap_cons, List.flatMap_cons, hrest]

/-- Where a relation holds within each of some lists, it holds throughout if it holds between any two
of them. -/
theorem pairwise_flatMap_range_iff {α : Type} {R : α → α → Prop} {n : Nat} {f : Nat → List α}
    (hf : ∀ i, (f i).Pairwise R) : ((List.range n).flatMap f).Pairwise R ↔
      ∀ i j, i < j → j < n → ∀ a ∈ f i, ∀ b ∈ f j, R a b := by
  rw [List.pairwise_flatMap, List.pairwise_iff_getElem]
  constructor
  · rintro ⟨_, hbetween⟩ i j hij hj
    have hat := hbetween i j (by simpa using Nat.lt_trans hij hj) (by simpa using hj) hij
    rwa [List.getElem_range, List.getElem_range] at hat
  · intro hbetween
    refine ⟨fun i _ => hf i, fun i j hi hj hij => ?_⟩
    rw [List.getElem_range, List.getElem_range]
    exact hbetween i j hij (by simpa using hj)

theorem Cell.forall_mem_ofWeights {n : Nat} {weight? : Nat → Option Binary64} {P : Nat → Prop} :
    (∀ c ∈ Cell.ofWeights n weight?, P c.dst) ↔ ∀ dst < n, (weight? dst).isSome → P dst := by
  constructor
  · intro h dst hdst hsome
    obtain ⟨w, hw⟩ := Option.isSome_iff_exists.1 hsome
    exact h ⟨dst, w⟩ (Cell.mem_ofWeights.2 ⟨hdst, hw⟩)
  · intro h c hc
    obtain ⟨hdst, hw⟩ := Cell.mem_ofWeights.1 hc
    exact h c.dst hdst (by rw [hw, Option.isSome_some])

/-- The destinations of merged choices are related in the order in which they are listed, if those of
different choices are. -/
theorem Cell.pairwise_merged_iff {R : Nat → Nat → Prop} (hR : ∀ {d d' : Nat}, d < d' → R d d')
    (n k : Nat) (weight? : Nat → Nat → Option Binary64) :
    ((List.range k).flatMap fun choice => Cell.ofWeights n (weight? choice)).Pairwise
        (fun a b => R a.dst b.dst) ↔
      ∀ choice choice', choice < choice' → choice' < k →
        ∀ dst < n, (weight? choice dst).isSome →
          ∀ dst' < n, (weight? choice' dst').isSome → R dst dst' := by
  rw [pairwise_flatMap_range_iff fun choice => (Cell.pairwise_ofWeights n (weight? choice)).imp hR]
  refine forall₄_congr fun choice choice' _ _ => ?_
  rw [Cell.forall_mem_ofWeights (P := fun d => ∀ b ∈ Cell.ofWeights n (weight? choice'), R d b.dst)]
  refine forall₃_congr fun dst _ _ => ?_
  exact Cell.forall_mem_ofWeights (P := R dst)

/-- The matrix has the rows of a matrix with choices, those of one state in one row. -/
structure Matrix.Merges (m : Matrix) (choices : ChoiceMatrix) : Prop where
  numRows_eq : m.numRows = choices.numStates
  nonZeros_eq : m.nonZeros = choices.nonZeros
  /-- A row has the rows of the choices, one after another. -/
  row_eq : ∀ src < m.numRows, ∃ rows : List (List Cell),
    choices.numChoices src = .ok rows.length ∧
    (∀ number (h : number < rows.length), choices.choice src number = .ok rows[number]) ∧
    m.row src = .ok rows.flatten

namespace ChoiceNumbering

variable {n numChoices : Nat} {weight? reward? : Nat → Nat → Nat → Option Binary64}

/-- A choice without transitions has no entries either. -/
theorem flatMap_used (h : Among reward? weight?) (src : Nat) :
    (used n numChoices weight? src).flatMap (fun choice => Cell.ofWeights n (reward? src choice))
      = (List.range numChoices).flatMap fun choice => Cell.ofWeights n (reward? src choice) := by
  refine flatMap_filter_of_nil fun choice _ hunused => ?_
  by_contra hne
  obtain ⟨dst, hdst, hreward⟩ := List.any_eq_true.1 (Cell.ofWeights_ne_nil.1 hne)
  have hused : ((List.range n).any fun dst => (weight? src choice dst).isSome) = true :=
    List.any_eq_true.2 ⟨dst, hdst, h src choice dst hreward⟩
  rw [hunused] at hused
  cases hused

theorem length_entries (h : Among reward? weight?) :
    (entries n numChoices weight? reward?).length = (Transition.table n numChoices reward?).length := by
  rw [entries, List.length_filterMap_eq_countP, List.countP_eq_length]
  intro t ht
  obtain ⟨number, hnumber⟩ := exists_number h ht
  rw [Transition.toChoiceEntry?, hnumber]
  rfl

end ChoiceNumbering

namespace Encoding

variable {e : Encoding}

theorem merges_of_store {numChoices : Nat} {weight? reward? : Nat → Nat → Nat → Option Binary64}
    {m : Matrix} {choices : ChoiceMatrix}
    (h : (e.store (Transition.table e.states.size numChoices reward?)).result = .ok m)
    (hchoices : (e.storeChoices (Transition.table e.states.size numChoices weight?)
      (Transition.table e.states.size numChoices reward?)).result = .ok choices)
    (hamong : ChoiceNumbering.Among reward? weight?) (hnonzero : Nonzero reward?) :
    m.Merges choices := by
  have hm := Matrix.built_of_rectangular (ofEntries_of_store h)
  have hbuilt := built_of_storeChoices hchoices
  refine ⟨?_, ?_, fun src hsrc => ?_⟩
  · rw [hm.numRows_eq, hbuilt.numStates_eq, List.length_map, List.length_range]
  · rw [hm.nonZeros_eq, hbuilt.nonZeros_eq, ChoiceNumbering.length_entries hamong, List.length_map]
  · have hlt : src < e.states.size := hm.numRows_eq ▸ hsrc
    refine ⟨(ChoiceNumbering.used e.states.size numChoices weight? src).map fun choice =>
      Cell.ofWeights e.states.size (reward? src choice), ?_, fun number hnumber => ?_, ?_⟩
    · rw [hbuilt.numChoices_eq (by simpa using hlt), List.getElem_map, List.getElem_range,
        List.length_map]
    · have hused := List.getElem?_eq_getElem (by simpa using hnumber :
        number < (ChoiceNumbering.used e.states.size numChoices weight? src).length)
      rw [choice_of_storeChoices hchoices hnonzero hlt hused, List.getElem_map]
    · rw [row_of_store h hnonzero hlt, ← ChoiceNumbering.flatMap_used hamong, List.flatMap_def]

/-- The matrix without choices has the entries of the matrix with choices, with those of the choices
of a state one after another in one row; and so it is with rewards. -/
theorem merges_of_relation (e : Encoding) (relation : Relation) :
    (∀ m choices, (e.matrix relation).result = .ok m →
      (e.choiceMatrix relation).result = .ok choices → m.Merges choices) ∧
    ∀ rewards m choices, (e.rewardMatrix relation rewards).result = .ok m →
      (e.rewardChoiceMatrix relation rewards).result = .ok choices → m.Merges choices := by
  constructor
  · intro m choices h hchoices
    exact merges_of_store (table_of_matrix h) (table_of_choiceMatrix hchoices)
      (fun _ _ _ hsome => hsome) (nonzero_firstValue? e relation)
  · intro rewards m choices h hchoices
    exact merges_of_store (table_of_rewardMatrix h) (table_of_rewardChoiceMatrix hchoices)
      (among_reward? e relation rewards) (nonzero_reward? e relation rewards)

/-- Among the rows that are merged is one of a choice without rewards. -/
theorem merges_of_guarded :
    ∃ m choices rewards rewardChoices,
      ((twoStates (some oneBit)).matrix guarded).result = .ok m ∧
      ((twoStates (some oneBit)).choiceMatrix guarded).result = .ok choices ∧
      ((twoStates (some oneBit)).rewardMatrix guarded arrival).result = .ok rewards ∧
      ((twoStates (some oneBit)).rewardChoiceMatrix guarded arrival).result = .ok rewardChoices ∧
      m.Merges choices ∧ rewards.Merges rewardChoices := by
  have he := storable_twoStates (show (twoStates (some oneBit)).check = _ from rfl)
  have hroomy := roomy_twoStates (show (twoStates (some oneBit)).choiceWidth ≤ 1 by decide)
  obtain ⟨m, hm⟩ := exists_matrix he hroomy known_guarded
  obtain ⟨choices, hchoices⟩ := exists_choiceMatrix he hroomy known_guarded
  obtain ⟨rewards, hrewards⟩ := exists_rewardMatrix he hroomy known_guarded (known_arrival _)
  obtain ⟨rewardChoices, hrewardChoices⟩ :=
    exists_rewardChoiceMatrix he hroomy known_guarded (known_arrival _)
  obtain ⟨htransitions, hsub⟩ := merges_of_relation (twoStates (some oneBit)) guarded
  exact ⟨m, choices, rewards, rewardChoices, hm, hchoices, hrewards, hrewardChoices,
    htransitions m choices hm hchoices, hsub arrival rewards rewardChoices hrewards hrewardChoices⟩

/-! ## Repeated destinations -/

/-- The row that a state has when the transitions of its choices have the given weights. -/
structure MergedRow (e : Encoding) (weight? : Nat → Nat → Nat → Option Binary64) (m : Matrix)
    (src : Nat) (cells : List Cell) : Prop where
  row_eq : m.row src = .ok cells
  /-- Destinations are in strictly increasing order exactly when those of each choice come before
  those of the choices after it. -/
  ascending_iff : cells.Pairwise (fun a b => a.dst < b.dst) ↔
    ∀ choice choice', choice < choice' → choice' < 2 ^ e.choiceWidth →
      ∀ dst < e.states.size, (weight? src choice dst).isSome →
        ∀ dst' < e.states.size, (weight? src choice' dst').isSome → dst < dst'
  /-- No destination is listed twice exactly when no two choices lead to the same one. -/
  nodup_iff : cells.Pairwise (fun a b => a.dst ≠ b.dst) ↔
    ∀ choice choice', choice < choice' → choice' < 2 ^ e.choiceWidth →
      ∀ dst < e.states.size, (weight? src choice dst).isSome →
        ∀ dst' < e.states.size, (weight? src choice' dst').isSome → dst ≠ dst'
  /-- Every listed weight is found by a query exactly when choices that lead to the same destination
  have the same weight there. -/
  found_iff : (∀ c ∈ cells, m.weight? src c.dst = .ok (some c.weight)) ↔
    ∀ choice < 2 ^ e.choiceWidth, ∀ choice' < 2 ^ e.choiceWidth, ∀ dst < e.states.size,
      ∀ w w', weight? src choice dst = some w → weight? src choice' dst = some w' → w = w'

theorem mergedRow_of_store {weight? : Nat → Nat → Nat → Option Binary64} {m : Matrix}
    (h : (e.store (Transition.table e.states.size (2 ^ e.choiceWidth) weight?)).result = .ok m)
    (hnonzero : Nonzero weight?) {src : Nat} (hsrc : src < e.states.size) :
    e.MergedRow weight? m src ((List.range (2 ^ e.choiceWidth)).flatMap fun choice =>
      Cell.ofWeights e.states.size (weight? src choice)) := by
  have hmem : ∀ c : Cell, c ∈ ((List.range (2 ^ e.choiceWidth)).flatMap fun choice =>
      Cell.ofWeights e.states.size (weight? src choice)) ↔ ∃ choice < 2 ^ e.choiceWidth,
        c.dst < e.states.size ∧ weight? src choice c.dst = some c.weight := by
    intro c
    simp only [List.mem_flatMap, List.mem_range, Cell.mem_ofWeights]
  refine ⟨row_of_store h hnonzero hsrc, Cell.pairwise_merged_iff id _ _ _,
    Cell.pairwise_merged_iff Nat.ne_of_lt _ _ _, ?_⟩
  · simp only [weight?_of_store h hnonzero hsrc]
    constructor
    · intro hfound choice hchoice choice' hchoice' dst hdst w w' hw hw'
      have hat := hfound ⟨dst, w⟩ ((hmem _).2 ⟨choice, hchoice, hdst, hw⟩)
      have hat' := hfound ⟨dst, w'⟩ ((hmem _).2 ⟨choice', hchoice', hdst, hw'⟩)
      exact Option.some.inj (Except.ok.inj (hat.symm.trans hat'))
    · intro hsame c hc
      obtain ⟨choice, hchoice, hdst, hw⟩ := (hmem c).1 hc
      obtain ⟨first, hfirst⟩ := Runs.exists_find?_of_mem (p := fun b => b.dst == c.dst) hc (by simp)
      obtain ⟨choice', hchoice', _, hw'⟩ := (hmem first).1 (List.mem_of_find?_eq_some hfirst)
      have hfst : first.dst = c.dst := by simpa using List.find?_some hfirst
      rw [hfst] at hw'
      rw [hfirst, Option.map_some, hsame choice' hchoice' choice hchoice c.dst hdst _ _ hw' hw]

/-- What the rows of the matrix without choices list depends on where the choices lead: the order of
the destinations, their repetitions, and the weights that queries find. -/
theorem mergedRow_of_relation (e : Encoding) (relation : Relation) :
    (∀ m, (e.matrix relation).result = .ok m → ∀ src < e.states.size,
      ∃ cells, e.MergedRow (e.firstValue? relation) m src cells) ∧
    ∀ rewards m, (e.rewardMatrix relation rewards).result = .ok m → ∀ src < e.states.size,
      ∃ cells, e.MergedRow (e.reward? relation rewards) m src cells := by
  constructor
  · intro m h src hsrc
    exact ⟨_, mergedRow_of_store (table_of_matrix h) (nonzero_firstValue? e relation) hsrc⟩
  · intro rewards m h src hsrc
    exact ⟨_, mergedRow_of_store (table_of_rewardMatrix h) (nonzero_reward? e relation rewards) hsrc⟩

/-- Without variables for the choice there is nothing to repeat. -/
theorem MergedRow.ascending {weight? : Nat → Nat → Nat → Option Binary64} {m : Matrix} {src : Nat}
    {cells : List Cell} (h : e.MergedRow weight? m src cells) (hwidth : e.choiceWidth = 0) :
    cells.Pairwise fun a b => a.dst < b.dst := by
  refine h.ascending_iff.2 fun choice choice' hlt hchoice' => ?_
  rw [hwidth] at hchoice'
  omega

theorem known_overlapping_oneBit : (twoStates (some oneBit)).Known overlapping.paths := by
  simp only [Known, overlapping, List.forall_mem_cons]
  exact ⟨⟨_, rfl⟩, ⟨_, rfl⟩, ⟨_, rfl⟩, by simp⟩

theorem mergedRow_of_overlapping :
    ∃ m cells rewards rewardCells,
      ((twoStates (some oneBit)).matrix overlapping).result = .ok m ∧
      (twoStates (some oneBit)).MergedRow ((twoStates (some oneBit)).firstValue? overlapping) m 1
        cells ∧
      ((twoStates (some oneBit)).rewardMatrix overlapping arrival).result = .ok rewards ∧
      (twoStates (some oneBit)).MergedRow ((twoStates (some oneBit)).reward? overlapping arrival)
        rewards 1 rewardCells := by
  have he := storable_twoStates (show (twoStates (some oneBit)).check = _ from rfl)
  have hroomy := roomy_twoStates (show (twoStates (some oneBit)).choiceWidth ≤ 1 by decide)
  obtain ⟨m, hm⟩ := exists_matrix he hroomy known_overlapping_oneBit
  obtain ⟨rewards, hrewards⟩ := exists_rewardMatrix he hroomy known_overlapping_oneBit (known_arrival _)
  obtain ⟨htransitions, hsub⟩ := mergedRow_of_relation (twoStates (some oneBit)) overlapping
  obtain ⟨cells, hcells⟩ := htransitions m hm 1 (by decide)
  obtain ⟨rewardCells, hrewardCells⟩ := hsub arrival rewards hrewards 1 (by decide)
  exact ⟨m, cells, rewards, rewardCells, hm, hcells, hrewards, hrewardCells⟩

/-- A path that fixes no bit of the choice has its transitions once for each choice: the second state
lists both states twice. -/
theorem repeated_destinations_of_overlapping :
    ∃ m, ((twoStates (some oneBit)).matrix overlapping).result = .ok m ∧
      m.row 1 = .ok [⟨0, ⟨0x4000000000000000⟩⟩, ⟨1, ⟨0x4000000000000000⟩⟩,
        ⟨0, ⟨0x4000000000000000⟩⟩, ⟨1, ⟨0x4000000000000000⟩⟩] ∧
      ∀ cells, m.row 1 = .ok cells → ¬ cells.Pairwise fun a b => a.dst < b.dst := by
  have he := storable_twoStates (show (twoStates (some oneBit)).check = _ from rfl)
  have hroomy := roomy_twoStates (show (twoStates (some oneBit)).choiceWidth ≤ 1 by decide)
  obtain ⟨m, hm⟩ := exists_matrix he hroomy known_overlapping_oneBit
  have hrow : m.row 1 = .ok [⟨0, ⟨0x4000000000000000⟩⟩, ⟨1, ⟨0x4000000000000000⟩⟩,
      ⟨0, ⟨0x4000000000000000⟩⟩, ⟨1, ⟨0x4000000000000000⟩⟩] := by
    rw [row_of_store (table_of_matrix hm) (nonzero_firstValue? _ _) (by decide)]
    decide
  refine ⟨m, hm, hrow, fun cells hcells => ?_⟩
  rw [hrow] at hcells
  cases hcells
  decide

end Encoding

end TransitionMatrix
