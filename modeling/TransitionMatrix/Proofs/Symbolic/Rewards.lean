import TransitionMatrix.Proofs.Symbolic.Choices

/-!
# Rewards of a relation

The rewards of a relation's transitions are stored like the transitions themselves: in the same rows,
under the same numbers of choices, with the transitions that have no reward left out. The numbers
come from the transitions, so that every transition with a reward finds the number of its choice.
-/

namespace TransitionMatrix

/-- The cells whose destination has a weight, with that weight. -/
def Cell.reweigh (weight? : Nat → Option Binary64) (cells : List Cell) : List Cell :=
  cells.filterMap fun c => (weight? c.dst).map (Cell.mk c.dst)

theorem Cell.reweigh_ofWeights (n : Nat) (weight? reward? : Nat → Option Binary64) :
    Cell.reweigh reward? (Cell.ofWeights n weight?)
      = Cell.ofWeights n fun dst => (weight? dst).bind fun _ => reward? dst := by
  rw [reweigh, ofWeights, ofWeights, List.filterMap_filterMap]
  refine List.filterMap_congr fun dst _ => ?_
  cases weight? dst with
  | none => rfl
  | some w => rfl

namespace Encoding

variable {e : Encoding}

/-- The reward of a transition: the value of the first path of `rewards` that covers it, if it is a
transition of the relation. -/
def reward? (e : Encoding) (relation rewards : Relation) (src choice dst : Nat) :
    Option Binary64 :=
  (e.firstValue? relation src choice dst).bind fun _ => e.firstValue? rewards src choice dst

theorem nonzero_reward? (e : Encoding) (relation rewards : Relation) :
    Nonzero (e.reward? relation rewards) := by
  intro src choice dst w h
  obtain ⟨_, _, hw⟩ := Option.bind_eq_some_iff.1 h
  exact nonzero_firstValue? e rewards src choice dst w hw

theorem among_reward? (e : Encoding) (relation rewards : Relation) :
    ChoiceNumbering.Among (e.reward? relation rewards) (e.firstValue? relation) := by
  intro src choice dst hsome
  obtain ⟨w, hw⟩ := Option.isSome_iff_exists.1 hsome
  obtain ⟨v, hv, _⟩ := Option.bind_eq_some_iff.1 hw
  rw [hv, Option.isSome_some]

/-- The transitions that are kept are the table of the rewards. -/
theorem reward_eq {relation rewards : Relation} {transitions kept : List Transition}
    (h : (e.expand relation).result = .ok transitions)
    (hkept : (e.reward transitions rewards).result = .ok kept) :
    kept = Transition.table e.states.size (2 ^ e.choiceWidth) (e.reward? relation rewards) := by
  obtain ⟨ts, hts, hkept⟩ := Traced.result_bind_eq_ok_iff.1 hkept
  obtain ⟨_, _, hkept⟩ := Traced.result_bind_eq_ok_iff.1 hkept
  have heq : kept = Transition.withRewards transitions ts := (Except.ok.inj hkept).symm
  rw [heq, expand_eq h, expand_eq hts, Transition.withRewards_table]
  rfl

theorem exists_reward {rewards : Relation} (hcheck : e.check = .ok ())
    (hknown : e.Known rewards.paths) (transitions : List Transition) :
    ∃ kept, (e.reward transitions rewards).result = .ok kept := by
  obtain ⟨ts, hts⟩ := exists_expandTo e.destinations hcheck hknown
  exact ⟨_, Traced.result_bind_eq_ok_iff.2 ⟨ts, hts, Traced.result_bind_eq_ok_iff.2 ⟨(), rfl, rfl⟩⟩⟩

theorem table_of_rewardMatrix {relation rewards : Relation} {m : Matrix}
    (h : (e.rewardMatrix relation rewards).result = .ok m) :
    (e.store (Transition.table e.states.size (2 ^ e.choiceWidth)
      (e.reward? relation rewards))).result = .ok m := by
  obtain ⟨ts, hts, h⟩ := Traced.result_bind_eq_ok_iff.1 h
  obtain ⟨kept, hkept, h⟩ := Traced.result_bind_eq_ok_iff.1 h
  rw [← reward_eq hts hkept]
  exact h

theorem table_of_rewardChoiceMatrix {relation rewards : Relation} {m : ChoiceMatrix}
    (h : (e.rewardChoiceMatrix relation rewards).result = .ok m) :
    (e.storeChoices
      (Transition.table e.states.size (2 ^ e.choiceWidth) (e.firstValue? relation))
      (Transition.table e.states.size (2 ^ e.choiceWidth) (e.reward? relation rewards))).result
        = .ok m := by
  obtain ⟨ts, hts, h⟩ := Traced.result_bind_eq_ok_iff.1 h
  obtain ⟨kept, hkept, h⟩ := Traced.result_bind_eq_ok_iff.1 h
  rw [← reward_eq hts hkept, ← expand_eq hts]
  exact h

theorem exists_rewardMatrix {relation rewards : Relation} (he : e.Storable) (hroomy : e.Roomy)
    (hrelation : e.Known relation.paths) (hrewards : e.Known rewards.paths) :
    ∃ m, (e.rewardMatrix relation rewards).result = .ok m := by
  obtain ⟨ts, hts⟩ := exists_expandTo e.destinations he.check hrelation
  obtain ⟨kept, hkept⟩ := exists_reward he.check hrewards ts
  obtain ⟨m, hm⟩ := exists_store he hroomy (e.reward? relation rewards)
  rw [← reward_eq hts hkept] at hm
  exact ⟨m, Traced.result_bind_eq_ok_iff.2
    ⟨ts, hts, Traced.result_bind_eq_ok_iff.2 ⟨kept, hkept, hm⟩⟩⟩

theorem exists_rewardChoiceMatrix {relation rewards : Relation} (he : e.Storable)
    (hroomy : e.Roomy) (hrelation : e.Known relation.paths) (hrewards : e.Known rewards.paths) :
    ∃ m, (e.rewardChoiceMatrix relation rewards).result = .ok m := by
  obtain ⟨ts, hts⟩ := exists_expandTo e.destinations he.check hrelation
  obtain ⟨kept, hkept⟩ := exists_reward he.check hrewards ts
  obtain ⟨m, hm⟩ := exists_storeChoices he hroomy (e.firstValue? relation)
    (e.reward? relation rewards)
  rw [← reward_eq hts hkept, ← expand_eq hts] at hm
  exact ⟨m, Traced.result_bind_eq_ok_iff.2
    ⟨ts, hts, Traced.result_bind_eq_ok_iff.2 ⟨kept, hkept, hm⟩⟩⟩

/-- A reward for the transitions to the second state. -/
def arrival : Relation where
  paths := [⟨[(Variable.nth 2).pos], ⟨0x4008000000000000⟩⟩]
  nonzero := by decide

theorem known_arrival (choices : Option VariableOrder) :
    (twoStates choices).Known arrival.paths := by
  have hcol : (twoStates choices).locate? (Variable.nth 2).pos.var = some (.col, 1) := rfl
  simp only [Known, arrival, List.forall_mem_cons]
  refine ⟨⟨some ⟨.free, ⟨2, 2⟩, .free⟩, ?_⟩, by simp⟩
  rw [patterns, restrict, hcol]
  rfl

/-- The matrix of rewards has the rows of the matrix of transitions, with the same numbers of choices,
and each row lists the destinations that have a reward, in the same order. A transition with a reward
always finds the number of its choice. -/
theorem rewards_of_relation (e : Encoding) (relation rewards : Relation) :
    (∀ m m', (e.choiceMatrix relation).result = .ok m →
      (e.rewardChoiceMatrix relation rewards).result = .ok m' →
      ∀ src, src < e.states.size →
        m.numChoices src = .ok (e.choicesOf relation src).length ∧
        m'.numChoices src = m.numChoices src ∧
        m'.choiceRange src = m.choiceRange src ∧
        ∀ number choice, (e.choicesOf relation src)[number]? = some choice →
          ∃ cells, m.choice src number = .ok cells ∧
            m'.choice src number
              = .ok (Cell.reweigh (e.firstValue? rewards src choice) cells)) ∧
    (e.choiceWidth = 0 → ∀ m m', (e.matrix relation).result = .ok m →
      (e.rewardMatrix relation rewards).result = .ok m' →
      ∀ src, src < e.states.size → ∃ cells, m.row src = .ok cells ∧
        m'.row src = .ok (Cell.reweigh (e.firstValue? rewards src 0) cells)) ∧
    ∀ transitions kept, (e.expand relation).result = .ok transitions →
      (e.reward transitions rewards).result = .ok kept →
      ∀ t ∈ kept, ((ChoiceNumbering.ofSorted transitions).number? t.src t.choice).isSome := by
  refine ⟨?_, ?_, ?_⟩
  · intro m m' h h' src hsrc
    have hstore := table_of_choiceMatrix h
    have hstore' := table_of_rewardChoiceMatrix h'
    have hm := built_of_storeChoices hstore
    have hm' := built_of_storeChoices hstore'
    have hlt : src < ((List.range e.states.size).map fun src => (ChoiceNumbering.used e.states.size
        (2 ^ e.choiceWidth) (e.firstValue? relation) src).length).length := by simpa using hsrc
    refine ⟨?_, ?_, ?_, fun number choice hchoice => ?_⟩
    · rw [hm.numChoices_eq hlt, List.getElem_map, List.getElem_range, used_firstValue?]
    · rw [hm'.numChoices_eq hlt, hm.numChoices_eq hlt]
    · rw [hm'.choiceRange_eq hlt, hm.choiceRange_eq hlt]
    · rw [← used_firstValue?] at hchoice
      refine ⟨_, choice_of_storeChoices hstore (nonzero_firstValue? e relation) hsrc hchoice, ?_⟩
      rw [choice_of_storeChoices hstore' (nonzero_reward? e relation rewards) hsrc hchoice,
        Cell.reweigh_ofWeights]
      rfl
  · intro hwidth m m' h h' src hsrc
    have hstore := table_of_matrix h
    have hstore' := table_of_rewardMatrix h'
    rw [hwidth, Nat.pow_zero] at hstore hstore'
    refine ⟨_, row_of_store_one hstore (nonzero_firstValue? e relation) hsrc, ?_⟩
    rw [row_of_store_one hstore' (nonzero_reward? e relation rewards) hsrc,
      Cell.reweigh_ofWeights]
    rfl
  · intro transitions kept h hkept t ht
    rw [reward_eq h hkept] at ht
    obtain ⟨number, hnumber⟩ :=
      ChoiceNumbering.exists_number (among_reward? e relation rewards) ht
    rw [expand_eq h, hnumber, Option.isSome_some]

/-- The only choice of the first state has no reward and stays, as an empty row. -/
theorem rewards_of_guarded :
    (∃ m m', ((twoStates (some oneBit)).choiceMatrix guarded).result = .ok m ∧
      ((twoStates (some oneBit)).rewardChoiceMatrix guarded arrival).result = .ok m' ∧
      m'.numChoices 0 = .ok 1 ∧ m'.numChoices 1 = .ok 2 ∧ m'.choiceRange 1 = m.choiceRange 1 ∧
      ∃ cells, m.choice 0 0 = .ok cells ∧ m'.choice 0 0 = .ok (Cell.reweigh
        ((twoStates (some oneBit)).firstValue? arrival 0 1) cells)) ∧
    (∃ m m', ((twoStates none).matrix overlapping).result = .ok m ∧
      ((twoStates none).rewardMatrix overlapping arrival).result = .ok m' ∧
      ∃ cells, m.row 0 = .ok cells ∧ m'.row 0 = .ok (Cell.reweigh
        ((twoStates none).firstValue? arrival 0 0) cells)) ∧
    ∃ transitions kept, ((twoStates none).expand overlapping).result = .ok transitions ∧
      ((twoStates none).reward transitions arrival).result = .ok kept ∧
      ∀ t ∈ kept, ((ChoiceNumbering.ofSorted transitions).number? t.src t.choice).isSome := by
  obtain ⟨hgroups, _, _⟩ := rewards_of_relation (twoStates (some oneBit)) guarded arrival
  obtain ⟨_, hrows, hnumbers⟩ := rewards_of_relation (twoStates none) overlapping arrival
  refine ⟨?_, ?_, ?_⟩
  · have he := storable_twoStates (show (twoStates (some oneBit)).check = _ from rfl)
    have hroomy := roomy_twoStates (show (twoStates (some oneBit)).choiceWidth ≤ 1 by decide)
    obtain ⟨m, hm⟩ := exists_choiceMatrix he hroomy known_guarded
    obtain ⟨m', hm'⟩ := exists_rewardChoiceMatrix he hroomy known_guarded (known_arrival _)
    obtain ⟨hnum, hsame, _, hcells⟩ := hgroups m m' hm hm' 0 (by decide)
    obtain ⟨hnum', hsame', hrange', _⟩ := hgroups m m' hm hm' 1 (by decide)
    exact ⟨m, m', hm, hm', hsame.trans hnum, hsame'.trans hnum', hrange', hcells 0 1 (by decide)⟩
  · have he := storable_twoStates (show (twoStates none).check = _ from rfl)
    have hroomy := roomy_twoStates (show (twoStates none).choiceWidth ≤ 1 by decide)
    obtain ⟨m, hm⟩ := exists_matrix he hroomy known_overlapping
    obtain ⟨m', hm'⟩ := exists_rewardMatrix he hroomy known_overlapping (known_arrival _)
    exact ⟨m, m', hm, hm', hrows rfl m m' hm hm' 0 (by decide)⟩
  · obtain ⟨transitions, hts⟩ :=
      exists_expandTo (twoStates none).destinations rfl known_overlapping
    obtain ⟨kept, hkept⟩ := exists_reward rfl (known_arrival none) transitions
    exact ⟨transitions, kept, hts, hkept, hnumbers transitions kept hts hkept⟩

end Encoding

end TransitionMatrix
