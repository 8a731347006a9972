import TransitionMatrix.Proofs.Symbolic.Build
import TransitionMatrix.Proofs.Symbolic.Numbering

/-!
# Choices of a relation

The choices of a state are those that have a covered transition. They are the rows of the matrix with
choices, in increasing order of their encodings, and each lists its covered destinations. Rewards
are stored under the choices of the transitions, so the choices are the same whatever the rewards.
-/

namespace TransitionMatrix

namespace ChoiceNumbering

/-! ## Entries of a table -/

variable {n numChoices : Nat} {weight? reward? : Nat → Nat → Nat → Option Binary64}

/-- Where one table has a transition, the other one has it too. -/
def Among (reward? weight? : Nat → Nat → Nat → Option Binary64) : Prop :=
  ∀ src choice dst, (reward? src choice dst).isSome → (weight? src choice dst).isSome

/-- The choice of a transition has a number, if the choices are numbered in a table that has the
transition. -/
theorem exists_number (h : Among reward? weight?) {t : Transition}
    (ht : t ∈ Transition.table n numChoices reward?) :
    ∃ number, (ofSorted (Transition.table n numChoices weight?)).number? t.src t.choice
      = some number := by
  obtain ⟨⟨hsrc, hchoice, hdst⟩, hreward⟩ := Transition.mem_table.1 ht
  have hsome : (weight? t.src t.choice t.dst).isSome :=
    h _ _ _ (by rw [hreward, Option.isSome_some])
  have hused : t.choice ∈ used n numChoices weight? t.src :=
    mem_used.2 ⟨hchoice, t.dst, hdst, Option.isSome_iff_exists.1 hsome⟩
  obtain ⟨number, hnumber⟩ := List.mem_iff_getElem?.1 hused
  exact ⟨number, number?_table.2 ⟨hsrc, hnumber⟩⟩

/-- The transitions of one table as entries, with the choices numbered in another. -/
def entries (n numChoices : Nat) (weight? reward? : Nat → Nat → Nat → Option Binary64) :
    List ChoiceEntry :=
  (Transition.table n numChoices reward?).filterMap
    (Transition.toChoiceEntry? (ofSorted (Transition.table n numChoices weight?)))

theorem mem_entries {entry : ChoiceEntry} (h : entry ∈ entries n numChoices weight? reward?) :
    ∃ choice, (used n numChoices weight? entry.state)[entry.choice]? = some choice ∧
      entry.state < n ∧ entry.dst < n ∧
      reward? entry.state choice entry.dst = some entry.weight := by
  obtain ⟨t, ht, hentry⟩ := List.mem_filterMap.1 h
  obtain ⟨number, hnumber, rfl⟩ := Option.map_eq_some_iff.1 hentry
  obtain ⟨⟨hsrc, _, hdst⟩, hreward⟩ := Transition.mem_table.1 ht
  exact ⟨t.choice, (number?_table.1 hnumber).2, hsrc, hdst, hreward⟩

theorem inRange_entries : ChoiceEntry.InRange
    ((List.range n).map fun src => (used n numChoices weight? src).length)
    (entries n numChoices weight? reward?) := by
  intro entry hentry
  obtain ⟨choice, hchoice, hstate, _, _⟩ := mem_entries hentry
  obtain ⟨hlt, _⟩ := List.getElem?_eq_some_iff.1 hchoice
  exact ⟨_, by simp [hstate], hlt⟩

/-- The entries of a choice are the cells of the choice that has its number. -/
theorem rowOf_entries {src number choice : Nat} (hsrc : src < n)
    (hchoice : (used n numChoices weight? src)[number]? = some choice) :
    ChoiceEntry.rowOf src number (entries n numChoices weight? reward?)
      = Cell.ofWeights n (reward? src choice) := by
  have hlt := (mem_used.1 (List.mem_of_getElem? hchoice)).1
  have hself := number?_table.2 ⟨hsrc, hchoice⟩
  rw [← Transition.cells_table hsrc hlt, ChoiceEntry.rowOf, entries, List.filterMap_filterMap]
  refine List.filterMap_congr fun t _ => ?_
  rw [Transition.toChoiceEntry?]
  cases hnumber : (ofSorted (Transition.table n numChoices weight?)).number? t.src t.choice with
  | none =>
    rw [if_neg]
    · rfl
    · rintro ⟨rfl, rfl⟩
      rw [hself] at hnumber
      cases hnumber
  | some k =>
    have hiff : t.src = src ∧ k = number ↔ t.src = src ∧ t.choice = choice := by
      refine and_congr_right ?_
      rintro rfl
      constructor
      · rintro rfl
        have hk := (number?_table.1 hnumber).2
        rw [hchoice] at hk
        exact (Option.some.inj hk).symm
      · rintro rfl
        rw [hself] at hnumber
        exact (Option.some.inj hnumber).symm
    rw [Option.map_some, Option.bind_some]
    by_cases heq : t.src = src ∧ t.choice = choice
    · rw [if_pos heq]
      exact if_pos (hiff.2 heq)
    · rw [if_neg heq]
      exact if_neg fun h => heq (hiff.1 h)

end ChoiceNumbering

namespace Encoding

variable {e : Encoding}

/-! ## Stored choices -/

section Store

variable {numChoices : Nat} {weight? reward? : Nat → Nat → Nat → Option Binary64} {m : ChoiceMatrix}

theorem storeChoices_eq_ok_iff {grouping transitions : List Transition} :
    (e.storeChoices grouping transitions).result = .ok m ↔ grouping.length < Reservation.limit ∧
      (ChoiceMatrix.ofGroups ((ChoiceNumbering.ofSorted grouping).counts e.states.size)
        (transitions.filterMap (Transition.toChoiceEntry? (ChoiceNumbering.ofSorted grouping)))
        e.options).result = .ok m := by
  rw [← Reservation.request_eq_ok_iff]
  constructor
  · intro h
    obtain ⟨_, hroom, h⟩ := Traced.result_bind_eq_ok_iff.1 h
    exact ⟨hroom, h⟩
  · rintro ⟨hroom, h⟩
    exact Traced.result_bind_eq_ok_iff.2 ⟨(), hroom, h⟩

/-- There are no more choices than transitions, and these can be had. -/
theorem built_of_storeChoices
    (h : (e.storeChoices (Transition.table e.states.size numChoices weight?)
      (Transition.table e.states.size numChoices reward?)).result = .ok m) :
    m.Built ((List.range e.states.size).map fun src =>
        (ChoiceNumbering.used e.states.size numChoices weight? src).length)
      (ChoiceNumbering.entries e.states.size numChoices weight? reward?) e.options := by
  obtain ⟨hroom, h⟩ := storeChoices_eq_ok_iff.1 h
  rw [ChoiceNumbering.counts_table] at h
  refine ChoiceMatrix.built_of_ofGroups (Reservation.lt_size_of_lt_limit ?_) h
  exact Nat.lt_of_le_of_lt ChoiceNumbering.sum_length_used_le hroom

theorem choice_of_storeChoices
    (h : (e.storeChoices (Transition.table e.states.size numChoices weight?)
      (Transition.table e.states.size numChoices reward?)).result = .ok m)
    (hnonzero : Nonzero reward?) {src number choice : Nat} (hsrc : src < e.states.size)
    (hchoice : (ChoiceNumbering.used e.states.size numChoices weight? src)[number]? = some choice) :
    m.choice src number = .ok (Cell.ofWeights e.states.size (reward? src choice)) := by
  have hm := built_of_storeChoices h
  obtain ⟨hlt, _⟩ := List.getElem?_eq_some_iff.1 hchoice
  have hweights : ∀ entry ∈ ChoiceNumbering.entries e.states.size numChoices weight? reward?,
      entry.weight.isZero = false := by
    intro entry hentry
    obtain ⟨choice, _, _, _, hreward⟩ := ChoiceNumbering.mem_entries hentry
    exact hnonzero _ _ _ _ hreward
  rw [hm.choice_eq (by simpa using hsrc) (by simpa using hlt) hweights,
    ChoiceNumbering.rowOf_entries hsrc hchoice]

theorem exists_storeChoices (he : e.Storable) (hroomy : e.Roomy)
    (weight? reward? : Nat → Nat → Nat → Option Binary64) :
    ∃ m, (e.storeChoices (Transition.table e.states.size (2 ^ e.choiceWidth) weight?)
      (Transition.table e.states.size (2 ^ e.choiceWidth) reward?)).result = .ok m := by
  have hroom := hroomy.length_table_lt weight?
  have hlength : (ChoiceNumbering.entries e.states.size (2 ^ e.choiceWidth) weight? reward?).length
      < Reservation.limit :=
    Nat.lt_of_le_of_lt (List.length_filterMap_le _ _) (hroomy.length_table_lt reward?)
  have hdst : ∀ entry ∈ ChoiceNumbering.entries e.states.size (2 ^ e.choiceWidth) weight? reward?,
      entry.dst < ((List.range e.states.size).map fun src =>
        (ChoiceNumbering.used e.states.size (2 ^ e.choiceWidth) weight? src).length).length := by
    intro entry hentry
    obtain ⟨_, _, _, hlt, _⟩ := ChoiceNumbering.mem_entries hentry
    simpa using hlt
  obtain ⟨m, hm⟩ := ChoiceMatrix.exists_ofGroups he.options (by simpa using he.size_le)
    (Nat.lt_of_le_of_lt ChoiceNumbering.sum_length_used_le hroom) ChoiceNumbering.inRange_entries
    hdst hlength he.rowEncoding
  rw [← ChoiceNumbering.counts_table] at hm
  exact ⟨m, storeChoices_eq_ok_iff.2 ⟨hroom, hm⟩⟩

/-- Every row is one choice of one state. -/
theorem exists_choice_of_storeChoices
    (h : (e.storeChoices (Transition.table e.states.size numChoices weight?)
      (Transition.table e.states.size numChoices reward?)).result = .ok m)
    {row : Nat} (hrow : row < m.numChoiceRows) :
    ∃ src number choice, src < e.states.size ∧
      (ChoiceNumbering.used e.states.size numChoices weight? src)[number]? = some choice ∧
      m.choice src number = m.choices.row row := by
  have hm := built_of_storeChoices h
  rw [hm.numChoiceRows_eq] at hrow
  obtain ⟨src, number, hsrc, hnumber, rfl⟩ := RowSpans.exists_offset_add hrow
  refine ⟨src, number, _, by simpa using hsrc,
    List.getElem?_eq_getElem (by simpa using hnumber), ?_⟩
  rw [ChoiceMatrix.choice, hm.choiceRow_eq hsrc hnumber]
  rfl

end Store

/-! ## Nondeterministic models -/

/-- The encodings of the choices of a state: those that have a covered transition, in increasing
order. -/
def choicesOf (e : Encoding) (relation : Relation) (src : Nat) : List Nat :=
  (List.range (2 ^ e.choiceWidth)).filter fun choice =>
    (List.range e.states.size).any fun dst =>
      relation.paths.any fun path => e.covers path src choice dst

theorem used_firstValue? (relation : Relation) (src : Nat) :
    ChoiceNumbering.used e.states.size (2 ^ e.choiceWidth) (e.firstValue? relation) src
      = e.choicesOf relation src := by
  refine List.filter_congr fun choice _ => ?_
  refine congrArg (List.any _) (funext fun dst => ?_)
  rw [Bool.eq_iff_iff, firstValue?, Option.isSome_map, List.find?_isSome, List.any_eq_true]

theorem table_of_choiceMatrix {relation : Relation} {m : ChoiceMatrix}
    (h : (e.choiceMatrix relation).result = .ok m) :
    (e.storeChoices
      (Transition.table e.states.size (2 ^ e.choiceWidth) (e.firstValue? relation))
      (Transition.table e.states.size (2 ^ e.choiceWidth) (e.firstValue? relation))).result
        = .ok m := by
  obtain ⟨ts, hts, h⟩ := Traced.result_bind_eq_ok_iff.1 h
  rw [← expand_eq hts]
  exact h

theorem exists_choiceMatrix {relation : Relation} (he : e.Storable) (hroomy : e.Roomy)
    (hknown : e.Known relation.paths) : ∃ m, (e.choiceMatrix relation).result = .ok m := by
  obtain ⟨ts, hts⟩ := exists_expandTo e.destinations he.check hknown
  obtain ⟨m, hm⟩ := exists_storeChoices he hroomy (e.firstValue? relation) (e.firstValue? relation)
  rw [← expand_eq hts] at hm
  exact ⟨m, Traced.result_bind_eq_ok_iff.2 ⟨ts, hts, hm⟩⟩

/-- Choices have one bit. -/
def oneBit : VariableOrder := ⟨[.nth 3]⟩

/-- A path of the choice `1` of the second state, a path of both its choices, and a path of the
choice `1` of the first state. -/
def guarded : Relation where
  paths := [⟨[(Variable.nth 0).pos, (Variable.nth 3).pos], ⟨0x4000000000000000⟩⟩,
    ⟨[(Variable.nth 0).pos], .one⟩,
    ⟨[(Variable.nth 0).neg, (Variable.nth 2).neg, (Variable.nth 3).pos], .one⟩]
  nonzero := by decide

theorem known_guarded : (twoStates (some oneBit)).Known guarded.paths := by
  simp only [Known, guarded, List.forall_mem_cons]
  exact ⟨⟨_, rfl⟩, ⟨_, rfl⟩, ⟨_, rfl⟩, by simp⟩

/-- The matrix with choices of a relation has, for each state, the choices with a covered transition
in increasing order of their encodings. Each of them lists its covered destinations in increasing
order, with the value of the first path that covers the transition, and so no row is empty. -/
theorem choices_of_choiceMatrix {relation : Relation} {m : ChoiceMatrix}
    (h : (e.choiceMatrix relation).result = .ok m) :
    (∀ src, src < e.states.size →
      m.numChoices src = .ok (e.choicesOf relation src).length ∧
      ∀ number choice, (e.choicesOf relation src)[number]? = some choice →
        ∃ cells, m.choice src number = .ok cells ∧
          cells.Pairwise (fun a b => a.dst < b.dst) ∧
          ∀ c, c ∈ cells ↔ c.dst < e.states.size ∧
            e.firstValue? relation src choice c.dst = some c.weight) ∧
    ∀ row, row < m.numChoiceRows → ∃ cells, m.choices.row row = .ok cells ∧ cells ≠ [] := by
  have hstore := table_of_choiceMatrix h
  have hnonzero := nonzero_firstValue? e relation
  have hm := built_of_storeChoices hstore
  refine ⟨fun src hsrc => ⟨?_, fun number choice hchoice => ?_⟩, fun row hrow => ?_⟩
  · rw [hm.numChoices_eq (by simpa using hsrc), List.getElem_map, List.getElem_range,
      used_firstValue?]
  · rw [← used_firstValue?] at hchoice
    exact ⟨_, choice_of_storeChoices hstore hnonzero hsrc hchoice, Cell.pairwise_ofWeights _ _,
      fun c => Cell.mem_ofWeights⟩
  · obtain ⟨src, number, choice, hsrc, hchoice, heq⟩ := exists_choice_of_storeChoices hstore hrow
    refine ⟨_, heq ▸ choice_of_storeChoices hstore hnonzero hsrc hchoice, ?_⟩
    obtain ⟨_, dst, hdst, w, hw⟩ := ChoiceNumbering.mem_used.1 (List.mem_of_getElem? hchoice)
    have hmem : ⟨dst, w⟩ ∈ Cell.ofWeights e.states.size (e.firstValue? relation src choice) :=
      Cell.mem_ofWeights.2 ⟨hdst, hw⟩
    exact List.ne_nil_of_mem hmem

theorem choices_of_guarded :
    ∃ m, ((twoStates (some oneBit)).choiceMatrix guarded).result = .ok m ∧
      m.numChoices 0 = .ok 1 ∧ m.numChoices 1 = .ok 2 ∧
      ∃ cells, m.choice 0 0 = .ok cells ∧ (⟨0, .one⟩ : Cell) ∈ cells := by
  obtain ⟨m, hm⟩ := exists_choiceMatrix (storable_twoStates rfl) (roomy_twoStates (by decide)) known_guarded
  obtain ⟨hstates, _⟩ := choices_of_choiceMatrix hm
  obtain ⟨hnum, hcells⟩ := hstates 0 (by decide)
  obtain ⟨cells, hchoice, _, hmem⟩ := hcells 0 1 (by decide)
  refine ⟨m, hm, hnum, (hstates 1 (by decide)).1, cells, hchoice, ?_⟩
  exact (hmem ⟨0, .one⟩).2 ⟨by decide, by decide⟩

end Encoding

end TransitionMatrix
