import TransitionMatrix.Proofs.ChoiceMatrix.Labels
import TransitionMatrix.Proofs.ChoiceMatrix.Soundness
import TransitionMatrix.Proofs.Matrix.Rebuilding

/-!
# Building a matrix with choices again

The listed entries of a matrix with choices name the choice within its state, not the row. As long as
no choice is without entries, they say how many choices there are, and the matrix that is built from
them has the same rows. Labels are listed with the entries, and attached again they are the same.
-/

namespace TransitionMatrix

namespace ChoiceMatrix

/-- No choice is without entries. -/
def Full (m : ChoiceMatrix) : Prop := ∀ row < m.numChoiceRows, m.choices.cells row ≠ []

/-- The label in the place of a row, if there is such a place. -/
def label? (m : ChoiceMatrix) (row : Nat) : Option Nat := m.labels.bind fun labels => labels[row]?.join

theorem LabelsFit.rowLabel_eq {m : ChoiceMatrix} (h : m.LabelsFit) {row : Nat}
    (hrow : row < m.numChoiceRows) : m.rowLabel row = .ok (m.label? row) := by
  rw [rowLabel, label?]
  cases hlabels : m.labels with
  | none => rfl
  | some labels =>
    have hlt : row < labels.size := by
      rw [h labels hlabels]
      exact hrow
    show labels[row]?.elim _ _ = _
    rw [Option.bind_some, Array.getElem?_eq_getElem hlt, Option.elim_some, Option.join_some]

/-- The entries of a matrix with choices, choice by choice, each with the label of its choice. -/
def listed (m : ChoiceMatrix) : List (ChoiceEntry × Option Nat) :=
  (List.range m.numStates).flatMap fun state =>
    (List.range (m.group state).length).flatMap fun choice =>
      (m.choices.cells ((m.group state).lo + choice)).map fun c =>
        (⟨state, choice, c.dst, c.weight⟩, m.label? ((m.group state).lo + choice))

theorem mem_listed {m : ChoiceMatrix} {entry : ChoiceEntry} {label : Option Nat} :
    (entry, label) ∈ m.listed ↔ entry.state < m.numStates ∧
      entry.choice < (m.group entry.state).length ∧
      ⟨entry.dst, entry.weight⟩ ∈ m.choices.cells ((m.group entry.state).lo + entry.choice) ∧
      label = m.label? ((m.group entry.state).lo + entry.choice) := by
  obtain ⟨state, choice, dst, weight⟩ := entry
  simp only [listed, List.mem_flatMap, List.mem_map, List.mem_range]
  constructor
  · rintro ⟨i, hi, k, hk, c, hc, heq⟩
    cases heq
    exact ⟨hi, hk, hc, rfl⟩
  · rintro ⟨hi, hk, hc, rfl⟩
    exact ⟨state, hi, choice, hk, _, hc, rfl⟩

/-- The listed entries do not depend on the labels. -/
theorem map_fst_listed (m : ChoiceMatrix) : m.listed.map Prod.fst
    = (List.range m.numStates).flatMap fun state =>
        (List.range (m.group state).length).flatMap fun choice =>
          (m.choices.cells ((m.group state).lo + choice)).map fun c =>
            ⟨state, choice, c.dst, c.weight⟩ := by
  rw [listed, List.map_flatMap]
  simp only [List.map_flatMap, List.map_map]
  rfl

end ChoiceMatrix

/-- The labels of listed entries. -/
def Label.ofListed (listed : List (ChoiceEntry × Option Nat)) : List Label :=
  listed.filterMap fun (entry, label) => label.map fun a => ⟨entry.state, entry.choice, a⟩

theorem Label.mem_ofListed {listed : List (ChoiceEntry × Option Nat)} {l : Label} :
    l ∈ ofListed listed ↔ ∃ entry, (entry, some l.action) ∈ listed ∧ entry.state = l.state ∧
      entry.choice = l.choice := by
  obtain ⟨state, choice, a⟩ := l
  rw [ofListed, List.mem_filterMap]
  constructor
  · rintro ⟨⟨entry, label⟩, hmem, hl⟩
    obtain ⟨a', rfl, heq⟩ := Option.map_eq_some_iff.1 hl
    cases heq
    exact ⟨entry, hmem, rfl, rfl⟩
  · rintro ⟨entry, hmem, rfl, rfl⟩
    exact ⟨_, hmem, rfl⟩

namespace ChoiceMatrix

/-! ## Entries that are listed -/

namespace Grouped

variable {m : ChoiceMatrix} {numChoices : List Nat} (hm : m.Grouped numChoices)

include hm

theorem inRange_listed : ChoiceEntry.InRange numChoices (m.listed.map Prod.fst) := by
  intro entry hentry
  obtain ⟨⟨entry, label⟩, hmem, rfl⟩ := List.mem_map.1 hentry
  obtain ⟨hstate, hchoice, _⟩ := mem_listed.1 hmem
  rw [hm.numStates_eq] at hstate
  rw [hm.length_group hstate] at hchoice
  exact ⟨_, List.getElem?_eq_getElem hstate, hchoice⟩

/-- The listed choices are numbered as choices may be: a state has no more of them than a word says. -/
theorem choice_lt_choiceLimit :
    ∀ entry ∈ m.listed.map Prod.fst, entry.choice < ChoiceEntry.choiceLimit := by
  intro entry hentry
  obtain ⟨count, hcount, hlt⟩ := hm.inRange_listed entry hentry
  obtain ⟨hstate, rfl⟩ := List.getElem?_eq_some_iff.1 hcount
  have hrow := RowSpans.offset_add_lt_sum hstate hlt
  have hsum := hm.sum_lt
  rw [ChoiceEntry.choiceLimit]
  rw [Word.size] at hsum
  omega

/-- The listed entries are those of the rows, one row after another. -/
theorem map_toEntry_listed :
    (m.listed.map Prod.fst).map (ChoiceEntry.toEntry (RowSpans.ofLengths numChoices))
      = m.choices.listed := by
  have hrows : m.choices.numRows = numChoices.sum := hm.numChoiceRows_eq
  rw [map_fst_listed, List.map_flatMap, Matrix.listed, hrows, List.flatMap_def, List.flatMap_def,
    map_range_sum, List.flatten_flatten, hm.numStates_eq]
  congr 1
  refine List.ext_getElem (by simp) fun state hstate _ => ?_
  have hlt : state < numChoices.length := by simpa using hstate
  have hlo : (m.group state).lo = RowSpans.offset numChoices state := by rw [hm.group_eq hlt]
  rw [List.getElem_map, List.getElem_range, List.getElem_map, List.getElem_mapIdx,
    ← List.flatMap_def, List.map_flatMap, hm.length_group hlt, hlo]
  refine List.flatMap_congr fun choice hchoice => ?_
  have hrow := RowSpans.offset_add_lt_sum hlt (List.mem_range.1 hchoice)
  have hsum := hm.sum_lt
  rw [List.map_map]
  refine List.map_congr_left fun c _ => ?_
  rw [Function.comp_apply, ChoiceEntry.toEntry, RowSpans.span?_ofLengths hlt]
  show (⟨Word.add (RowSpans.offset numChoices state) choice, c.dst, c.weight⟩ : Entry) = _
  rw [Word.add_eq (by omega)]

theorem length_listed : m.listed.length = m.choices.listed.length := by
  rw [← hm.map_toEntry_listed, List.length_map, List.length_map]

/-- A choice has the listed entries that name it. -/
theorem choice_eq_rowOf_listed {state choice : Nat} (hstate : state < numChoices.length)
    (hchoice : choice < numChoices[state]) :
    m.choice state choice = .ok (ChoiceEntry.rowOf state choice (m.listed.map Prod.fst)) := by
  have hrow : RowSpans.offset numChoices state + choice < m.choices.numRows := by
    have hlt := RowSpans.offset_add_lt_sum hstate hchoice
    rw [← hm.numChoiceRows_eq] at hlt
    exact hlt
  rw [ChoiceMatrix.choice, hm.choiceRow_eq hstate hchoice,
    ← ChoiceEntry.rowOf_map_toEntry hm.sum_lt hm.inRange_listed hstate hchoice, hm.map_toEntry_listed,
    Matrix.rowOf_listed _ hrow]
  exact Matrix.row_of_lt hrow

/-- In a matrix without empty choices, some entry is listed for each choice. -/
theorem exists_mem_listed (hfull : m.Full) {state choice : Nat} (hstate : state < numChoices.length)
    (hchoice : choice < numChoices[state]) :
    ∃ entry, (entry, m.label? (RowSpans.offset numChoices state + choice)) ∈ m.listed ∧
      entry.state = state ∧ entry.choice = choice := by
  have hrow := RowSpans.offset_add_lt_sum hstate hchoice
  rw [← hm.numChoiceRows_eq] at hrow
  obtain ⟨c, hc⟩ := List.exists_mem_of_ne_nil _ (hfull _ hrow)
  have hlo : (m.group state).lo = RowSpans.offset numChoices state := by rw [hm.group_eq hstate]
  refine ⟨⟨state, choice, c.dst, c.weight⟩, mem_listed.2 ⟨?_, ?_, ?_, ?_⟩, rfl, rfl⟩
  · rw [hm.numStates_eq]
    exact hstate
  · rw [hm.length_group hstate]
    exact hchoice
  · rw [hlo]
    exact hc
  · rw [hlo]

/-- The listed entries ask for the choices that there are. -/
theorem asked_listed (hfull : m.Full) {state : Nat} (hstate : state < numChoices.length) :
    ChoiceEntry.asked (m.listed.map Prod.fst) state = numChoices[state] := by
  refine eq_of_forall_ge_iff fun count => ?_
  rw [ChoiceEntry.asked_le_iff]
  constructor
  · intro hall
    by_contra hlt
    -- the last choice has an entry, which asks for it
    have hlast : numChoices[state] - 1 < numChoices[state] := by omega
    obtain ⟨entry, hmem, hentry, hchoice⟩ := hm.exists_mem_listed hfull hstate hlast
    have hle := hall entry (List.mem_map_of_mem hmem) hentry
    omega
  · intro hcount entry hentry hstate'
    obtain ⟨count', hcount', hlt⟩ := hm.inRange_listed entry hentry
    obtain ⟨_, rfl⟩ := List.getElem?_eq_some_iff.1 hcount'
    subst hstate'
    omega

theorem map_asked_listed (hfull : m.Full) :
    (List.range m.numStates).map (ChoiceEntry.asked (m.listed.map Prod.fst)) = numChoices := by
  rw [hm.numStates_eq]
  refine List.ext_getElem (by simp) fun state hstate hstate' => ?_
  rw [List.getElem_map, List.getElem_range, hm.asked_listed hfull hstate']

/-! ## Labels that are listed -/

/-- The listed labels give a choice the label that it has. -/
theorem action?_ofListed (hfull : m.Full) {state choice : Nat} (hstate : state < numChoices.length)
    (hchoice : choice < numChoices[state]) :
    Label.action? (Label.ofListed m.listed) state choice
      = m.label? (RowSpans.offset numChoices state + choice) := by
  refine Label.action?_eq fun a => ?_
  rw [Label.mem_ofListed]
  constructor
  · rintro ⟨entry, hmem, rfl, rfl⟩
    obtain ⟨_, _, _, hlabel⟩ := mem_listed.1 hmem
    rw [hm.group_eq hstate] at hlabel
    exact hlabel.symm
  · intro hlabel
    obtain ⟨entry, hmem, hentry⟩ := hm.exists_mem_listed hfull hstate hchoice
    rw [hlabel] at hmem
    exact ⟨entry, hmem, hentry⟩

theorem choiceLabel_eq_action? (hlabels : m.LabelsFit) (hfull : m.Full) {state choice : Nat}
    (hstate : state < numChoices.length) (hchoice : choice < numChoices[state]) :
    m.choiceLabel state choice
      = .ok (Label.action? (Label.ofListed m.listed) state choice) := by
  have hrow := hm.choiceRow_eq hstate hchoice
  rw [hm.action?_ofListed hfull hstate hchoice, choiceLabel, hrow]
  exact hlabels.rowLabel_eq (hm.lt_numChoiceRows hrow)

/-- Each listed label is one for a choice that is there, in every matrix with the same choices. -/
theorem exists_written_ofListed {m' : ChoiceMatrix} (hm' : m'.Grouped numChoices) :
    ∃ array, m'.written (Label.ofListed m.listed) = .ok array := by
  refine hm'.exists_written fun l hl => ?_
  obtain ⟨entry, hmem, hstate, hchoice⟩ := Label.mem_ofListed.1 hl
  obtain ⟨count, hcount, hlt⟩ := hm.inRange_listed entry (List.mem_map_of_mem hmem)
  obtain ⟨hlen, rfl⟩ := List.getElem?_eq_some_iff.1 hcount
  rw [← hstate, ← hchoice]
  exact ⟨_, hm'.choiceRow_eq hlen hlt⟩

end Grouped

/-! ## The same answers -/

/-- The matrices answer every question on choices alike, up to the zero that is given back if they are
stored in different forms. -/
structure Agrees (m m' : ChoiceMatrix) : Prop where
  numChoices_eq : ∀ state, m'.numChoices state = m.numChoices state
  choiceRange_eq : ∀ state, m'.choiceRange state = m.choiceRange state
  choiceLabel_eq : ∀ state choice, m'.choiceLabel state choice = m.choiceLabel state choice
  map_key_choice : ∀ state choice, (m'.choice state choice).map (List.map Cell.key)
    = (m.choice state choice).map (List.map Cell.key)
  choice_eq : m'.choices.isCompact = m.choices.isCompact →
    ∀ state choice, m'.choice state choice = m.choice state choice

/-- The matrix was built with the given options, and labels may have been attached to it since. -/
structure LabelledWith (m : ChoiceMatrix) (numChoices : List Nat) (entries : List ChoiceEntry)
    (options : Options) : Prop where
  built : ({ m with labels := none } : ChoiceMatrix).Built numChoices entries options
  labelsFit : m.LabelsFit

namespace LabelledWith

variable {m : ChoiceMatrix} {numChoices : List Nat} {entries : List ChoiceEntry} {options : Options}
  (hm : m.LabelledWith numChoices entries options)

include hm

theorem grouped : m.Grouped numChoices :=
  ⟨hm.built.sum_lt, hm.built.numStates_eq, hm.built.groupSpans_eq, hm.built.numChoiceRows_eq⟩

/-- Without its labels, the matrix is also the one that is put together from the entries that it
lists. -/
theorem built_of_listed :
    ({ m with labels := none } : ChoiceMatrix).Built numChoices (m.listed.map Prod.fst) options where
  sum_lt := hm.built.sum_lt
  inRange := hm.grouped.inRange_listed
  numStates_eq := hm.built.numStates_eq
  groups := hm.built.groups
  groupSpans_eq := hm.built.groupSpans_eq
  choices := by
    rw [hm.grouped.map_toEntry_listed]
    exact Matrix.rectangular_of_built (Matrix.built_of_rectangular hm.built.choices).of_listed
  labels_eq := rfl

/-- From the listed entries the matrix without its labels can be built again. -/
theorem ofEntries_listed (hfull : m.Full) :
    (ofEntries m.numStates (m.listed.map Prod.fst) options).result
      = .ok { m with labels := none } := by
  rw [ofEntries_eq_ok_iff, hm.grouped.map_asked_listed hfull]
  exact ⟨hm.grouped.choice_lt_choiceLimit, ofGroups_of_built hm.built_of_listed⟩

/-- A matrix that is built from the listed entries, with the listed labels, answers as the matrix. -/
theorem agrees (hfull : m.Full) {options' : Options} {m' : ChoiceMatrix}
    (h : (ofEntries m.numStates (m.listed.map Prod.fst) options').result = .ok m') :
    (setLabels (Label.ofListed m.listed)).outcome m' = .ok () ∧
      m.Agrees ((setLabels (Label.ofListed m.listed)).after m') := by
  rw [ofEntries_eq_ok_iff, hm.grouped.map_asked_listed hfull] at h
  obtain ⟨_, h⟩ := h
  have hm' := built_of_ofGroups hm.built.sum_lt h
  have hgrouped := hm.grouped
  obtain ⟨array, hwritten⟩ := hgrouped.exists_written_ofListed hm'.grouped
  obtain ⟨houtcome, hafter⟩ := setLabels_of_ok hwritten
  have hgrouped' := hm'.grouped.of_labels (some array)
  have hcongr := hm.built_of_listed.choice_congr hm'
  rw [hafter]
  refine ⟨houtcome, hgrouped.numChoices_congr hgrouped', hgrouped.choiceRange_congr hgrouped',
    fun state choice => ?_, fun state choice => (hcongr state choice).1,
    fun hcompact state choice => (hcongr state choice).2 hcompact⟩
  cases hrow : m.choiceRow state choice with
  | error err =>
    have hrow' := hgrouped.choiceRow_congr hgrouped' state choice
    rw [choiceLabel, choiceLabel, hrow', hrow]
    rfl
  | ok row =>
    obtain ⟨hstate, hchoice, _⟩ := hgrouped.choiceRow_eq_ok_iff.1 hrow
    rw [hm'.grouped.choiceLabel_of_written hwritten (hm'.grouped.choiceRow_eq hstate hchoice),
      hgrouped.choiceLabel_eq_action? hm.labelsFit hfull hstate hchoice]

end LabelledWith

end ChoiceMatrix

end TransitionMatrix
