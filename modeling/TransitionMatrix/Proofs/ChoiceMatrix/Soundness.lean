import TransitionMatrix.Proofs.ChoiceMatrix.Groups
import TransitionMatrix.Proofs.Matrix.Soundness

/-!
# Sound matrices with choices

Choices are grouped under states as entries are under rows, so that the choices of the last state end
at the last row, and there are no labels or one place for each row. If the numbers of choices add up to
a word, no state ends before it begins, and then queries only look at places that are there.
-/

namespace TransitionMatrix

namespace ChoiceMatrix

/-- There are no labels, or one place for each row. -/
def LabelsFit (m : ChoiceMatrix) : Prop :=
  ∀ labels, m.labels = some labels → labels.size = m.numChoiceRows

/-- The parts of the matrix fit together. -/
structure Sound (m : ChoiceMatrix) : Prop where
  choices : m.choices.Sound
  numStates_eq : m.groups.numRows = m.numStates
  /-- The boundaries are those of the stored numbers of choices. -/
  groupSpans_eq : m.groupSpans = RowSpans.ofExtents m.groups
  /-- The states follow one another from the first row to the last. -/
  chained : m.groupSpans.Chained m.numStates m.numChoiceRows
  /-- Entries lead to states. -/
  numCols_eq : m.choices.numCols = m.numStates
  labels : m.LabelsFit

/-- Queries on a state that is there look at rows and labels that are there. -/
structure InBounds (m : ChoiceMatrix) : Prop where
  choices : m.choices.InBounds
  group : ∀ state < m.numStates, m.groupSpans.span? state = some (m.group state)
  row : ∀ state < m.numStates, ∀ row ∈ (m.group state).positions, row < m.choices.numRows
  firstEntry : ∀ state < m.numStates, m.groups.firstEntry? state = some (m.group state).lo
  label : ∀ labels, m.labels = some labels →
    ∀ row < m.choices.numRows, ∃ label, labels[row]? = some label

theorem Assembled.sound {m : ChoiceMatrix} {numChoices : List Nat} {entries : List ChoiceEntry}
    {options : Options} (hm : m.Assembled numChoices entries options) : m.Sound := by
  have hbuilt := Matrix.built_of_rectangular hm.choices
  have hchained := RowSpans.chained_consecutive numChoices
  rw [← hm.groupSpans_eq, ← hm.numStates_eq, ← hm.numChoiceRows_eq] at hchained
  refine ⟨hbuilt.sound, ?_, ?_, hchained, ?_, fun labels hlabels => ?_⟩
  · rw [RowExtents.numRows_of_ofLengths hm.groups, hm.numStates_eq]
  · rw [RowSpans.ofExtents_eq_consecutive hm.groups, hm.groupSpans_eq]
  · rw [hbuilt.numCols_eq, hm.numStates_eq]
  · rw [hm.labels_eq] at hlabels
    cases hlabels

/-- The states cover the rows. -/
theorem Grouped.covers {m : ChoiceMatrix} {numChoices : List Nat} (hm : m.Grouped numChoices) :
    m.groupSpans.Covers m.numStates m.numChoiceRows := by
  rw [hm.groupSpans_eq, hm.numStates_eq, hm.numChoiceRows_eq]
  exact RowSpans.covers_ofLengths numChoices

namespace Sound

variable {m : ChoiceMatrix} (h : m.Sound)

include h

/-- Labels for all rows take the place of others. -/
theorem of_labels {labels : Array (Option Nat)} (hsize : labels.size = m.numChoiceRows) :
    ({ m with labels := some labels } : ChoiceMatrix).Sound where
  choices := h.choices
  numStates_eq := h.numStates_eq
  groupSpans_eq := h.groupSpans_eq
  chained := h.chained
  numCols_eq := h.numCols_eq
  labels := by
    rintro _ ⟨⟩
    exact hsize

theorem span?_group {state : Nat} (hstate : state < m.numStates) :
    m.groupSpans.span? state = some (m.group state) := by
  obtain ⟨s, hs⟩ := h.chained.exists_span? hstate
  rw [group, hs, Option.getD_some]

/-- The stored numbers of choices lead to the beginning of the state's rows. -/
theorem firstEntry?_group {state : Nat} (hstate : state < m.numStates) :
    m.groups.firstEntry? state = some (m.group state).lo := by
  apply RowSpans.firstEntry?_of_span?
  rw [← h.groupSpans_eq]
  exact h.span?_group hstate

theorem getElem?_label {labels : Array (Option Nat)} (hlabels : m.labels = some labels) {row : Nat}
    (hrow : row < m.numChoiceRows) : ∃ label, labels[row]? = some label := by
  have hlt : row < labels.size := by
    rw [h.labels labels hlabels]
    exact hrow
  exact ⟨labels[row], Array.getElem?_eq_getElem hlt⟩

theorem inBounds (hcovers : m.groupSpans.Covers m.numStates m.numChoiceRows) : m.InBounds := by
  refine ⟨h.choices.inBounds, fun state => h.span?_group, fun state hstate row hrow => ?_,
    fun state => h.firstEntry?_group, fun labels hlabels row => h.getElem?_label hlabels⟩
  have hend := hcovers.hi_le_total (h.span?_group hstate)
  obtain ⟨_, hlt⟩ := Span.mem_positions.1 hrow
  exact Nat.lt_of_lt_of_le hlt hend

/-! ## Looking up labels -/

/-- A row that is there has a place among the labels. -/
theorem exists_rowLabel {row : Nat} (hrow : row < m.numChoiceRows) :
    ∃ label, m.rowLabel row = .ok label ∧
      ∀ labels, m.labels = some labels → labels[row]? = some label := by
  cases hlabels : m.labels with
  | none =>
    refine ⟨none, by rw [rowLabel, hlabels], fun labels h => ?_⟩
    cases h
  | some labels =>
    obtain ⟨label, hlabel⟩ := h.getElem?_label hlabels hrow
    refine ⟨label, by rw [rowLabel, hlabels]; simp [hlabel], fun labels' h => ?_⟩
    cases h
    exact hlabel

/-- The label of a first choice is looked up at the beginning of the state's rows. -/
theorem firstLabel_of_lt {state : Nat} (hstate : state < m.numStates) (choice : Nat) :
    m.firstLabel state choice = if m.labels.isNone || (m.group state).width == 0 then .ok none
      else m.rowLabel (m.group state).lo := by
  rw [firstLabel, checkState, if_pos hstate]
  show (if _ then _ else _) = _
  rw [h.firstEntry?_group hstate]
  rfl

end Sound

theorem firstLabel_of_le {m : ChoiceMatrix} {state : Nat} (hstate : m.numStates ≤ state)
    (choice : Nat) : m.firstLabel state choice = .error (.stateOutOfRange state m.numStates) := by
  rw [firstLabel, checkState, if_neg (Nat.not_lt.2 hstate)]
  rfl

/-- The first row of a state that has choices is there. -/
theorem Grouped.lo_group_lt {m : ChoiceMatrix} {numChoices : List Nat} (hm : m.Grouped numChoices)
    {state : Nat} (hstate : state < m.numStates) (hpos : 0 < (m.group state).width) :
    (m.group state).lo < m.numChoiceRows := by
  rw [hm.numStates_eq] at hstate
  rw [hm.width_group hstate] at hpos
  rw [hm.group_eq hstate]
  exact hm.lt_numChoiceRows (hm.choiceRow_eq hstate hpos)

section Grouped

variable {m : ChoiceMatrix} {numChoices : List Nat} (h : m.Sound) (hm : m.Grouped numChoices)

include h hm

theorem Sound.choiceLabel_ne_outOfBounds (state choice position size : Nat) :
    m.choiceLabel state choice ≠ .error (.outOfBounds position size) := by
  intro herror
  rw [choiceLabel] at herror
  rcases Nat.lt_or_ge state numChoices.length with hstate | hstate
  · rcases Nat.lt_or_ge choice numChoices[state] with hchoice | hchoice
    · have hrow := hm.choiceRow_eq hstate hchoice
      obtain ⟨label, hlabel, _⟩ := h.exists_rowLabel (hm.lt_numChoiceRows hrow)
      rw [hrow] at herror
      cases hlabel.symm.trans herror
    · rw [hm.choiceRow_of_le hstate hchoice] at herror
      cases herror
  · rw [hm.choiceRow_of_length_le hstate] at herror
    cases herror

theorem Sound.firstLabel_ne_outOfBounds (state choice position size : Nat) :
    m.firstLabel state choice ≠ .error (.outOfBounds position size) := by
  intro herror
  rcases Nat.lt_or_ge state m.numStates with hstate | hstate
  · rw [h.firstLabel_of_lt hstate] at herror
    split at herror
    · cases herror
    · rename_i hlabelled
      have hpos : 0 < (m.group state).width := by
        simp only [Bool.or_eq_true, beq_iff_eq, not_or] at hlabelled
        omega
      obtain ⟨label, hlabel, _⟩ := h.exists_rowLabel (hm.lo_group_lt hstate hpos)
      cases hlabel.symm.trans herror
  · rw [firstLabel_of_le hstate] at herror
    cases herror

end Grouped

end ChoiceMatrix

end TransitionMatrix
