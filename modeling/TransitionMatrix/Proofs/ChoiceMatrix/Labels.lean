import TransitionMatrix.ChoiceMatrix.Labels
import TransitionMatrix.Proofs.ChoiceMatrix.Rows

/-!
# Attached labels

Labels are written one after another over rows without labels, beside the matrix, and a label that
cannot be written ends the call before the matrix is changed. Where a row belongs to one choice only, a
label takes the place of the earlier labels of its choice and of no others: in the end a choice has the
last label that was given for it. Nothing but the labels of the matrix changes.
-/

namespace TransitionMatrix

namespace Label

/-- The action that labels give to a choice: that of the last label for it. -/
def action? (labels : List Label) (state choice : Nat) : Option Nat :=
  (labels.reverse.find? fun l => l.state = state ∧ l.choice = choice).map action

theorem action?_cons (l : Label) (rest : List Label) (state choice : Nat) :
    action? (l :: rest) state choice = (action? rest state choice).or
      (if l.state = state ∧ l.choice = choice then some l.action else none) := by
  rw [action?, List.reverse_cons, List.find?_append, Option.map_or, action?]
  by_cases hl : l.state = state ∧ l.choice = choice
  · rw [List.find?_cons_of_pos (by simpa using hl), if_pos hl, Option.map_some]
  · rw [List.find?_cons_of_neg (by simpa using hl), if_neg hl]
    rfl

theorem mem_of_action? {labels : List Label} {state choice a : Nat}
    (h : action? labels state choice = some a) : ⟨state, choice, a⟩ ∈ labels := by
  obtain ⟨l, hl, rfl⟩ := Option.map_eq_some_iff.1 h
  have hchoice := List.find?_some hl
  rw [decide_eq_true_eq] at hchoice
  obtain ⟨rfl, rfl⟩ := hchoice
  exact List.mem_reverse.1 (List.mem_of_find?_eq_some hl)

/-- Where the labels for a choice all have one action, the choice gets that action. -/
theorem action?_eq {labels : List Label} {state choice : Nat} {a? : Option Nat}
    (h : ∀ a, ⟨state, choice, a⟩ ∈ labels ↔ a? = some a) : action? labels state choice = a? := by
  cases hl : action? labels state choice with
  | some a => exact ((h a).1 (mem_of_action? hl)).symm
  | none =>
    have hnone := List.find?_eq_none.1 (Option.map_eq_none_iff.1 hl)
    refine (Option.eq_none_iff_forall_ne_some.2 fun a ha => ?_).symm
    have hmem : ⟨state, choice, a⟩ ∈ labels.reverse := List.mem_reverse.2 ((h a).2 ha)
    exact hnone _ hmem (by simp)

/-- What is wrong with a label for a matrix: the state is looked at first. -/
def fault? (m : ChoiceMatrix) (l : Label) : Option Error :=
  if m.numStates ≤ l.state then some (.stateOutOfRange l.state m.numStates)
  else if (m.group l.state).length ≤ l.choice then
    some (.choiceOutOfRange l.state l.choice (m.group l.state).length)
  else none

end Label

namespace ChoiceMatrix

theorem choiceRow_of_lt {m : ChoiceMatrix} {state choice : Nat} (hstate : state < m.numStates)
    (hchoice : choice < (m.group state).length) :
    m.choiceRow state choice = .ok ((m.group state).lo + choice) := by
  rw [choiceRow, choiceRange, checkState, if_pos hstate]
  exact if_pos hchoice

/-- A label finds no row exactly if something is wrong with it. -/
theorem choiceRow_eq_error_iff {m : ChoiceMatrix} {l : Label} {err : Error} :
    m.choiceRow l.state l.choice = .error err ↔ l.fault? m = some err := by
  rw [Label.fault?]
  by_cases hstate : l.state < m.numStates
  · rw [if_neg (by omega)]
    by_cases hchoice : l.choice < (m.group l.state).length
    · rw [choiceRow_of_lt hstate hchoice, if_neg (by omega)]
      simp
    · have hrow : m.choiceRow l.state l.choice
          = .error (.choiceOutOfRange l.state l.choice (m.group l.state).length) := by
        rw [choiceRow, choiceRange, checkState, if_pos hstate]
        exact if_neg hchoice
      rw [hrow, if_pos (by omega), Except.error.injEq, Option.some.injEq]
  · have hrow : m.choiceRow l.state l.choice = .error (.stateOutOfRange l.state m.numStates) := by
      rw [choiceRow, choiceRange, checkState, if_neg hstate]
      rfl
    rw [hrow, if_pos (by omega), Except.error.injEq, Option.some.injEq]

theorem writeLabels_cons {m : ChoiceMatrix} {acc written : Array (Option Nat)} {l : Label}
    {rest : List Label} : m.writeLabels acc (l :: rest) = .ok written ↔
      ∃ row < acc.size, m.choiceRow l.state l.choice = .ok row ∧
        m.writeLabels (acc.setIfInBounds row (some l.action)) rest = .ok written := by
  rw [writeLabels]
  cases m.choiceRow l.state l.choice with
  | error err =>
    constructor
    · intro h
      cases h
    · rintro ⟨_, _, hrow, _⟩
      cases hrow
  | ok row =>
    show (if row < acc.size then _ else _) = _ ↔ _
    by_cases hlt : row < acc.size
    · rw [if_pos hlt]
      constructor
      · intro h
        exact ⟨row, hlt, rfl, h⟩
      · rintro ⟨_, _, hrow, h⟩
        cases hrow
        exact h
    · rw [if_neg hlt]
      constructor
      · intro h
        cases h
      · rintro ⟨_, hlt', hrow, _⟩
        cases hrow
        exact absurd hlt' hlt

theorem size_writeLabels {m : ChoiceMatrix} {acc written : Array (Option Nat)} {labels : List Label}
    (h : m.writeLabels acc labels = .ok written) : written.size = acc.size := by
  induction labels generalizing acc with
  | nil =>
    cases h
    rfl
  | cons l rest ih =>
    obtain ⟨row, _, _, h⟩ := writeLabels_cons.1 h
    rw [ih h, Array.size_setIfInBounds]

theorem writeLabels_congr {m m' : ChoiceMatrix}
    (h : ∀ state choice, m'.choiceRow state choice = m.choiceRow state choice)
    (acc : Array (Option Nat)) (labels : List Label) :
    m'.writeLabels acc labels = m.writeLabels acc labels := by
  induction labels generalizing acc with
  | nil => rfl
  | cons l rest ih => simp only [writeLabels, h, ih]

/-! ## Giving labels to a matrix -/

/-- What is written for labels: one place for each row. -/
def written (m : ChoiceMatrix) (labels : List Label) : Except Error (Array (Option Nat)) :=
  m.writeLabels (Array.replicate m.numChoiceRows none) labels

theorem size_written {m : ChoiceMatrix} {labels : List Label} {array : Array (Option Nat)}
    (h : m.written labels = .ok array) : array.size = m.numChoiceRows := by
  rw [size_writeLabels h, Array.size_replicate]

/-- Labels that are all written become those of the matrix. -/
theorem setLabels_of_ok {m : ChoiceMatrix} {labels : List Label} {array : Array (Option Nat)}
    (h : m.written labels = .ok array) : (setLabels labels).outcome m = .ok () ∧
      (setLabels labels).after m = { m with labels := some array } := by
  have hwrite : (liftM (m.writeLabels (Array.replicate m.numChoiceRows none) labels) :
      Update ChoiceMatrix _).outcome m = .ok array := h
  constructor
  · rw [setLabels, Update.outcome_bind_ok (Update.outcome_get m), Update.after_get,
      Update.outcome_bind_ok hwrite,
      Update.outcome_bind_ok rfl]
    rfl
  · rw [setLabels, Update.after_bind_ok (Update.outcome_get m), Update.after_get,
      Update.after_bind_ok hwrite,
      Update.after_bind_ok rfl]
    rfl

/-- A label that cannot be written leaves the matrix as it is. -/
theorem setLabels_of_error {m : ChoiceMatrix} {labels : List Label} {err : Error}
    (h : m.written labels = .error err) : (setLabels labels).outcome m = .error err ∧
      (setLabels labels).after m = m := by
  have hwrite : (liftM (m.writeLabels (Array.replicate m.numChoiceRows none) labels) :
      Update ChoiceMatrix _).outcome m = .error err := h
  constructor
  · rw [setLabels, Update.outcome_bind_ok (Update.outcome_get m)]
    exact Update.outcome_bind_error hwrite
  · rw [setLabels, Update.after_bind_ok (Update.outcome_get m), Update.after_get,
      Update.after_bind_error hwrite]
    rfl

/-- Labels that are there already play no part when labels are written. -/
theorem written_of_labels (m : ChoiceMatrix) (earlier : Option (Array (Option Nat)))
    (labels : List Label) :
    ({ m with labels := earlier } : ChoiceMatrix).written labels = m.written labels := by
  have hrows : ∀ state choice, ({ m with labels := earlier } : ChoiceMatrix).choiceRow state choice
      = m.choiceRow state choice := fun _ _ => rfl
  exact writeLabels_congr hrows _ labels

namespace Grouped

variable {m : ChoiceMatrix} {numChoices : List Nat} {labels : List Label} {state choice row : Nat}
  {array : Array (Option Nat)} (hm : m.Grouped numChoices)

include hm

/-- Writing labels fails exactly if something is wrong with one of them, for what is wrong with the
first such label. -/
theorem writeLabels_eq_error_iff {acc : Array (Option Nat)} (hsize : acc.size = m.numChoiceRows)
    {err : Error} :
    m.writeLabels acc labels = .error err ↔ labels.findSome? (Label.fault? m) = some err := by
  induction labels generalizing acc with
  | nil =>
    constructor
    · intro h
      cases h
    · intro h
      cases h
  | cons l rest ih =>
    cases hrow : m.choiceRow l.state l.choice with
    | error found =>
      have hfault := choiceRow_eq_error_iff.1 hrow
      rw [List.findSome?_cons_of_isSome (by rw [hfault]; rfl), hfault, writeLabels, hrow]
      show Except.error found = _ ↔ _
      rw [Except.error.injEq, Option.some.injEq]
    | ok row =>
      have hfault : l.fault? m = none := by
        refine Option.eq_none_iff_forall_ne_some.2 fun found hfound => ?_
        rw [choiceRow_eq_error_iff.2 hfound] at hrow
        cases hrow
      have hlt : row < acc.size := by
        rw [hsize]
        exact hm.lt_numChoiceRows hrow
      have hsize' : (acc.setIfInBounds row (some l.action)).size = m.numChoiceRows := by
        rw [Array.size_setIfInBounds, hsize]
      rw [List.findSome?_cons_of_isNone (by rw [hfault]; rfl), ← ih hsize', writeLabels, hrow]
      show (if row < acc.size then _ else _) = _ ↔ _
      rw [if_pos hlt]

theorem written_eq_error_iff {err : Error} :
    m.written labels = .error err ↔ labels.findSome? (Label.fault? m) = some err :=
  hm.writeLabels_eq_error_iff Array.size_replicate

theorem exists_written (h : ∀ l ∈ labels, ∃ row, m.choiceRow l.state l.choice = .ok row) :
    ∃ array, m.written labels = .ok array := by
  cases hwritten : m.written labels with
  | ok array => exact ⟨array, rfl⟩
  | error err =>
    obtain ⟨l, hl, hfault⟩ := List.exists_of_findSome?_eq_some (hm.written_eq_error_iff.1 hwritten)
    obtain ⟨row, hrow⟩ := h l hl
    cases hrow.symm.trans (choiceRow_eq_error_iff.2 hfault)

/-- A row has the last label for its choice, or the one that it had. -/
theorem join_writeLabels {acc : Array (Option Nat)} (h : m.writeLabels acc labels = .ok array)
    (hsize : acc.size = m.numChoiceRows) (hrow : m.choiceRow state choice = .ok row) :
    array[row]?.join = (Label.action? labels state choice).or acc[row]?.join := by
  have hlt := hm.lt_numChoiceRows hrow
  induction labels generalizing acc with
  | nil =>
    cases h
    rfl
  | cons l rest ih =>
    obtain ⟨row', _, hrow', h⟩ := writeLabels_cons.1 h
    rw [ih h (by simpa using hsize), Label.action?_cons, Option.or_assoc]
    congr 1
    by_cases hl : l.state = state ∧ l.choice = choice
    · -- the label is written to the row itself
      obtain ⟨rfl, rfl⟩ := hl
      have heq : row' = row := Except.ok.inj (hrow'.symm.trans hrow)
      rw [heq, if_pos ⟨rfl, rfl⟩, Array.getElem?_setIfInBounds_self, if_pos (by omega)]
      rfl
    · have hne : row' ≠ row := by
        rintro rfl
        exact hl (hm.choiceRow_inj hrow' hrow)
      rw [if_neg hl, Array.getElem?_setIfInBounds_ne hne, Option.none_or]

/-- Rows that are grouped in the same way get the same labels. -/
theorem written_congr {other : ChoiceMatrix} (hother : other.Grouped numChoices) :
    other.written labels = m.written labels := by
  have hrows : other.numChoiceRows = m.numChoiceRows := by
    rw [hother.numChoiceRows_eq, hm.numChoiceRows_eq]
  rw [written, written, hrows, writeLabels_congr (hm.choiceRow_congr hother)]

theorem of_labels (earlier : Option (Array (Option Nat))) :
    ({ m with labels := earlier } : ChoiceMatrix).Grouped numChoices :=
  ⟨hm.sum_lt, hm.numStates_eq, hm.groupSpans_eq, hm.numChoiceRows_eq⟩

/-- A choice has the last label for it, and none without one. -/
theorem choiceLabel_of_written (h : m.written labels = .ok array)
    (hrow : m.choiceRow state choice = .ok row) :
    ({ m with labels := some array } : ChoiceMatrix).choiceLabel state choice
      = .ok (Label.action? labels state choice) := by
  have hlt := hm.lt_numChoiceRows hrow
  have hjoin := hm.join_writeLabels h Array.size_replicate hrow
  have hempty : (Array.replicate m.numChoiceRows (none : Option Nat))[row]?.join = none := by
    rw [Array.getElem?_replicate, if_pos hlt]
    rfl
  have hplace : row < array.size := by
    rw [size_written h]
    exact hlt
  rw [hempty, Option.or_none, Array.getElem?_eq_getElem hplace, Option.join_some] at hjoin
  have hrow' : ({ m with labels := some array } : ChoiceMatrix).choiceRow state choice = .ok row := hrow
  rw [choiceLabel, hrow', ← hjoin]
  show array[row]?.elim _ Except.ok = _
  rw [Array.getElem?_eq_getElem hplace, Option.elim_some]

end Grouped

end ChoiceMatrix

end TransitionMatrix
