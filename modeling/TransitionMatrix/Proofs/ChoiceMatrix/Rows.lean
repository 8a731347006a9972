import TransitionMatrix.Proofs.ChoiceMatrix.Groups

/-!
# Rows of a matrix with choices

A choice of a matrix that could be built lists the entries that came for it, in the order in which
they came, whatever the form of storage and wherever empty choices and states without choices lie.
The row-major sequence of the rows is that of the choices, so also the zero that the compact form
gives back is found without looking at rows. Numbers of choices that do not add up to a word are not
refused, and then choices of different states share a row.
-/

namespace TransitionMatrix

/-- Numbering the positions of consecutive rows through goes row by row. -/
theorem map_range_sum {α : Type} (lengths : List Nat) (f : Nat → α) :
    (List.range lengths.sum).map f = (lengths.mapIdx fun i length =>
      (List.range length).map fun k => f (RowSpans.offset lengths i + k)).flatten := by
  induction lengths generalizing f with
  | nil => rfl
  | cons length rest ih =>
    have htail : (List.range rest.sum).map (fun position => f (length + position))
        = (rest.mapIdx fun i l => (List.range l).map fun k =>
            f (RowSpans.offset (length :: rest) (i + 1) + k)).flatten := by
      rw [ih]
      simp only [RowSpans.offset_cons_succ, Nat.add_assoc]
    have hhead : RowSpans.offset (length :: rest) 0 = 0 := rfl
    rw [List.sum_cons, List.range_add, List.map_append, List.map_map, List.mapIdx_cons,
      List.flatten_cons, ← htail, hhead]
    simp only [Nat.zero_add]
    rfl

namespace ChoiceEntry

/-- The cells of all choices, state after state and choice after choice. -/
def rowMajor (numChoices : List Nat) (entries : List ChoiceEntry) : List Cell :=
  (numChoices.mapIdx fun state count =>
    ((List.range count).map fun choice => rowOf state choice entries).flatten).flatten

/-- What a choice of a matrix that is stored in the given form reads back as. -/
def storedRow (compact : Bool) (numChoices : List Nat) (entries : List ChoiceEntry)
    (state choice : Nat) : List Cell :=
  if compact then
    (rowOf state choice entries).map (Cell.withZero (Cell.firstZero (rowMajor numChoices entries)))
  else rowOf state choice entries

section InRange

variable {numChoices : List Nat} {entries : List ChoiceEntry} (hfit : numChoices.sum < Word.size)
  (hentries : InRange numChoices entries)

include hfit hentries

/-- The rows hold the cells of the choices, in the same sequence. -/
theorem rowMajor_map_toEntry :
    Entry.rowMajor numChoices.sum (entries.map (toEntry (RowSpans.ofLengths numChoices)))
      = rowMajor numChoices entries := by
  rw [Entry.rowMajor, map_range_sum, List.flatten_flatten, rowMajor]
  congr 1
  refine List.ext_getElem (by simp) fun state hstate _ => ?_
  have hlt : state < numChoices.length := by simpa using hstate
  rw [List.getElem_map, List.getElem_mapIdx, List.getElem_mapIdx]
  congr 1
  refine List.map_congr_left fun choice hchoice => ?_
  exact rowOf_map_toEntry hfit hentries hlt (List.mem_range.1 hchoice)

theorem storedRow_map_toEntry (compact : Bool) {state choice : Nat}
    (hstate : state < numChoices.length) (hchoice : choice < numChoices[state]) :
    Entry.storedRow compact numChoices.sum (entries.map (toEntry (RowSpans.ofLengths numChoices)))
        (RowSpans.offset numChoices state + choice)
      = storedRow compact numChoices entries state choice := by
  rw [Entry.storedRow, storedRow, rowMajor_map_toEntry hfit hentries,
    rowOf_map_toEntry hfit hentries hstate hchoice]

/-- Which zero a choice reads back does not show in the keys. -/
theorem map_key_storedRow (compact : Bool) {state choice : Nat} (hstate : state < numChoices.length)
    (hchoice : choice < numChoices[state]) :
    (storedRow compact numChoices entries state choice).map Cell.key
      = (rowOf state choice entries).map Cell.key := by
  have hrow := RowSpans.offset_add_lt_sum hstate hchoice
  rw [← storedRow_map_toEntry hfit hentries compact hstate hchoice,
    Entry.map_key_storedRow compact _ hrow, rowOf_map_toEntry hfit hentries hstate hchoice]

end InRange

/-! ## Choices that entries ask for -/

/-- The number of choices that entries ask for in a state: one more than the largest choice, and none
without entries. -/
def asked (entries : List ChoiceEntry) (state : Nat) : Nat :=
  (((entries.filter fun e => e.state = state).map choice).max?.map (· + 1)).getD 0

theorem asked_le_iff {entries : List ChoiceEntry} {state count : Nat} :
    asked entries state ≤ count ↔ ∀ e ∈ entries, e.state = state → e.choice + 1 ≤ count := by
  have hmem : ∀ k, k ∈ (entries.filter fun e => e.state = state).map choice ↔
      ∃ e ∈ entries, e.state = state ∧ e.choice = k := by
    intro k
    simp only [List.mem_map, List.mem_filter, decide_eq_true_eq, and_assoc]
  rw [asked]
  cases hmax : ((entries.filter fun e => e.state = state).map choice).max? with
  | none =>
    have hnil := List.max?_eq_none_iff.1 hmax
    refine ⟨fun _ e he hstate => ?_, fun _ => Nat.zero_le _⟩
    have he' := (hmem e.choice).2 ⟨e, he, hstate, rfl⟩
    rw [hnil] at he'
    cases he'
  | some largest =>
    obtain ⟨hin, hle⟩ := List.max?_eq_some_iff.1 hmax
    rw [Option.map_some, Option.getD_some]
    constructor
    · intro hcount e he hstate
      have := hle e.choice ((hmem e.choice).2 ⟨e, he, hstate, rfl⟩)
      omega
    · intro hall
      obtain ⟨e, he, hstate, rfl⟩ := (hmem largest).1 hin
      exact hall e he hstate

theorem countChoices_toList (n : Nat) (entries : List ChoiceEntry) :
    (countChoices n entries).toList = (List.range n).map (asked entries) := by
  have hsize : (countChoices n entries).size = n := by
    rw [countChoices, size_foldl_modify_max state (fun e => e.choice + 1), Array.size_replicate]
  refine List.ext_getElem (by simp [hsize]) fun i hi _ => ?_
  have hlt : i < n := by simpa [hsize] using hi
  refine eq_of_forall_ge_iff fun count => ?_
  have hle := foldl_modify_max_le state (fun e => e.choice + 1) entries (Array.replicate n 0)
    (b := count) (show i < _ by simpa using hlt)
  rw [Array.getElem_toList, Array.getElem_eq_getD 0, countChoices, hle]
  simp [hlt, asked_le_iff]

theorem findSome?_countFault {n : Nat} {entries : List ChoiceEntry} :
    entries.findSome? (countFault? n) = none ↔
      ∀ e ∈ entries, e.state < n ∧ e.choice < choiceLimit := by
  rw [List.findSome?_eq_none_iff]
  refine forall₂_congr fun e _ => ?_
  unfold countFault?
  by_cases hstate : n ≤ e.state
  · simp [hstate]
  · by_cases hchoice : choiceLimit ≤ e.choice
    · simp [hstate, hchoice]
    · simp [hstate, hchoice]
      omega

end ChoiceEntry

namespace ChoiceMatrix

/-! ## Reading -/

namespace Grouped

variable {m m' : ChoiceMatrix} {numChoices : List Nat} (hm : m.Grouped numChoices)
  (hm' : m'.Grouped numChoices)

include hm hm'

theorem choiceRange_congr (state : Nat) : m'.choiceRange state = m.choiceRange state := by
  simp only [choiceRange, checkState, group, hm.numStates_eq, hm'.numStates_eq, hm.groupSpans_eq,
    hm'.groupSpans_eq]

theorem numChoices_congr (state : Nat) : m'.numChoices state = m.numChoices state := by
  simp only [ChoiceMatrix.numChoices, checkState, group, hm.numStates_eq, hm'.numStates_eq,
    hm.groupSpans_eq, hm'.groupSpans_eq]

theorem choiceRow_congr (state choice : Nat) : m'.choiceRow state choice = m.choiceRow state choice := by
  rw [choiceRow, hm.choiceRange_congr hm', choiceRow]

end Grouped

namespace Built

variable {m m' : ChoiceMatrix} {numChoices : List Nat} {entries : List ChoiceEntry}
  {options options' : Options} (hm : m.Built numChoices entries options)

include hm

/-- A choice reads back as its entries, in the order in which they came. -/
theorem choice_eq_storedRow {state : Nat} (hstate : state < numChoices.length) {choice : Nat}
    (hchoice : choice < numChoices[state]) : m.choice state choice
      = .ok (ChoiceEntry.storedRow m.choices.isCompact numChoices entries state choice) := by
  have hrow := RowSpans.offset_add_lt_sum hstate hchoice
  rw [ChoiceMatrix.choice, hm.choiceRow_eq hstate hchoice]
  show m.choices.row _ = _
  rw [(Matrix.built_of_rectangular hm.choices).row_eq hrow,
    ChoiceEntry.storedRow_map_toEntry hm.sum_lt hm.inRange _ hstate hchoice]

theorem choice_of_le {state : Nat} (hstate : state < numChoices.length) {choice : Nat}
    (hchoice : numChoices[state] ≤ choice) :
    m.choice state choice = .error (.choiceOutOfRange state choice numChoices[state]) := by
  rw [ChoiceMatrix.choice, hm.grouped.choiceRow_of_le hstate hchoice]
  rfl

/-- A choice has the same entries in whatever form it is stored, up to the zero that is given back. -/
theorem choice_congr (hm' : m'.Built numChoices entries options') (state choice : Nat) :
    (m'.choice state choice).map (List.map Cell.key)
      = (m.choice state choice).map (List.map Cell.key) ∧
    (m'.choices.isCompact = m.choices.isCompact →
      m'.choice state choice = m.choice state choice) := by
  have hrows := hm.grouped.choiceRow_congr hm'.grouped state choice
  cases hrow : m.choiceRow state choice with
  | error err =>
    have hchoice : m.choice state choice = .error err := by rw [ChoiceMatrix.choice, hrow]; rfl
    have hchoice' : m'.choice state choice = .error err := by
      rw [ChoiceMatrix.choice, hrows, hrow]
      rfl
    exact ⟨by rw [hchoice, hchoice'], fun _ => by rw [hchoice, hchoice']⟩
  | ok row =>
    obtain ⟨hstate, hlt, _⟩ := hm.grouped.choiceRow_eq_ok_iff.1 hrow
    have hkeys := fun compact => ChoiceEntry.map_key_storedRow hm.sum_lt hm.inRange compact hstate hlt
    rw [hm.choice_eq_storedRow hstate hlt, hm'.choice_eq_storedRow hstate hlt]
    refine ⟨?_, fun hform => by rw [hform]⟩
    show Except.ok _ = Except.ok _
    rw [hkeys, hkeys]

end Built

/-- Counting the choices first and then building is building with the counted choices, if the counts
are words. -/
theorem ofEntries_eq_ok_iff {n : Nat} {entries : List ChoiceEntry} {options : Options}
    {m : ChoiceMatrix} : (ofEntries n entries options).result = .ok m ↔
      (∀ e ∈ entries, e.choice < ChoiceEntry.choiceLimit) ∧
      (ofGroups ((List.range n).map (ChoiceEntry.asked entries)) entries options).result = .ok m := by
  rw [← ChoiceEntry.countChoices_toList]
  constructor
  · intro h
    obtain ⟨_, _, h⟩ := Traced.result_bind_eq_ok_iff.1 h
    obtain ⟨_, hfault, h⟩ := Traced.result_bind_eq_ok_iff.1 h
    have hcounted := ChoiceEntry.findSome?_countFault.1 (Error.raise_eq_ok_iff.1 hfault)
    exact ⟨fun e he => (hcounted e he).2, h⟩
  · rintro ⟨hchoice, h⟩
    have hm := assembled_of_ofGroups h
    have hlength : (ChoiceEntry.countChoices n entries).toList.length = n := by
      rw [ChoiceEntry.countChoices_toList, List.length_map, List.length_range]
    have hstate : ∀ e ∈ entries, e.state < n := by
      intro e he
      obtain ⟨count, hcount, _⟩ := hm.inRange e he
      rw [← hlength]
      exact (List.getElem?_eq_some_iff.1 hcount).1
    have hstates : n < Reservation.limit := by
      have hle := (Matrix.built_of_rectangular hm.choices).numCols_le
      have hmax : Matrix.maxStates < Reservation.limit := by decide
      omega
    refine Traced.result_bind_eq_ok_iff.2 ⟨(), if_pos hstates, ?_⟩
    refine Traced.result_bind_eq_ok_iff.2 ⟨(), Error.raise_eq_ok_iff.2 ?_, h⟩
    exact ChoiceEntry.findSome?_countFault.2 fun e he => ⟨hstate e he, hchoice e he⟩

/-! ## What a matrix with choices answers -/

/-- Entries that ask for two choices, for one choice less than there are words, and for one choice.
That makes two choices more than there are words, so that counting them ends at two, and the row of the
last state is one of the first state's. -/
def wrapped : List ChoiceEntry :=
  [⟨0, 1, 0, .one⟩, ⟨1, 2 ^ 64 - 2, 0, ⟨0x3fe0000000000000⟩⟩, ⟨2, 0, 0, ⟨0x3fd0000000000000⟩⟩]

/-- The matrix of the wrapped entries, over the matrix of its rows. -/
def wrappedMatrix (choices : Matrix) : ChoiceMatrix :=
  ⟨3, choices, .starts #[0, 2, 1, 2], ⟨#[⟨0, 2⟩, ⟨2, 1⟩, ⟨1, 2⟩]⟩, none⟩

/-- The wrapped entries are not refused. They are put in two rows. -/
theorem exists_wrappedMatrix : ∃ choices,
    (ofEntries 3 wrapped {}).result = .ok (wrappedMatrix choices) ∧
    choices.Built 2 3 [⟨1, 0, .one⟩, ⟨0, 0, ⟨0x3fe0000000000000⟩⟩, ⟨1, 0, ⟨0x3fd0000000000000⟩⟩] {} := by
  obtain ⟨choices, hchoices⟩ : ∃ choices, (Matrix.rectangular 2 3 [⟨1, 0, .one⟩,
      ⟨0, 0, ⟨0x3fe0000000000000⟩⟩, ⟨1, 0, ⟨0x3fd0000000000000⟩⟩] {}).result = .ok choices :=
    Matrix.exists_rectangular rfl (by decide) (by decide) (by unfold Matrix.InRange; decide)
      (by decide) (by decide)
  refine ⟨choices, ofEntries_eq_ok_iff.2 ⟨by decide, ?_⟩, Matrix.built_of_rectangular hchoices⟩
  have hasked : (List.range 3).map (ChoiceEntry.asked wrapped) = [2, 2 ^ 64 - 1, 1] := by decide
  rw [hasked]
  refine Traced.result_bind_eq_ok_iff.2 ⟨(), rfl, ?_⟩
  refine Traced.result_bind_eq_ok_iff.2 ⟨(), rfl, ?_⟩
  refine Traced.result_bind_eq_ok_iff.2 ⟨.starts #[0, 2, 1, 2], rfl, ?_⟩
  refine Traced.result_bind_eq_ok_iff.2 ⟨(), rfl, ?_⟩
  refine Traced.result_bind_eq_ok_iff.2 ⟨choices, hchoices, ?_⟩
  exact Traced.result_bind_eq_ok_iff.2 ⟨(), rfl, rfl⟩

end ChoiceMatrix

end TransitionMatrix
