import TransitionMatrix.ChoiceMatrix.Build
import TransitionMatrix.ChoiceMatrix.Query
import TransitionMatrix.Proofs.Matrix.Rows

/-!
# Choices of a built matrix

A matrix with choices that could be built answers for each choice of each state what the list of
entries says for it. The choices of a state are consecutive rows, and every row is one choice of one
state. All of this is so as long as the numbers of choices add up to a word: the offsets of the states
are words, and nothing stops their sums from starting again at zero.
-/

namespace TransitionMatrix

namespace ChoiceEntry

/-- What a list of entries puts in one choice. -/
def rowOf (state choice : Nat) (entries : List ChoiceEntry) : List Cell :=
  entries.filterMap fun e =>
    if e.state = state ∧ e.choice = choice then some ⟨e.dst, e.weight⟩ else none

/-- Every entry is one of a choice that is there. -/
def InRange (numChoices : List Nat) (entries : List ChoiceEntry) : Prop :=
  ∀ e ∈ entries, ∃ count, numChoices[e.state]? = some count ∧ e.choice < count

theorem findSome?_fault {numChoices : List Nat} {entries : List ChoiceEntry} :
    entries.findSome? (fault? numChoices.toArray) = none ↔ InRange numChoices entries := by
  rw [List.findSome?_eq_none_iff]
  refine forall₂_congr fun e _ => ?_
  unfold fault?
  rw [List.getElem?_toArray]
  cases hcount : numChoices[e.state]? with
  | none => simp
  | some count =>
    by_cases hlt : e.choice < count
    · simp [hlt]
    · simp [hlt]

theorem src_toEntry {numChoices : List Nat} {e : ChoiceEntry} (hstate : e.state < numChoices.length) :
    (toEntry (RowSpans.ofLengths numChoices) e).src
      = Word.add (RowSpans.offset numChoices e.state) e.choice := by
  rw [toEntry, RowSpans.span?_ofLengths hstate]
  rfl

/-- The entries of a choice are those of its row. -/
theorem rowOf_map_toEntry {numChoices : List Nat} (hfit : numChoices.sum < Word.size)
    {entries : List ChoiceEntry} (hentries : InRange numChoices entries) {state choice : Nat}
    (hstate : state < numChoices.length) (hchoice : choice < numChoices[state]) :
    Entry.rowOf (RowSpans.offset numChoices state + choice)
        (entries.map (toEntry (RowSpans.ofLengths numChoices)))
      = rowOf state choice entries := by
  rw [Entry.rowOf, rowOf, List.filterMap_map]
  refine List.filterMap_congr fun e he => ?_
  obtain ⟨count, hcount, hlt⟩ := hentries e he
  obtain ⟨hlen, rfl⟩ := List.getElem?_eq_some_iff.1 hcount
  have hsrc : (toEntry (RowSpans.ofLengths numChoices) e).src
      = RowSpans.offset numChoices e.state + e.choice := by
    have hsum := RowSpans.offset_add_lt_sum hlen hlt
    rw [src_toEntry hlen, Word.add_eq (by omega)]
  by_cases heq : e.state = state ∧ e.choice = choice
  · rw [if_pos heq, Function.comp_apply, if_pos]
    · rfl
    · rw [hsrc, heq.1, heq.2]
  · rw [if_neg heq, Function.comp_apply, if_neg]
    rw [hsrc]
    intro hrow
    exact heq (RowSpans.offset_add_inj hlen hstate hlt hchoice hrow)

/-- The rows of choices that are there are in range. -/
theorem inRange_map_toEntry {numChoices : List Nat} {entries : List ChoiceEntry}
    (hentries : InRange numChoices entries) (hdst : ∀ e ∈ entries, e.dst < numChoices.length) :
    Matrix.InRange numChoices.sum numChoices.length
      (entries.map (toEntry (RowSpans.ofLengths numChoices))) := by
  intro entry hentry
  obtain ⟨e, he, rfl⟩ := List.mem_map.1 hentry
  obtain ⟨count, hcount, hlt⟩ := hentries e he
  obtain ⟨hlen, rfl⟩ := List.getElem?_eq_some_iff.1 hcount
  refine ⟨?_, hdst e he⟩
  rw [src_toEntry hlen]
  exact Nat.lt_of_le_of_lt (Word.add_le _ _) (RowSpans.offset_add_lt_sum hlen hlt)

end ChoiceEntry

/-! ## Counting choices -/

theorem size_foldl_modify_max {α : Type} (state bound : α → Nat) (xs : List α)
    (counts : Array Nat) :
    (xs.foldl (fun counts x => counts.modify (state x) (max · (bound x))) counts).size
      = counts.size := by
  induction xs generalizing counts with
  | nil => rfl
  | cons x xs ih => rw [List.foldl_cons, ih, Array.size_modify]

/-- Raising the count of one state after the other gives each state the least count above all its
bounds. -/
theorem foldl_modify_max_le {α : Type} (state bound : α → Nat) (xs : List α) (counts : Array Nat)
    {i b : Nat} (hi : i < counts.size) :
    (xs.foldl (fun counts x => counts.modify (state x) (max · (bound x))) counts).getD i 0 ≤ b ↔
      counts.getD i 0 ≤ b ∧ ∀ x ∈ xs, state x = i → bound x ≤ b := by
  induction xs generalizing counts with
  | nil => simp
  | cons x xs ih =>
    have hmodify : (counts.modify (state x) (max · (bound x))).getD i 0
        = if state x = i then max (counts.getD i 0) (bound x) else counts.getD i 0 := by
      rw [Array.getD_eq_getD_getElem?, Array.getD_eq_getD_getElem?, Array.getElem?_modify,
        Array.getElem?_eq_getElem hi]
      split
      · rfl
      · rfl
    rw [List.foldl_cons, ih _ (by simpa using hi), List.forall_mem_cons, ← and_assoc, hmodify]
    refine and_congr_left fun _ => ?_
    by_cases hx : state x = i
    · rw [if_pos hx, Nat.max_le]
      exact and_congr_right fun _ => ⟨fun hle _ => hle, fun hle => hle hx⟩
    · rw [if_neg hx]
      exact ⟨fun hle => ⟨hle, fun heq => absurd heq hx⟩, fun hle => hle.1⟩

namespace ChoiceMatrix

/-! ## Building -/

/-- The matrix is the one that is put together from the entries grouped by choice, with offsets that
are words. -/
structure Assembled (m : ChoiceMatrix) (numChoices : List Nat) (entries : List ChoiceEntry)
    (options : Options) : Prop where
  /-- Every entry is one of a choice that is there. -/
  inRange : ChoiceEntry.InRange numChoices entries
  numStates_eq : m.numStates = numChoices.length
  /-- The stored numbers of choices are the given ones. -/
  groups : (RowExtents.ofLengths numChoices options.rowEncoding).result = .ok m.groups
  groupSpans_eq : m.groupSpans = ⟨(RowSpans.consecutive 0 numChoices).toArray⟩
  choices : (Matrix.rectangular (Word.sum 0 numChoices) numChoices.length
    (entries.map (ChoiceEntry.toEntry m.groupSpans)) options).result = .ok m.choices
  labels_eq : m.labels = none

theorem assembled_of_ofGroups {numChoices : List Nat} {entries : List ChoiceEntry}
    {options : Options} {m : ChoiceMatrix} (h : (ofGroups numChoices entries options).result = .ok m) :
    m.Assembled numChoices entries options := by
  obtain ⟨_, hfault, h⟩ := Traced.result_bind_eq_ok_iff.1 h
  obtain ⟨_, _, h⟩ := Traced.result_bind_eq_ok_iff.1 h
  obtain ⟨groups, hgroups, h⟩ := Traced.result_bind_eq_ok_iff.1 h
  obtain ⟨_, _, h⟩ := Traced.result_bind_eq_ok_iff.1 h
  obtain ⟨choices, hchoices, h⟩ := Traced.result_bind_eq_ok_iff.1 h
  obtain ⟨_, _, h⟩ := Traced.result_bind_eq_ok_iff.1 h
  have hm : m = ⟨numChoices.length, choices, groups, RowSpans.ofExtents groups, none⟩ :=
    (Except.ok.inj h).symm
  subst hm
  exact ⟨ChoiceEntry.findSome?_fault.1 (Error.raise_eq_ok_iff.1 hfault), rfl, hgroups,
    RowSpans.ofExtents_eq_consecutive hgroups, hchoices, rfl⟩

/-- The matrix is the one that is put together from the entries grouped by choice, and its rows are as
many as there are choices. -/
structure Built (m : ChoiceMatrix) (numChoices : List Nat) (entries : List ChoiceEntry)
    (options : Options) : Prop where
  /-- The number of all choices is a word. -/
  sum_lt : numChoices.sum < Word.size
  /-- Every entry is one of a choice that is there. -/
  inRange : ChoiceEntry.InRange numChoices entries
  numStates_eq : m.numStates = numChoices.length
  /-- The stored numbers of choices are the given ones. -/
  groups : (RowExtents.ofLengths numChoices options.rowEncoding).result = .ok m.groups
  /-- The choices of a state are consecutive rows. -/
  groupSpans_eq : m.groupSpans = RowSpans.ofLengths numChoices
  /-- Each choice is a row of its own. -/
  choices : (Matrix.rectangular numChoices.sum numChoices.length
    (entries.map (ChoiceEntry.toEntry (RowSpans.ofLengths numChoices))) options).result
      = .ok m.choices
  labels_eq : m.labels = none

theorem Assembled.built {m : ChoiceMatrix} {numChoices : List Nat} {entries : List ChoiceEntry}
    {options : Options} (hm : m.Assembled numChoices entries options)
    (hfit : numChoices.sum < Word.size) : m.Built numChoices entries options := by
  have hspans : m.groupSpans = RowSpans.ofLengths numChoices := by
    rw [hm.groupSpans_eq, RowSpans.consecutive_eq_ofLengths hfit]
  have hchoices := hm.choices
  rw [hspans, Word.sum_eq_iff.2 hfit] at hchoices
  exact ⟨hfit, hm.inRange, hm.numStates_eq, hm.groups, hspans, hchoices, hm.labels_eq⟩

theorem built_of_ofGroups {numChoices : List Nat} {entries : List ChoiceEntry} {options : Options}
    {m : ChoiceMatrix} (hfit : numChoices.sum < Word.size)
    (h : (ofGroups numChoices entries options).result = .ok m) :
    m.Built numChoices entries options :=
  (assembled_of_ofGroups h).built hfit

/-- Nothing else is asked of entries than what is known of those of a matrix. -/
theorem ofGroups_of_built {numChoices : List Nat} {entries : List ChoiceEntry} {options : Options}
    {m : ChoiceMatrix} (hm : m.Built numChoices entries options) :
    (ofGroups numChoices entries options).result = .ok m := by
  have hgroups := hm.groups
  have hchoices := hm.choices
  have hspans := RowSpans.ofExtents_of_ofLengths hm.sum_lt hgroups
  have htotal := Word.sum_eq_iff.2 hm.sum_lt
  have heq : m = ⟨numChoices.length, m.choices, m.groups, RowSpans.ofExtents m.groups, none⟩ := by
    rw [hspans, ← hm.groupSpans_eq, ← hm.numStates_eq, ← hm.labels_eq]
  rw [← hspans, ← htotal] at hchoices
  rw [heq]
  refine Traced.result_bind_eq_ok_iff.2
    ⟨(), Error.raise_eq_ok_iff.2 (ChoiceEntry.findSome?_fault.2 hm.inRange), ?_⟩
  refine Traced.result_bind_eq_ok_iff.2 ⟨(), rfl, ?_⟩
  refine Traced.result_bind_eq_ok_iff.2 ⟨m.groups, hgroups, ?_⟩
  refine Traced.result_bind_eq_ok_iff.2 ⟨(), ?_, ?_⟩
  · show RowSpans.check _ _ = _
    rw [hspans, RowSpans.check, RowSpans.total_ofLengths, htotal, if_pos rfl]
  refine Traced.result_bind_eq_ok_iff.2 ⟨m.choices, hchoices, ?_⟩
  exact Traced.result_bind_eq_ok_iff.2 ⟨(), rfl, rfl⟩

/-- Entries in range can be stored whenever the form of the row lengths is free. -/
theorem exists_ofGroups {numChoices : List Nat} {entries : List ChoiceEntry} {options : Options}
    (hcheck : options.check = .ok ()) (hstates : numChoices.length ≤ Matrix.maxStates)
    (hrows : numChoices.sum < Reservation.limit)
    (hentries : ChoiceEntry.InRange numChoices entries)
    (hdst : ∀ e ∈ entries, e.dst < numChoices.length)
    (hlength : entries.length < Reservation.limit) (hcounts : options.rowEncoding ≠ .counts) :
    ∃ m, (ofGroups numChoices entries options).result = .ok m := by
  obtain ⟨groups, hgroups⟩ := RowExtents.exists_ofLengths numChoices hcounts
  obtain ⟨choices, hchoices⟩ := Matrix.exists_rectangular hcheck hstates hrows
    (ChoiceEntry.inRange_map_toEntry hentries hdst) (by rwa [List.length_map]) hcounts
  exact ⟨⟨numChoices.length, choices, groups, RowSpans.ofLengths numChoices, none⟩,
    ofGroups_of_built ⟨Reservation.lt_size_of_lt_limit hrows, hentries, rfl, hgroups, rfl, hchoices,
      rfl⟩⟩

/-- The number of choices that each state has. -/
def choiceCounts (m : ChoiceMatrix) : List Nat :=
  (List.range m.numStates).map fun state => (m.group state).width

namespace Assembled

variable {m : ChoiceMatrix} {numChoices : List Nat} {entries : List ChoiceEntry} {options : Options}
  (hm : m.Assembled numChoices entries options)

include hm

theorem width_group {state : Nat} (hstate : state < numChoices.length)
    (hcount : numChoices[state] < Word.size) : (m.group state).width = numChoices[state] := by
  have hspan := RowSpans.getElem?_consecutive_eq_some 0 hstate
  have hgroup : m.group state = ⟨Word.sum 0 (numChoices.take state),
      Word.add (Word.sum 0 (numChoices.take state)) numChoices[state]⟩ := by
    rw [group, hm.groupSpans_eq, RowSpans.span?, List.getElem?_toArray, hspan, Option.getD_some]
  rw [hgroup, Span.width, Word.sub_add (Word.sum_lt (by decide)) hcount]

/-- The number of choices of a state is given back, whether or not all of them add up to a word. -/
theorem numChoices_eq {state : Nat} (hstate : state < numChoices.length)
    (hcount : numChoices[state] < Word.size) : m.numChoices state = .ok numChoices[state] := by
  rw [ChoiceMatrix.numChoices, checkState, hm.numStates_eq, if_pos hstate,
    hm.width_group hstate hcount]
  rfl

theorem choiceCounts_eq (hwords : ∀ count ∈ numChoices, count < Word.size) :
    m.choiceCounts = numChoices := by
  refine List.ext_getElem (by simp [choiceCounts, hm.numStates_eq]) fun state _ hstate => ?_
  simp only [choiceCounts, List.getElem_map, List.getElem_range]
  exact hm.width_group hstate (hwords _ (List.getElem_mem hstate))

/-- There are as many rows as the sum of the numbers of choices says, as a word. -/
theorem numChoiceRows_eq : m.numChoiceRows = Word.sum 0 numChoices :=
  (Matrix.built_of_rectangular hm.choices).numRows_eq

end Assembled

/-! ## Reading -/

/-- The rows are grouped under states by the given numbers of choices, whatever the rows hold. -/
structure Grouped (m : ChoiceMatrix) (numChoices : List Nat) : Prop where
  /-- The number of all choices is a word. -/
  sum_lt : numChoices.sum < Word.size
  numStates_eq : m.numStates = numChoices.length
  groupSpans_eq : m.groupSpans = RowSpans.ofLengths numChoices
  numChoiceRows_eq : m.numChoiceRows = numChoices.sum

namespace Grouped

variable {m : ChoiceMatrix} {numChoices : List Nat} (hm : m.Grouped numChoices) {state : Nat}

include hm

theorem checkState_of_le (hstate : numChoices.length ≤ state) :
    m.checkState state = .error (.stateOutOfRange state numChoices.length) := by
  rw [checkState, hm.numStates_eq, if_neg (by omega)]

theorem choiceRow_of_length_le (hstate : numChoices.length ≤ state) (choice : Nat) :
    m.choiceRow state choice = .error (.stateOutOfRange state numChoices.length) := by
  rw [choiceRow, choiceRange, hm.checkState_of_le hstate]
  rfl

theorem group_eq (hstate : state < numChoices.length) : m.group state
    = ⟨RowSpans.offset numChoices state, RowSpans.offset numChoices (state + 1)⟩ := by
  rw [group, hm.groupSpans_eq, RowSpans.span?_ofLengths hstate]
  rfl

theorem length_group (hstate : state < numChoices.length) :
    (m.group state).length = numChoices[state] := by
  rw [hm.group_eq hstate]
  exact RowSpans.length_span hstate (RowSpans.span?_ofLengths hstate)

theorem width_group (hstate : state < numChoices.length) :
    (m.group state).width = numChoices[state] := by
  have hmono := RowSpans.offset_mono numChoices (Nat.le_succ state)
  have hend := RowSpans.offset_mono numChoices (Nat.succ_le_of_lt hstate)
  rw [RowSpans.offset_length] at hend
  rw [← hm.length_group hstate, hm.group_eq hstate]
  exact Span.width_eq_length hmono (Nat.lt_of_le_of_lt hend hm.sum_lt)

theorem choiceCounts_eq : m.choiceCounts = numChoices := by
  refine List.ext_getElem (by simp [choiceCounts, hm.numStates_eq]) fun state _ hstate => ?_
  simp only [choiceCounts, List.getElem_map, List.getElem_range]
  exact hm.width_group hstate

theorem choiceRange_eq_group (hstate : state < numChoices.length) :
    m.choiceRange state = .ok (m.group state) := by
  rw [choiceRange, checkState, hm.numStates_eq, if_pos hstate]
  rfl

theorem choiceRange_eq (hstate : state < numChoices.length) : m.choiceRange state
    = .ok ⟨RowSpans.offset numChoices state, RowSpans.offset numChoices (state + 1)⟩ := by
  rw [hm.choiceRange_eq_group hstate, hm.group_eq hstate]

theorem numChoices_eq (hstate : state < numChoices.length) :
    m.numChoices state = .ok numChoices[state] := by
  rw [ChoiceMatrix.numChoices, checkState, hm.numStates_eq, if_pos hstate, hm.width_group hstate]
  rfl

theorem choiceRow_eq (hstate : state < numChoices.length) {choice : Nat}
    (hchoice : choice < numChoices[state]) :
    m.choiceRow state choice = .ok (RowSpans.offset numChoices state + choice) := by
  have hlength := hm.length_group hstate
  rw [choiceRow, hm.choiceRange_eq_group hstate]
  show (if _ then _ else _) = _
  rw [if_pos (by rw [hlength]; exact hchoice), hm.group_eq hstate]
  rfl

theorem choiceRow_of_le (hstate : state < numChoices.length) {choice : Nat}
    (hchoice : numChoices[state] ≤ choice) :
    m.choiceRow state choice = .error (.choiceOutOfRange state choice numChoices[state]) := by
  have hlength := hm.length_group hstate
  rw [choiceRow, hm.choiceRange_eq_group hstate]
  show (if _ then _ else _) = _
  rw [if_neg (by rw [hlength]; omega), hlength]
  rfl

/-- The rows that choices have, and which ones. -/
theorem choiceRow_eq_ok_iff {choice row : Nat} : m.choiceRow state choice = .ok row ↔
    ∃ hstate : state < numChoices.length, choice < numChoices[state] ∧
      row = RowSpans.offset numChoices state + choice := by
  constructor
  · intro hrow
    by_cases hstate : state < numChoices.length
    · by_cases hchoice : choice < numChoices[state]
      · rw [hm.choiceRow_eq hstate hchoice] at hrow
        exact ⟨hstate, hchoice, (Except.ok.inj hrow).symm⟩
      · rw [hm.choiceRow_of_le hstate (by omega)] at hrow
        cases hrow
    · rw [hm.choiceRow_of_length_le (by omega)] at hrow
      cases hrow
  · rintro ⟨hstate, hchoice, rfl⟩
    exact hm.choiceRow_eq hstate hchoice

theorem lt_numChoiceRows {choice row : Nat} (h : m.choiceRow state choice = .ok row) :
    row < m.numChoiceRows := by
  obtain ⟨hstate, hchoice, rfl⟩ := hm.choiceRow_eq_ok_iff.1 h
  rw [hm.numChoiceRows_eq]
  exact RowSpans.offset_add_lt_sum hstate hchoice

/-- A row belongs to one choice of one state only. -/
theorem choiceRow_inj {state' choice choice' row : Nat} (h : m.choiceRow state choice = .ok row)
    (h' : m.choiceRow state' choice' = .ok row) : state = state' ∧ choice = choice' := by
  obtain ⟨hstate, hchoice, rfl⟩ := hm.choiceRow_eq_ok_iff.1 h
  obtain ⟨hstate', hchoice', heq⟩ := hm.choiceRow_eq_ok_iff.1 h'
  exact RowSpans.offset_add_inj hstate hstate' hchoice hchoice' heq

/-- Every row belongs to some choice. -/
theorem exists_choiceRow {row : Nat} (hrow : row < m.numChoiceRows) :
    ∃ state choice, m.choiceRow state choice = .ok row := by
  rw [hm.numChoiceRows_eq] at hrow
  obtain ⟨state, choice, hstate, hchoice, rfl⟩ := RowSpans.exists_offset_add hrow
  exact ⟨state, choice, hm.choiceRow_eq hstate hchoice⟩

end Grouped

namespace Built

variable {m : ChoiceMatrix} {numChoices : List Nat} {entries : List ChoiceEntry} {options : Options}
  (hm : m.Built numChoices entries options)

include hm

theorem numChoiceRows_eq : m.numChoiceRows = numChoices.sum :=
  (Matrix.built_of_rectangular hm.choices).numRows_eq

theorem nonZeros_eq : m.nonZeros = entries.length := by
  rw [ChoiceMatrix.nonZeros, (Matrix.built_of_rectangular hm.choices).nonZeros_eq, List.length_map]

theorem grouped : m.Grouped numChoices :=
  ⟨hm.sum_lt, hm.numStates_eq, hm.groupSpans_eq, hm.numChoiceRows_eq⟩

variable {state : Nat} (hstate : state < numChoices.length)

include hstate

theorem choiceRange_eq : m.choiceRange state
    = .ok ⟨RowSpans.offset numChoices state, RowSpans.offset numChoices (state + 1)⟩ :=
  hm.grouped.choiceRange_eq hstate

theorem numChoices_eq : m.numChoices state = .ok numChoices[state] :=
  hm.grouped.numChoices_eq hstate

theorem choiceRow_eq {choice : Nat} (hchoice : choice < numChoices[state]) :
    m.choiceRow state choice = .ok (RowSpans.offset numChoices state + choice) :=
  hm.grouped.choiceRow_eq hstate hchoice

/-- A choice reads back as its entries, in the order in which they came. -/
theorem choice_eq {choice : Nat} (hchoice : choice < numChoices[state])
    (hnonzero : ∀ e ∈ entries, e.weight.isZero = false) :
    m.choice state choice = .ok (ChoiceEntry.rowOf state choice entries) := by
  have hrow := RowSpans.offset_add_lt_sum hstate hchoice
  have hweights : ∀ entry ∈ entries.map (ChoiceEntry.toEntry (RowSpans.ofLengths numChoices)),
      entry.weight.isZero = false := by
    intro entry hentry
    obtain ⟨e, he, rfl⟩ := List.mem_map.1 hentry
    exact hnonzero e he
  rw [ChoiceMatrix.choice, hm.choiceRow_eq hstate hchoice]
  show m.choices.row _ = _
  rw [(Matrix.built_of_rectangular hm.choices).row_eq hrow,
    Entry.storedRow_of_nonzero _ _ hweights,
    ChoiceEntry.rowOf_map_toEntry hm.sum_lt hm.inRange hstate hchoice]

end Built

end ChoiceMatrix

end TransitionMatrix
