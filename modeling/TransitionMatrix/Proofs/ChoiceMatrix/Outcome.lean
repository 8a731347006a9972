import TransitionMatrix.Proofs.ChoiceMatrix.Interleaving
import TransitionMatrix.Proofs.ChoiceMatrix.Rows
import TransitionMatrix.Proofs.Matrix.Outcome

/-!
# When a matrix with choices can be built

The checks come in four phases: the states and choices of the entries, the lengths of the groups, what
is checked for any matrix, and the lengths of the rows. The rows of the choices are worked out from the
boundaries of the groups. As long as the numbers of choices add up to a word, an entry that passed the
first phase is in one of them; so of the checks made for any matrix only those of the destinations are
left.
-/

namespace TransitionMatrix

/-! ## The reasons -/

namespace ChoiceEntry

/-- The state of the entry is not there, or else its choice is not. -/
def Fault (numChoices : List Nat) (e : ChoiceEntry) : Error.Reason := fun err =>
  numChoices.length ≤ e.state ∧ err = .stateOutOfRange e.state numChoices.length ∨
    ∃ hstate : e.state < numChoices.length, numChoices[e.state] ≤ e.choice ∧
      err = .choiceOutOfRange e.state e.choice numChoices[e.state]

/-- The destination of the entry is no state. -/
def DestinationFault (n : Nat) (e : ChoiceEntry) : Error.Reason := fun err =>
  n ≤ e.dst ∧ err = .stateOutOfRange e.dst n

/-- The state of the entry is not there, or else its choice cannot be counted. -/
def CountFault (n : Nat) (e : ChoiceEntry) : Error.Reason := fun err =>
  n ≤ e.state ∧ err = .stateOutOfRange e.state n ∨
    e.state < n ∧ choiceLimit ≤ e.choice ∧ err = .choiceOutOfRange e.state e.choice choiceLimit

variable {numChoices : List Nat} {n : Nat} {entries : List ChoiceEntry}

theorem fault?_eq_some_iff (e : ChoiceEntry) (err : Error) :
    e.fault? numChoices.toArray = some err ↔ e.Fault numChoices err := by
  unfold fault? Fault
  rw [List.getElem?_toArray]
  by_cases hstate : e.state < numChoices.length
  · have hle : ¬ numChoices.length ≤ e.state := Nat.not_le.2 hstate
    rw [List.getElem?_eq_getElem hstate]
    by_cases hchoice : numChoices[e.state] ≤ e.choice
    · simp [hstate, hle, hchoice, eq_comm]
    · simp [hle, hchoice]
  · have hle : numChoices.length ≤ e.state := Nat.not_lt.1 hstate
    rw [List.getElem?_eq_none hle]
    simp [hstate, hle, eq_comm]

theorem countFault?_eq_some_iff (e : ChoiceEntry) (err : Error) :
    e.countFault? n = some err ↔ e.CountFault n err := by
  unfold countFault? CountFault
  by_cases hstate : n ≤ e.state
  · have hlt : ¬ e.state < n := Nat.not_lt.2 hstate
    simp [hstate, hlt, eq_comm]
  · have hlt : e.state < n := Nat.lt_of_not_le hstate
    by_cases hchoice : choiceLimit ≤ e.choice
    · simp [hstate, hlt, hchoice, eq_comm]
    · simp [hstate, hchoice]

theorem not_fault_iff_inRange : (∀ reason ∈ entries.map (Fault numChoices),
    ∀ err, ¬ reason err) ↔ InRange numChoices entries := by
  rw [← findSome?_fault, List.findSome?_eq_none_iff, List.forall_mem_map]
  refine forall₂_congr fun e _ => ?_
  rw [Option.eq_none_iff_forall_ne_some]
  exact forall_congr' fun err => not_congr (fault?_eq_some_iff e err).symm

theorem not_fault_of_inRange (h : InRange numChoices entries) {e : ChoiceEntry} (he : e ∈ entries)
    (err : Error) : ¬ e.Fault numChoices err :=
  not_fault_iff_inRange.2 h _ (List.mem_map_of_mem he) err

/-- The row of an entry that is in range is there, and so only its destination can be at fault. -/
theorem map_fault_toEntry (hentries : InRange numChoices entries) :
    (entries.map (toEntry (RowSpans.ofLengths numChoices))).map
        (Entry.Fault numChoices.sum n)
      = entries.map (DestinationFault n) := by
  rw [List.map_map]
  refine List.map_congr_left fun e he => ?_
  obtain ⟨count, hcount, hchoice⟩ := hentries e he
  obtain ⟨hstate, rfl⟩ := List.getElem?_eq_some_iff.1 hcount
  have hrow : (toEntry (RowSpans.ofLengths numChoices) e).src < numChoices.sum := by
    rw [src_toEntry hstate]
    exact Nat.lt_of_le_of_lt (Word.add_le _ _) (RowSpans.offset_add_lt_sum hstate hchoice)
  have hle : ¬ numChoices.sum ≤ (toEntry (RowSpans.ofLengths numChoices) e).src := Nat.not_le.2 hrow
  funext err
  simp only [Function.comp_apply, Entry.Fault, DestinationFault, hrow, hle, false_and, false_or,
    true_and]
  rfl

/-- The lengths of the choices, state after state. -/
def rowLengths (numChoices : List Nat) (entries : List ChoiceEntry) : List Nat :=
  (numChoices.mapIdx fun state count =>
    (List.range count).map fun choice => (rowOf state choice entries).length).flatten

theorem rowLengths_map_toEntry (hfit : numChoices.sum < Word.size)
    (hentries : InRange numChoices entries) :
    Matrix.rowLengths numChoices.sum (entries.map (toEntry (RowSpans.ofLengths numChoices)))
      = rowLengths numChoices entries := by
  rw [Matrix.rowLengths, map_range_sum, rowLengths]
  congr 1
  refine List.ext_getElem (by simp) fun state hstate _ => ?_
  have hlt : state < numChoices.length := by simpa using hstate
  rw [List.getElem_mapIdx, List.getElem_mapIdx]
  refine List.map_congr_left fun choice hchoice => ?_
  rw [rowOf_map_toEntry hfit hentries hlt (List.mem_range.1 hchoice)]

theorem forall_mem_rowLengths {p : Nat → Prop} : (∀ length ∈ rowLengths numChoices entries, p length) ↔
    ∀ state (hstate : state < numChoices.length), ∀ choice < numChoices[state],
      p (rowOf state choice entries).length := by
  unfold rowLengths
  simp only [List.forall_mem_flatten, List.mem_mapIdx, forall_exists_index]
  constructor
  · intro h state hstate choice hchoice
    exact h _ state hstate rfl _ (List.mem_map_of_mem (List.mem_range.2 hchoice))
  · rintro h row state hstate rfl length hlength
    obtain ⟨choice, hchoice, rfl⟩ := List.mem_map.1 hlength
    exact h state hstate choice (List.mem_range.1 hchoice)

end ChoiceEntry

namespace ChoiceMatrix

variable {numChoices : List Nat} {n : Nat} {entries : List ChoiceEntry} {options : Options}

/-! ## The phases one after another -/

/-- After the states and choices of the entries and the lengths of the groups, the rows of the choices
are checked as those of any matrix, as many as the numbers of choices add up to as words. -/
theorem failsFor_ofGroups (numChoices : List Nat) (entries : List ChoiceEntry) (options : Options) :
    FailsFor (ofGroups numChoices entries options).result
      (entries.map (ChoiceEntry.Fault numChoices) ++
        RowExtents.TooLong numChoices options.rowEncoding ::
        Matrix.reasons (Word.sum 0 numChoices) numChoices.length
          (entries.map (ChoiceEntry.toEntry ⟨(RowSpans.consecutive 0 numChoices).toArray⟩))
          options) := by
  refine FailsFor.bind (failsFor_raise_findSome? ChoiceEntry.fault?_eq_some_iff entries) fun _ _ => ?_
  refine FailsFor.bind_ok rfl ?_
  refine FailsFor.bind_cons (RowExtents.failsFor_ofLengths _ _) fun groups hgroups => ?_
  dsimp only
  rw [RowSpans.ofExtents_eq_consecutive hgroups]
  refine FailsFor.bind_ok (if_pos (RowSpans.total_consecutive numChoices)) ?_
  exact FailsFor.bind_of_ok (Matrix.failsFor_rectangular _ _ _ options) fun choices => ⟨_, rfl⟩

/-- What is left to check once the states and choices of the entries are. -/
def groupReasons (numChoices : List Nat) (entries : List ChoiceEntry) (options : Options) :
    List Error.Reason :=
  RowExtents.TooLong numChoices options.rowEncoding :: options.BadWidth ::
    Matrix.TooManyStates numChoices.length ::
    Reservation.rowLengths.Unavailable numChoices.sum ::
    (entries.map (ChoiceEntry.DestinationFault numChoices.length) ++
      [RowExtents.TooLong (ChoiceEntry.rowLengths numChoices entries) options.rowEncoding,
        Reservation.rowOrder.Unavailable entries.length])

section Fit

variable (hfit : numChoices.sum < Word.size)

include hfit

/-- An entry that passed the first phase has a row, so what is left to check after the lengths of the
groups is what is checked for the rows of the choices. -/
theorem groupReasons_eq (hentries : ChoiceEntry.InRange numChoices entries) :
    groupReasons numChoices entries options
      = RowExtents.TooLong numChoices options.rowEncoding ::
        Matrix.reasons (Word.sum 0 numChoices) numChoices.length
          (entries.map (ChoiceEntry.toEntry ⟨(RowSpans.consecutive 0 numChoices).toArray⟩))
          options := by
  rw [RowSpans.consecutive_eq_ofLengths hfit, Word.sum_eq_iff.2 hfit, Matrix.reasons,
    ChoiceEntry.map_fault_toEntry hentries, ChoiceEntry.rowLengths_map_toEntry hfit hentries,
    List.length_map]
  rfl

theorem failsFor_ofGroups_of_lt : FailsFor (ofGroups numChoices entries options).result
    (entries.map (ChoiceEntry.Fault numChoices) ++ groupReasons numChoices entries options) := by
  refine (failsFor_ofGroups numChoices entries options).append_congr fun hnone => ?_
  exact (groupReasons_eq hfit (ChoiceEntry.not_fault_iff_inRange.1 hnone)).symm

/-- Where every array can be had, that one cannot be had is no reason. -/
theorem failsFor_ofGroups_of_allocates (h : (ofGroups numChoices entries options).Allocates) :
    FailsFor (ofGroups numChoices entries options).result
      (entries.map (ChoiceEntry.Fault numChoices) ++
        RowExtents.TooLong numChoices options.rowEncoding :: options.BadWidth ::
        Matrix.TooManyStates numChoices.length ::
        (entries.map (ChoiceEntry.DestinationFault numChoices.length) ++
          [RowExtents.TooLong (ChoiceEntry.rowLengths numChoices entries) options.rowEncoding])) := by
  have hrows : FailsFor (ofGroups numChoices entries options).result
      ((entries.map (ChoiceEntry.Fault numChoices) ++
        [RowExtents.TooLong numChoices options.rowEncoding, options.BadWidth,
          Matrix.TooManyStates numChoices.length]) ++
        Reservation.rowLengths.Unavailable numChoices.sum ::
          (entries.map (ChoiceEntry.DestinationFault numChoices.length) ++
            [RowExtents.TooLong (ChoiceEntry.rowLengths numChoices entries) options.rowEncoding,
              Reservation.rowOrder.Unavailable entries.length])) := by
    rw [List.append_assoc]
    exact failsFor_ofGroups_of_lt hfit
  have horder := hrows.of_allocates h
  rw [List.append_cons _ (RowExtents.TooLong (ChoiceEntry.rowLengths numChoices entries) _),
    ← List.append_assoc] at horder
  have hrest := horder.of_allocates h
  rwa [List.append_nil, List.append_assoc] at hrest

theorem exists_ofGroups_iff (h : (ofGroups numChoices entries options).Allocates) :
    (∃ m, (ofGroups numChoices entries options).result = .ok m) ↔
      ChoiceEntry.InRange numChoices entries ∧
      (options.rowEncoding = .counts → ∀ count ∈ numChoices, count ≤ RowExtents.maxCount) ∧
      (2 ≤ options.columnBits ∧ options.columnBits ≤ 32) ∧
      numChoices.length ≤ Matrix.maxStates ∧ (∀ e ∈ entries, e.dst < numChoices.length) ∧
      (options.rowEncoding = .counts → ∀ state (hstate : state < numChoices.length),
        ∀ choice < numChoices[state],
          (ChoiceEntry.rowOf state choice entries).length ≤ RowExtents.maxCount) := by
  have hdst : (∀ reason ∈ entries.map (ChoiceEntry.DestinationFault numChoices.length),
      ∀ err, ¬ reason err) ↔ ∀ e ∈ entries, e.dst < numChoices.length := by
    simp [ChoiceEntry.DestinationFault]
  rw [(failsFor_ofGroups_of_allocates hfit h).exists_ok_iff, List.forall_mem_append,
    List.forall_mem_cons, List.forall_mem_cons, List.forall_mem_cons, List.forall_mem_append,
    List.forall_mem_singleton, ChoiceEntry.not_fault_iff_inRange, RowExtents.not_tooLong_iff,
    options.not_badWidth_iff, Matrix.not_tooManyStates_iff, hdst, RowExtents.not_tooLong_iff,
    ChoiceEntry.forall_mem_rowLengths]

end Fit

/-- Every array can be had if the rows of all choices and the numbers of the entries can. -/
theorem allocates_ofGroups (hrows : numChoices.sum < Reservation.limit)
    (hlength : entries.length < Reservation.limit) :
    (ofGroups numChoices entries options).Allocates := by
  intro what length h
  obtain ⟨reason, hmem, hreason⟩ :=
    (failsFor_ofGroups_of_lt (Reservation.lt_size_of_lt_limit hrows)).exists_mem h
  simp only [groupReasons, List.mem_cons, List.mem_append, List.mem_map, List.not_mem_nil, or_false]
    at hmem
  rcases hmem with ⟨e, _, rfl⟩ | rfl | rfl | rfl | rfl | ⟨e, _, rfl⟩ | rfl | rfl
  · rcases hreason with ⟨_, herr⟩ | ⟨_, _, herr⟩
    · cases herr
    · cases herr
  · obtain ⟨_, _, _, _, _, herr⟩ := hreason
    cases herr
  · cases hreason.2
  · cases hreason.2
  · exact absurd hreason.1 (Nat.not_le.2 hrows)
  · cases hreason.2
  · obtain ⟨_, _, _, _, _, herr⟩ := hreason
    cases herr
  · exact absurd hreason.1 (Nat.not_le.2 hlength)

/-! ## Errors that are never given -/

/-- A matrix is refused because some limit is exceeded, for the fault of an entry, or for that of an
entry in the row of its choice. -/
theorem ofLimits_of_ofGroups {err : Error}
    (h : (ofGroups numChoices entries options).result = .error err) : err.OfLimits ∨
      (∃ e ∈ entries, e.Fault numChoices err) ∨
      ∃ e ∈ entries, (e.toEntry ⟨(RowSpans.consecutive 0 numChoices).toArray⟩).Fault
        (Word.sum 0 numChoices) numChoices.length err := by
  obtain ⟨reason, hmem, hreason⟩ := (failsFor_ofGroups numChoices entries options).exists_mem h
  rcases List.mem_append.1 hmem with hmem | hmem
  · obtain ⟨e, he, rfl⟩ := List.mem_map.1 hmem
    exact Or.inr (Or.inl ⟨e, he, hreason⟩)
  rcases List.mem_cons.1 hmem with rfl | hmem
  · exact Or.inl hreason.ofLimits
  rcases Matrix.ofLimits_of_mem_reasons hmem hreason with hlimits | ⟨entry, hentry, hfault⟩
  · exact Or.inl hlimits
  · obtain ⟨e, he, rfl⟩ := List.mem_map.1 hentry
    exact Or.inr (Or.inr ⟨e, he, hfault⟩)

/-- Entries of choices and states that are there are in rows that are there. -/
theorem ofLimits_of_ofGroups_of_inRange {err : Error} (hfit : numChoices.sum < Word.size)
    (hentries : ChoiceEntry.InRange numChoices entries)
    (hdst : ∀ e ∈ entries, e.dst < numChoices.length)
    (h : (ofGroups numChoices entries options).result = .error err) : err.OfLimits := by
  rcases ofLimits_of_ofGroups h with hlimits | ⟨e, he, hfault⟩ | ⟨e, he, hfault⟩
  · exact hlimits
  · exact absurd hfault (ChoiceEntry.not_fault_of_inRange hentries he err)
  · rw [RowSpans.consecutive_eq_ofLengths hfit, Word.sum_eq_iff.2 hfit] at hfault
    have hrange := ChoiceEntry.inRange_map_toEntry hentries hdst _ (List.mem_map_of_mem he)
    exact absurd hfault (Entry.not_fault_iff.2 hrange err)

/-- Of choices that could be counted none is missing when they are grouped. -/
theorem ofLimits_of_ofEntries {err : Error}
    (h : (ofEntries n entries options).result = .error err) : err.OfLimits ∨
      (∃ e ∈ entries, e.CountFault n err) ∨
      ∃ state numStates, err = .stateOutOfRange state numStates := by
  rcases Traced.result_bind_eq_error_iff.1 h with hcounts | ⟨_, _, h⟩
  · exact Or.inl (Reservation.Unavailable.ofLimits (Reservation.request_eq_error_iff.1 hcounts))
  rcases Traced.result_bind_eq_error_iff.1 h with hcount | ⟨_, hcounted, h⟩
  · have hfound := Error.raise_eq_error_iff.1 hcount
    obtain ⟨e, he, hfault⟩ := List.exists_of_findSome?_eq_some hfound
    exact Or.inr (Or.inl ⟨e, he, (ChoiceEntry.countFault?_eq_some_iff e err).1 hfault⟩)
  have hstates := ChoiceEntry.findSome?_countFault.1 (Error.raise_eq_ok_iff.1 hcounted)
  rw [ChoiceEntry.countChoices_toList] at h
  rcases ofLimits_of_ofGroups h with hlimits | ⟨e, he, hfault⟩ | ⟨e, _, hfault⟩
  · exact Or.inl hlimits
  · have hinside := ChoiceEntry.inRange_asked fun e he => (hstates e he).1
    exact absurd hfault (ChoiceEntry.not_fault_of_inRange hinside he err)
  · exact Or.inr (Or.inr hfault.exists_eq)

/-! ## All together -/

/-- If every array can be had and the numbers of choices add up to a word, a matrix with choices is
refused for the first of these reasons: an entry whose state or choice is not there, a state with too
many choices for the counts that are asked for, a width that packed entries cannot have, too many
states, an entry that leads to no state, and a choice that is too long for counts. Otherwise it is
built. An entry that passed the first check has a row among those of the choices. Where the choices are
counted first, a choice is missing only if it is too large to be counted, which of 64-bit numbers only
the last is. -/
theorem outcome_of_groups (numChoices : List Nat) (entries : List ChoiceEntry) (options : Options)
    (hmemory : (ofGroups numChoices entries options).Allocates) :
    (numChoices.sum < Word.size →
      FailsFor (ofGroups numChoices entries options).result
        (entries.map (ChoiceEntry.Fault numChoices) ++
          RowExtents.TooLong numChoices options.rowEncoding :: options.BadWidth ::
          Matrix.TooManyStates numChoices.length ::
          (entries.map (ChoiceEntry.DestinationFault numChoices.length) ++
            [RowExtents.TooLong (ChoiceEntry.rowLengths numChoices entries) options.rowEncoding])) ∧
      ((∃ m, (ofGroups numChoices entries options).result = .ok m) ↔
        ChoiceEntry.InRange numChoices entries ∧
        (options.rowEncoding = .counts → ∀ count ∈ numChoices, count ≤ 255) ∧
        (2 ≤ options.columnBits ∧ options.columnBits ≤ 32) ∧
        numChoices.length ≤ 4294967295 ∧ (∀ e ∈ entries, e.dst < numChoices.length) ∧
        (options.rowEncoding = .counts → ∀ state (hstate : state < numChoices.length),
          ∀ choice < numChoices[state], (ChoiceEntry.rowOf state choice entries).length ≤ 255)) ∧
      (ChoiceEntry.InRange numChoices entries → ∀ groups,
        (RowExtents.ofLengths numChoices options.rowEncoding).result = .ok groups →
        ∀ e ∈ entries, (∃ s, (RowSpans.ofExtents groups).span? e.state = some s) ∧
          (e.toEntry (RowSpans.ofExtents groups)).src < Word.sum 0 numChoices)) ∧
    (∀ expected found,
      (ofGroups numChoices entries options).result ≠ .error (.inconsistentIndex expected found)) ∧
    ∀ n, (∀ expected found,
        (ofEntries n entries options).result ≠ .error (.inconsistentIndex expected found)) ∧
      ∀ state choice count,
        (ofEntries n entries options).result = .error (.choiceOutOfRange state choice count) →
        2 ^ 64 - 1 ≤ choice ∧ ∃ e ∈ entries, e.state = state ∧ e.choice = choice := by
  refine ⟨fun hfit => ⟨failsFor_ofGroups_of_allocates hfit hmemory, exists_ofGroups_iff hfit hmemory,
    ?_⟩, ?_, fun n => ⟨?_, ?_⟩⟩
  · intro hentries groups hgroups e he
    obtain ⟨count, hcount, hchoice⟩ := hentries e he
    obtain ⟨hstate, rfl⟩ := List.getElem?_eq_some_iff.1 hcount
    rw [RowSpans.ofExtents_of_ofLengths hfit hgroups, ChoiceEntry.src_toEntry hstate,
      Word.sum_eq_iff.2 hfit]
    exact ⟨⟨_, RowSpans.span?_ofLengths hstate⟩,
      Nat.lt_of_le_of_lt (Word.add_le _ _) (RowSpans.offset_add_lt_sum hstate hchoice)⟩
  · intro expected found h
    rcases ofLimits_of_ofGroups h with hlimits | ⟨e, _, ⟨_, herr⟩ | ⟨_, _, herr⟩⟩ | ⟨e, _, hfault⟩
    · exact hlimits
    · cases herr
    · cases herr
    · obtain ⟨_, _, herr⟩ := hfault.exists_eq
      cases herr
  · intro expected found h
    rcases ofLimits_of_ofEntries h with hlimits | ⟨e, _, ⟨_, herr⟩ | ⟨_, _, herr⟩⟩ | ⟨_, _, herr⟩
    · exact hlimits
    · cases herr
    · cases herr
    · cases herr
  · intro state choice count h
    rcases ofLimits_of_ofEntries h with
      hlimits | ⟨e, he, ⟨_, herr⟩ | ⟨_, hlarge, herr⟩⟩ | ⟨_, _, herr⟩
    · exact absurd hlimits id
    · cases herr
    · cases herr
      exact ⟨hlarge, e, he, rfl, rfl⟩
    · cases herr

/-- Whatever else is wrong, the first entry without its choice is reported before anything else, then
the state with too many choices, and an entry that leads nowhere only when the options allow all else. -/
theorem outcome_of_faults_in_turn :
    (ofGroups [1, 300] [⟨1, 0, 9, .one⟩, ⟨0, 1, 0, .one⟩, ⟨7, 0, 0, .one⟩]
      { columnBits := 40, rowEncoding := .counts }).result = .error (.choiceOutOfRange 0 1 1) ∧
    (ofGroups [1, 300] [⟨1, 0, 9, .one⟩]
      { columnBits := 40, rowEncoding := .counts }).result = .error (.rowTooLong 1 300) ∧
    (ofGroups [1, 300] [⟨1, 0, 9, .one⟩] {}).result = .error (.stateOutOfRange 9 2) := by
  have hrows : [1, 300].sum < Reservation.limit := by decide
  have hfit : [1, 300].sum < Word.size := by decide
  have hinside : ∀ err, ¬ ChoiceEntry.Fault [1, 300] ⟨1, 0, 9, .one⟩ err := by
    rintro err (⟨hle, _⟩ | ⟨_, hle, _⟩)
    · exact absurd hle (by decide)
    · exact absurd hle (Nat.not_le.2 (show 0 < 300 by decide))
  have hlongest : RowExtents.IsLastLongest [1, 300] 1 300 := by
    refine ⟨rfl, by decide, ?_⟩
    rintro (_ | _ | later) l hlater hl
    · omega
    · omega
    · cases hl
  obtain ⟨hall, _⟩ := outcome_of_groups [1, 300]
    [⟨1, 0, 9, .one⟩, ⟨0, 1, 0, .one⟩, ⟨7, 0, 0, .one⟩] { columnBits := 40, rowEncoding := .counts }
    (allocates_ofGroups hrows (by decide))
  obtain ⟨hcounted, _⟩ := outcome_of_groups [1, 300] [⟨1, 0, 9, .one⟩]
    { columnBits := 40, rowEncoding := .counts } (allocates_ofGroups hrows (by decide))
  obtain ⟨hallowed, _⟩ := outcome_of_groups [1, 300] [⟨1, 0, 9, .one⟩] {}
    (allocates_ofGroups hrows (by decide))
  obtain ⟨hentries, _⟩ := hall hfit
  obtain ⟨hcounts, _⟩ := hcounted hfit
  obtain ⟨hfree, _⟩ := hallowed hfit
  refine ⟨(hentries _).2 ?_, (hcounts _).2 ?_, (hfree _).2 ?_⟩
  · exact Or.inr ⟨hinside, Or.inl (Or.inr ⟨by decide, by decide, rfl⟩)⟩
  · exact Or.inr ⟨hinside, Or.inl ⟨rfl, 1, 300, hlongest, by decide, rfl⟩⟩
  · refine Or.inr ⟨hinside, Or.inr ⟨fun _ h => absurd h.1 (by decide), Or.inr ⟨?_, Or.inr ⟨?_, ?_⟩⟩⟩⟩
    · exact fun _ h => h.1 (by decide)
    · exact fun _ h => absurd h.1 (by decide)
    · exact Or.inl ⟨by decide, rfl⟩

end ChoiceMatrix

end TransitionMatrix
