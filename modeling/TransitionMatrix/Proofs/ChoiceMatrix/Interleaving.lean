import Mathlib.Algebra.Order.BigOperators.Group.List
import Mathlib.Algebra.Order.Group.Nat
import TransitionMatrix.Proofs.ChoiceMatrix.Rows

/-!
# The order of entries across rows does not show

Entries are put in order by row before anything is made of them. Two lists of entries that say the
same for each row, however the rows are interleaved, therefore make the same matrix, down to the words
and the dictionary of the compact form, and are refused for the same reason. The same holds for the
choices of a matrix with choices: entries ask for the same numbers of choices in whatever order they
come.
-/

namespace TransitionMatrix

/-- What follows on a step matters only for the value that the step gives. -/
theorem Traced.bind_congr {α β : Type} {x : Traced α} {f g : α → Traced β}
    (h : ∀ a, x.result = .ok a → f a = g a) : x >>= f = x >>= g := by
  show x.andThen f = x.andThen g
  unfold andThen
  cases hx : x.result with
  | error err => rfl
  | ok a =>
    dsimp only
    rw [h a hx]

/-! ## Rows -/

namespace Matrix

variable {numRows numCols : Nat} {entries entries' : List Entry}

/-- A matrix is made of the rows, not of the list that they come from. -/
theorem rectangular_congr (h : InRange numRows numCols entries)
    (h' : InRange numRows numCols entries')
    (hrows : ∀ src < numRows, Entry.rowOf src entries' = Entry.rowOf src entries)
    (options : Options) :
    rectangular numRows numCols entries' options = rectangular numRows numCols entries options := by
  have hlengths : rowLengths numRows entries' = rowLengths numRows entries := by
    refine List.map_congr_left fun src hsrc => ?_
    rw [hrows src (List.mem_range.1 hsrc)]
  have hcells : Entry.rowMajor numRows entries' = Entry.rowMajor numRows entries := by
    rw [Entry.rowMajor, Entry.rowMajor]
    congr 1
    refine List.map_congr_left fun src hsrc => ?_
    exact hrows src (List.mem_range.1 hsrc)
  have hlength : entries'.length = entries.length := by
    rw [← rowLengths_sum h', hlengths, rowLengths_sum h]
  have horder := inOrder_rowOrder h'
  rw [hlengths, hcells, ← inOrder_rowOrder h] at horder
  simp only [rectangular, findSome?_fault.2 h, findSome?_fault.2 h', toList_countRows_src, hlengths,
    horder, hlength]

/-- Of a matrix with too many states no entry is looked at. -/
theorem rectangular_congr_of_maxStates_lt (h : maxStates < numCols) (options : Options) :
    rectangular numRows numCols entries' options = rectangular numRows numCols entries options := by
  rw [rectangular, rectangular]
  refine Traced.bind_congr fun _ _ => Traced.bind_congr fun _ hraise => ?_
  rw [if_pos h] at hraise
  cases hraise

end Matrix

/-! ## Choices -/

namespace ChoiceEntry

theorem mem_rowOf {state choice : Nat} {entries : List ChoiceEntry} {c : Cell} :
    c ∈ rowOf state choice entries ↔
      ∃ e ∈ entries, e.state = state ∧ e.choice = choice ∧ c = ⟨e.dst, e.weight⟩ := by
  simp only [rowOf, List.mem_filterMap]
  constructor
  · rintro ⟨e, he, hc⟩
    split at hc
    · rename_i hchoice
      exact ⟨e, he, hchoice.1, hchoice.2, (Option.some.inj hc).symm⟩
    · cases hc
  · rintro ⟨e, he, hstate, hchoice, rfl⟩
    exact ⟨e, he, if_pos ⟨hstate, hchoice⟩⟩

/-- The entries say the same for each choice of the first `n` states. -/
def SameRows (n : Nat) (entries entries' : List ChoiceEntry) : Prop :=
  ∀ state < n, ∀ choice, rowOf state choice entries' = rowOf state choice entries

variable {n : Nat} {entries entries' : List ChoiceEntry}

theorem SameRows.symm (h : SameRows n entries entries') : SameRows n entries' entries := by
  intro state hstate choice
  exact (h state hstate choice).symm

/-- Entries of different choices can change places. -/
theorem sameRows_swap {e e' : ChoiceEntry} (h : ¬ (e.state = e'.state ∧ e.choice = e'.choice))
    (rest : List ChoiceEntry) : SameRows n (e :: e' :: rest) (e' :: e :: rest) := by
  intro state _ choice
  simp only [rowOf, List.filterMap_cons]
  by_cases he : e.state = state ∧ e.choice = choice
  · obtain ⟨rfl, rfl⟩ := he
    rw [if_neg fun he' => h ⟨he'.1.symm, he'.2.symm⟩]
  · rw [if_neg he]

/-- To each entry there is one for the same choice in the other list. -/
theorem SameRows.exists_mem (h : SameRows n entries entries') {e : ChoiceEntry} (he : e ∈ entries)
    (hstate : e.state < n) : ∃ e' ∈ entries', e'.state = e.state ∧ e'.choice = e.choice := by
  have hmem := mem_rowOf.2 ⟨e, he, rfl, rfl, rfl⟩
  rw [← h e.state hstate e.choice] at hmem
  obtain ⟨e', he', hstate', hchoice', _⟩ := mem_rowOf.1 hmem
  exact ⟨e', he', hstate', hchoice'⟩

theorem SameRows.asked_le (h : SameRows n entries entries') {state : Nat} (hstate : state < n) :
    asked entries state ≤ asked entries' state := by
  refine asked_le_iff.2 fun e he heq => ?_
  subst heq
  obtain ⟨e', he', hstate', hchoice'⟩ := h.exists_mem he hstate
  rw [← hchoice']
  exact asked_le_iff.1 (le_refl (asked entries' e.state)) e' he' hstate'

theorem SameRows.map_asked (h : SameRows n entries entries') :
    (List.range n).map (asked entries') = (List.range n).map (asked entries) := by
  refine List.map_congr_left fun state hstate => ?_
  have hlt := List.mem_range.1 hstate
  exact Nat.le_antisymm (h.symm.asked_le hlt) (h.asked_le hlt)

/-- An entry is one of the choices that the entries ask for. -/
theorem inRange_asked (h : ∀ e ∈ entries, e.state < n) :
    InRange ((List.range n).map (asked entries)) entries := by
  intro e he
  have hasked := asked_le_iff.1 (le_refl (asked entries e.state)) e he rfl
  refine ⟨asked entries e.state, ?_, hasked⟩
  rw [List.getElem?_map, List.getElem?_range (h e he), Option.map_some]

/-- What is wrong with entries of states that are there is the first choice that cannot be counted. -/
theorem findSome?_countFault_eq (h : ∀ e ∈ entries, e.state < n) :
    entries.findSome? (countFault? n) = (entries.find? fun e => choiceLimit ≤ e.choice).map
      fun e => .choiceOutOfRange e.state e.choice choiceLimit := by
  induction entries with
  | nil => rfl
  | cons e rest ih =>
    have hstate := h e List.mem_cons_self
    have hfault : countFault? n e = if choiceLimit ≤ e.choice
        then some (.choiceOutOfRange e.state e.choice choiceLimit) else none := by
      rw [countFault?, if_neg (by omega)]
    by_cases hchoice : choiceLimit ≤ e.choice
    · rw [if_pos hchoice] at hfault
      rw [List.findSome?_cons_of_isSome (by rw [hfault]; rfl), hfault,
        List.find?_cons_of_pos (by simpa using hchoice), Option.map_some]
    · rw [if_neg hchoice] at hfault
      rw [List.findSome?_cons_of_isNone (by rw [hfault]; rfl),
        List.find?_cons_of_neg (by simpa using hchoice)]
      exact ih fun e he => h e (List.mem_cons_of_mem _ he)

/-- Choices that ask for numbers with a word as sum can be counted. -/
theorem lt_choiceLimit_of_sum_asked_lt (h : ∀ e ∈ entries, e.state < n)
    (hfit : ((List.range n).map (asked entries)).sum < Word.size) :
    ∀ e ∈ entries, e.choice < choiceLimit := by
  intro e he
  have hasked := asked_le_iff.1 (le_refl (asked entries e.state)) e he rfl
  have hmem : asked entries e.state ∈ (List.range n).map (asked entries) :=
    List.mem_map_of_mem (List.mem_range.2 (h e he))
  have hword := Word.lt_of_sum_lt hfit _ hmem
  have hlimit : Word.size = choiceLimit + 1 := by decide
  omega

/-- Choices below the number of states need a word of rows at most. -/
theorem sum_asked_lt_of_choice_lt (h : ∀ e ∈ entries, e.choice < n) (hn : n ≤ Matrix.maxStates) :
    ((List.range n).map (asked entries)).sum < Word.size := by
  have hle : ((List.range n).map (asked entries)).sum ≤ n * n := by
    have hcard := List.sum_le_card_nsmul ((List.range n).map (asked entries)) n fun count hcount => by
      obtain ⟨state, _, rfl⟩ := List.mem_map.1 hcount
      exact asked_le_iff.2 fun e he _ => h e he
    rwa [List.length_map, List.length_range, Nat.nsmul_eq_mul] at hcard
  calc ((List.range n).map (asked entries)).sum
      ≤ n * n := hle
    _ ≤ Matrix.maxStates * Matrix.maxStates := Nat.mul_le_mul hn hn
    _ < Word.size := by decide

end ChoiceEntry

namespace ChoiceMatrix

open ChoiceEntry (SameRows)

variable {numChoices : List Nat} {n : Nat} {entries entries' : List ChoiceEntry}

/-- A matrix with choices is made of what there is for each choice, if there is a row for each. -/
theorem ofGroups_congr (h : ChoiceEntry.InRange numChoices entries)
    (h' : ChoiceEntry.InRange numChoices entries')
    (hdst : ∀ e ∈ entries, e.dst < numChoices.length)
    (hdst' : ∀ e ∈ entries', e.dst < numChoices.length)
    (hrows : SameRows numChoices.length entries entries')
    (hfit : numChoices.length ≤ Matrix.maxStates → numChoices.sum < Word.size) (options : Options) :
    ofGroups numChoices entries' options = ofGroups numChoices entries options := by
  rw [ofGroups, ofGroups, ChoiceEntry.findSome?_fault.2 h, ChoiceEntry.findSome?_fault.2 h']
  refine Traced.bind_congr fun _ _ => Traced.bind_congr fun _ _ => ?_
  refine Traced.bind_congr fun groups hgroups => ?_
  dsimp only
  suffices hchoices : Matrix.rectangular (Word.sum 0 numChoices) numChoices.length
        (entries'.map (ChoiceEntry.toEntry (RowSpans.ofExtents groups))) options
      = Matrix.rectangular (Word.sum 0 numChoices) numChoices.length
        (entries.map (ChoiceEntry.toEntry (RowSpans.ofExtents groups))) options by
    rw [hchoices]
  by_cases hstates : numChoices.length ≤ Matrix.maxStates
  · have hsum := hfit hstates
    rw [RowSpans.ofExtents_of_ofLengths hsum hgroups, Word.sum_eq_iff.2 hsum]
    refine Matrix.rectangular_congr (ChoiceEntry.inRange_map_toEntry h hdst)
      (ChoiceEntry.inRange_map_toEntry h' hdst') (fun row hrow => ?_) options
    obtain ⟨state, choice, hstate, hchoice, rfl⟩ := RowSpans.exists_offset_add hrow
    rw [ChoiceEntry.rowOf_map_toEntry hsum h' hstate hchoice, hrows state hstate choice,
      ChoiceEntry.rowOf_map_toEntry hsum h hstate hchoice]
  · exact Matrix.rectangular_congr_of_maxStates_lt (Nat.lt_of_not_le hstates) options

/-- The numbers of choices are the same as well, if they are not given. -/
theorem ofEntries_congr (h : ∀ e ∈ entries, e.state < n ∧ e.dst < n)
    (h' : ∀ e ∈ entries', e.state < n ∧ e.dst < n) (hrows : SameRows n entries entries')
    (hchoice : ∀ e ∈ entries, e.choice < ChoiceEntry.choiceLimit)
    (hfit : n ≤ Matrix.maxStates →
      ((List.range n).map (ChoiceEntry.asked entries)).sum < Word.size) (options : Options) :
    ofEntries n entries' options = ofEntries n entries options := by
  have hchoice' : ∀ e' ∈ entries', e'.choice < ChoiceEntry.choiceLimit := by
    intro e' he'
    obtain ⟨e, he, _, heq⟩ := hrows.symm.exists_mem he' (h' e' he').1
    rw [← heq]
    exact hchoice e he
  have hcount : entries.findSome? (ChoiceEntry.countFault? n) = none :=
    ChoiceEntry.findSome?_countFault.2 fun e he => ⟨(h e he).1, hchoice e he⟩
  have hcount' : entries'.findSome? (ChoiceEntry.countFault? n) = none :=
    ChoiceEntry.findSome?_countFault.2 fun e he => ⟨(h' e he).1, hchoice' e he⟩
  have hin := ChoiceEntry.inRange_asked fun e he => (h e he).1
  have hin' := ChoiceEntry.inRange_asked fun e he => (h' e he).1
  rw [hrows.map_asked] at hin'
  have hlength : ((List.range n).map (ChoiceEntry.asked entries)).length = n := by
    rw [List.length_map, List.length_range]
  have hgroups := ofGroups_congr hin hin' (by rw [hlength]; exact fun e he => (h e he).2)
    (by rw [hlength]; exact fun e he => (h' e he).2) (by rw [hlength]; exact hrows)
    (by rw [hlength]; exact hfit) options
  rw [ofEntries, ofEntries, hcount, hcount', ChoiceEntry.countChoices_toList,
    ChoiceEntry.countChoices_toList, hrows.map_asked, hgroups]

/-- Without room for the counts the entries are not looked at. -/
theorem ofEntries_congr_of_limit_le (hn : Reservation.limit ≤ n) (options : Options) :
    ofEntries n entries' options = ofEntries n entries options := by
  rw [ofEntries, ofEntries]
  refine Traced.bind_congr fun _ hcounts => ?_
  have hlt := Reservation.request_eq_ok_iff.1 hcounts
  omega

/-- A choice that cannot be counted is reported, the first one of the list. -/
theorem ofEntries_of_choiceLimit_le (h : ∀ e ∈ entries, e.state < n) (hn : n < Reservation.limit)
    (hchoice : ∃ e ∈ entries, ChoiceEntry.choiceLimit ≤ e.choice) (options : Options) :
    ∃ e, entries.find? (fun e => ChoiceEntry.choiceLimit ≤ e.choice) = some e ∧
      (ofEntries n entries options).result
        = .error (.choiceOutOfRange e.state e.choice ChoiceEntry.choiceLimit) := by
  obtain ⟨e, he, hle⟩ := hchoice
  obtain ⟨first, hfirst⟩ : ∃ first,
      entries.find? (fun e => ChoiceEntry.choiceLimit ≤ e.choice) = some first :=
    Runs.exists_find?_of_mem he (by simpa using hle)
  have hfault := ChoiceEntry.findSome?_countFault_eq h
  rw [hfirst, Option.map_some] at hfault
  refine ⟨first, hfirst, ?_⟩
  refine Traced.result_bind_eq_error_iff.2 (Or.inr ⟨(), Reservation.request_eq_ok_iff.2 hn, ?_⟩)
  exact Traced.result_bind_eq_error_iff.2 (Or.inl (Error.raise_eq_error_iff.2 hfault))

/-- Two lists of entries in range that say the same for each row make the same matrix or are refused
for the same reason, also in what is logged. So do lists that say the same for each choice, if the
choices are below the number of states or the numbers of choices that they ask for add up to a word. If
there is a choice that cannot be counted, each list is refused for the first such choice of its own. -/
theorem outcome_of_interleaving (options : Options) :
    (∀ (n : Nat) (entries entries' : List Entry), Matrix.InRange n n entries →
      Matrix.InRange n n entries' →
      (∀ src < n, Entry.rowOf src entries' = Entry.rowOf src entries) →
      Matrix.ofEntries n entries' options = Matrix.ofEntries n entries options) ∧
    ∀ (n : Nat) (entries entries' : List ChoiceEntry), (∀ e ∈ entries, e.state < n ∧ e.dst < n) →
      (∀ e ∈ entries', e.state < n ∧ e.dst < n) → SameRows n entries entries' →
      ((∀ e ∈ entries, e.choice < n) ∨
          ((List.range n).map (ChoiceEntry.asked entries)).sum < Word.size →
        ofEntries n entries' options = ofEntries n entries options) ∧
      ((∃ e ∈ entries, ChoiceEntry.choiceLimit ≤ e.choice) → n < Reservation.limit →
        ∀ es ∈ [entries, entries'], ∃ e,
          es.find? (fun e => ChoiceEntry.choiceLimit ≤ e.choice) = some e ∧
          (ofEntries n es options).result
            = .error (.choiceOutOfRange e.state e.choice ChoiceEntry.choiceLimit)) := by
  refine ⟨fun n entries entries' h h' hrows => Matrix.rectangular_congr h h' hrows options, ?_⟩
  intro n entries entries' h h' hrows
  refine ⟨fun hchoice => ?_, fun hchoice hn es hes => ?_⟩
  · by_cases hn : n < Reservation.limit
    · rcases hchoice with hchoice | hfit
      · have hlimit : Reservation.limit < ChoiceEntry.choiceLimit := by decide
        refine ofEntries_congr h h' hrows (fun e he => ?_)
          (ChoiceEntry.sum_asked_lt_of_choice_lt hchoice) options
        have hlt := hchoice e he
        omega
      · exact ofEntries_congr h h' hrows
          (ChoiceEntry.lt_choiceLimit_of_sum_asked_lt (fun e he => (h e he).1) hfit)
          (fun _ => hfit) options
    · exact ofEntries_congr_of_limit_le (Nat.le_of_not_lt hn) options
  rcases List.mem_pair.1 hes with rfl | rfl
  · exact ofEntries_of_choiceLimit_le (fun e he => (h e he).1) hn hchoice options
  · obtain ⟨e, he, hle⟩ := hchoice
    obtain ⟨e', he', _, heq⟩ := hrows.exists_mem he (h e he).1
    have hle' : ChoiceEntry.choiceLimit ≤ e'.choice := heq ▸ hle
    exact ofEntries_of_choiceLimit_le (fun e he => (h' e he).1) hn ⟨e', he', hle'⟩ options

/-- Two rows, and two choices of a state, with their entries taken in turns and one after another. -/
theorem outcome_of_two_rows :
    (∃ m, (Matrix.ofEntries 2 [⟨0, 1, .one⟩, ⟨1, 0, .zero⟩, ⟨0, 0, ⟨0x8000000000000000⟩⟩] {}).result
        = .ok m ∧
      (Matrix.ofEntries 2 [⟨1, 0, .zero⟩, ⟨0, 1, .one⟩, ⟨0, 0, ⟨0x8000000000000000⟩⟩] {}).result
        = .ok m) ∧
    ∃ m, (ofEntries 2 [⟨0, 0, 1, .one⟩, ⟨0, 1, 0, .zero⟩, ⟨0, 0, 0, .one⟩] {}).result = .ok m ∧
      (ofEntries 2 [⟨0, 1, 0, .zero⟩, ⟨0, 0, 1, .one⟩, ⟨0, 0, 0, .one⟩] {}).result = .ok m := by
  obtain ⟨hrows, hchoices⟩ := outcome_of_interleaving {}
  have hsame : SameRows 2 [⟨0, 0, 1, .one⟩, ⟨0, 1, 0, .zero⟩, ⟨0, 0, 0, .one⟩]
      [⟨0, 1, 0, .zero⟩, ⟨0, 0, 1, .one⟩, ⟨0, 0, 0, .one⟩] :=
    ChoiceEntry.sameRows_swap (by decide) _
  constructor
  · obtain ⟨m, hm⟩ : ∃ m, (Matrix.ofEntries 2 [⟨0, 1, .one⟩, ⟨1, 0, .zero⟩,
        ⟨0, 0, ⟨0x8000000000000000⟩⟩] {}).result = .ok m :=
      Matrix.exists_rectangular rfl (by decide) (by decide) (by unfold Matrix.InRange; decide)
        (by decide) (by decide)
    refine ⟨m, hm, (congrArg Traced.result (hrows 2 _ _ ?_ ?_ (by decide))).trans hm⟩
    · unfold Matrix.InRange
      decide
    · unfold Matrix.InRange
      decide
  · obtain ⟨m, hm⟩ : ∃ m, (ofGroups [2, 0] [⟨0, 0, 1, .one⟩, ⟨0, 1, 0, .zero⟩, ⟨0, 0, 0, .one⟩]
        {}).result = .ok m :=
      exists_ofGroups rfl (by decide) (by decide) (ChoiceEntry.findSome?_fault.1 (by decide))
        (by decide) (by decide) (by decide)
    have hm : (ofEntries 2 [⟨0, 0, 1, .one⟩, ⟨0, 1, 0, .zero⟩, ⟨0, 0, 0, .one⟩] {}).result = .ok m :=
      ofEntries_eq_ok_iff.2 ⟨by decide, hm⟩
    obtain ⟨heq, _⟩ := hchoices 2 _ _ (by decide) (by decide) hsame
    exact ⟨m, hm, (congrArg Traced.result (heq (Or.inl (by decide)))).trans hm⟩

end ChoiceMatrix

end TransitionMatrix
