import TransitionMatrix.Proofs.Matrix.Soundness
import TransitionMatrix.Proofs.Reasons
import TransitionMatrix.Proofs.Row.Bounds
import TransitionMatrix.Proofs.Row.Forms

/-!
# When a matrix can be built

A matrix is built unless one of the checks on the way finds a reason not to. The reasons are listed in
the order of the checks, with one for each entry in the order of the list, so that of several faults
the first one is reported. Nothing else goes wrong: the boundaries end at the number of entries, and
every place of an array that is looked at is there.
-/

namespace TransitionMatrix

/-! ## The reasons -/

/-- The errors that say that some limit is exceeded. -/
def Error.OfLimits : Error → Prop
  | .invalidColumnWidth .. => True
  | .tooManyStates .. => True
  | .outOfMemory .. => True
  | .rowTooLong .. => True
  | _ => False

/-- Packed entries cannot have the number of bits that is asked for. -/
def Options.BadWidth (o : Options) : Error.Reason := fun err =>
  ¬ (2 ≤ o.columnBits ∧ o.columnBits ≤ 32) ∧ err = .invalidColumnWidth o.columnBits

theorem Options.failsFor_check (o : Options) : FailsFor o.check [o.BadWidth] := by
  intro err
  rw [Error.first_singleton, check_eq_error_iff, BadWidth]

theorem Options.BadWidth.ofLimits {o : Options} {err : Error} (h : o.BadWidth err) : err.OfLimits := by
  obtain ⟨_, rfl⟩ := h
  trivial

theorem Options.not_badWidth_iff (o : Options) :
    (∀ err, ¬ o.BadWidth err) ↔ 2 ≤ o.columnBits ∧ o.columnBits ≤ 32 := by
  simp [BadWidth]

/-- An array of the length cannot be had. -/
def Reservation.Unavailable (what : Reservation) (length : Nat) : Error.Reason := fun err =>
  limit ≤ length ∧ err = .outOfMemory what length

theorem Reservation.failsFor_request (what : Reservation) (length : Nat) :
    FailsFor (what.request length) [what.Unavailable length] := by
  intro err
  rw [Error.first_singleton, request_eq_error_iff, Unavailable]

theorem Reservation.Unavailable.ofLimits {what : Reservation} {length : Nat} {err : Error}
    (h : what.Unavailable length err) : err.OfLimits := by
  obtain ⟨_, rfl⟩ := h
  trivial

theorem Reservation.not_unavailable_iff {what : Reservation} {length : Nat} :
    (∀ err, ¬ what.Unavailable length err) ↔ length < limit := by
  simp [Unavailable]

/-- Every array that the computation asks for can be had. -/
def Traced.Allocates {α : Type} (x : Traced α) : Prop :=
  ∀ what length, x.result ≠ .error (.outOfMemory what length)

theorem Traced.allocates_of_ok {α : Type} {x : Traced α} {a : α} (h : x.result = .ok a) :
    x.Allocates := by
  intro what length herror
  cases h.symm.trans herror

/-- Where every array can be had, the reason that there is none is left out. -/
theorem FailsFor.of_allocates {α : Type} {x : Traced α} {before rest : List Error.Reason}
    {what : Reservation} {length : Nat}
    (h : FailsFor x.result (before ++ what.Unavailable length :: rest)) (hx : x.Allocates) :
    FailsFor x.result (before ++ rest) := by
  intro err
  rw [h err]
  refine Error.first_append_cons_of_not fun hbefore e hreason => ?_
  obtain ⟨hle, rfl⟩ := hreason
  refine hx what length ((h _).2 ?_)
  exact Error.first_append.2 (Or.inr ⟨hbefore, Or.inl ⟨hle, rfl⟩⟩)

namespace RowExtents

/-- Counts are asked for, and some row is too long for them: named is the last one of the longest. -/
def TooLong (lengths : List Nat) (encoding : RowEncoding) : Error.Reason := fun err =>
  encoding = .counts ∧ ∃ row length, IsLastLongest lengths row length ∧ maxCount < length ∧
    err = .rowTooLong row length

theorem TooLong.ofLimits {lengths : List Nat} {encoding : RowEncoding} {err : Error}
    (h : TooLong lengths encoding err) : err.OfLimits := by
  obtain ⟨_, _, _, _, _, rfl⟩ := h
  trivial

theorem IsLastLongest.unique {lengths : List Nat} {row length row' length' : Nat}
    (h : IsLastLongest lengths row length) (h' : IsLastLongest lengths row' length') :
    row = row' ∧ length = length' := by
  have hle := h.le length' (List.mem_of_getElem? h'.length_eq)
  have hge := h'.le length (List.mem_of_getElem? h.length_eq)
  rcases Nat.lt_trichotomy row row' with hlt | heq | hgt
  · have hlater := h.lt_of_later row' length' hlt h'.length_eq
    omega
  · exact ⟨heq, Nat.le_antisymm hge hle⟩
  · have hlater := h'.lt_of_later row length hgt h.length_eq
    omega

theorem failsFor_ofLengths (lengths : List Nat) (encoding : RowEncoding) :
    FailsFor (ofLengths lengths encoding).result [TooLong lengths encoding] := by
  intro err
  rw [Error.first_singleton]
  constructor
  · intro h
    exact useCounts_eq_error (ofLengths_eq_error_iff.1 h)
  · rintro ⟨hcounts, row, length, hlongest, hlong, rfl⟩
    have hmem := List.mem_of_getElem? hlongest.length_eq
    obtain ⟨err, herr⟩ := exists_ofLengths_eq_error_iff.2 ⟨hcounts, length, hmem, hlong⟩
    obtain ⟨_, row', length', hlongest', _, rfl⟩ :=
      useCounts_eq_error (ofLengths_eq_error_iff.1 herr)
    obtain ⟨rfl, rfl⟩ := hlongest.unique hlongest'
    exact herr

theorem not_tooLong_iff {lengths : List Nat} {encoding : RowEncoding} :
    (∀ err, ¬ TooLong lengths encoding err) ↔
      (encoding = .counts → ∀ l ∈ lengths, l ≤ maxCount) := by
  have hiff : (∃ err, TooLong lengths encoding err) ↔
      encoding = .counts ∧ ∃ l ∈ lengths, maxCount < l := by
    rw [← exists_ofLengths_eq_error_iff]
    refine exists_congr fun err => ?_
    rw [failsFor_ofLengths lengths encoding err, Error.first_singleton]
  rw [← not_exists, hiff]
  simp

end RowExtents

/-- The source of the entry is no row, or else the destination is no state. -/
def Entry.Fault (numRows numCols : Nat) (e : Entry) : Error.Reason := fun err =>
  numRows ≤ e.src ∧ err = .stateOutOfRange e.src numRows ∨
    e.src < numRows ∧ numCols ≤ e.dst ∧ err = .stateOutOfRange e.dst numCols

theorem Entry.fault?_eq_some_iff {numRows numCols : Nat} (e : Entry) (err : Error) :
    e.fault? numRows numCols = some err ↔ e.Fault numRows numCols err := by
  unfold fault? Fault
  by_cases hsrc : numRows ≤ e.src
  · have hlt : ¬ e.src < numRows := Nat.not_lt.2 hsrc
    simp [hsrc, hlt, eq_comm]
  · have hlt : e.src < numRows := Nat.lt_of_not_le hsrc
    by_cases hdst : numCols ≤ e.dst
    · simp [hsrc, hlt, hdst, eq_comm]
    · simp [hsrc, hdst]

theorem Entry.not_fault_iff {numRows numCols : Nat} {e : Entry} :
    (∀ err, ¬ e.Fault numRows numCols err) ↔ e.src < numRows ∧ e.dst < numCols := by
  unfold Fault
  constructor
  · intro h
    have hsrc : e.src < numRows := Nat.lt_of_not_le fun hle => h _ (Or.inl ⟨hle, rfl⟩)
    exact ⟨hsrc, Nat.lt_of_not_le fun hle => h _ (Or.inr ⟨hsrc, hle, rfl⟩)⟩
  · rintro ⟨hsrc, hdst⟩ err (⟨hle, _⟩ | ⟨_, hle, _⟩)
    · omega
    · omega

theorem Entry.Fault.exists_eq {numRows numCols : Nat} {e : Entry} {err : Error}
    (h : e.Fault numRows numCols err) : ∃ state numStates, err = .stateOutOfRange state numStates := by
  rcases h with ⟨_, rfl⟩ | ⟨_, _, rfl⟩
  · exact ⟨_, _, rfl⟩
  · exact ⟨_, _, rfl⟩

namespace Matrix

/-- Destinations would not fit in 32 bits. -/
def TooManyStates (numCols : Nat) : Error.Reason := fun err =>
  maxStates < numCols ∧ err = .tooManyStates numCols

theorem TooManyStates.ofLimits {numCols : Nat} {err : Error} (h : TooManyStates numCols err) :
    err.OfLimits := by
  obtain ⟨_, rfl⟩ := h
  trivial

theorem failsFor_raise_maxStates (numCols : Nat) :
    FailsFor (Error.raise (if maxStates < numCols then some (.tooManyStates numCols) else none))
      [TooManyStates numCols] := by
  intro err
  rw [Error.first_singleton, Error.raise_eq_error_iff, TooManyStates]
  by_cases hlt : maxStates < numCols
  · simp [hlt, eq_comm]
  · simp [hlt]

theorem not_tooManyStates_iff {numCols : Nat} :
    (∀ err, ¬ TooManyStates numCols err) ↔ numCols ≤ maxStates := by
  simp [TooManyStates]

variable {numRows numCols : Nat} {entries : List Entry} {options : Options}

theorem not_fault_iff_inRange : (∀ reason ∈ entries.map (Entry.Fault numRows numCols),
    ∀ err, ¬ reason err) ↔ InRange numRows numCols entries := by
  simp only [List.forall_mem_map, Entry.not_fault_iff]
  rfl

/-! ## The checks one after another -/

/-- What a matrix of rows and states is refused for, in the order of the checks. -/
def reasons (numRows numCols : Nat) (entries : List Entry) (options : Options) : List Error.Reason :=
  options.BadWidth :: TooManyStates numCols :: Reservation.rowLengths.Unavailable numRows ::
    (entries.map (Entry.Fault numRows numCols) ++
      [RowExtents.TooLong (rowLengths numRows entries) options.rowEncoding,
        Reservation.rowOrder.Unavailable entries.length])

theorem failsFor_rectangular (numRows numCols : Nat) (entries : List Entry) (options : Options) :
    FailsFor (rectangular numRows numCols entries options).result
      (reasons numRows numCols entries options) := by
  refine FailsFor.bind_cons options.failsFor_check fun _ _ => ?_
  refine FailsFor.bind_cons (failsFor_raise_maxStates numCols) fun _ _ => ?_
  refine FailsFor.bind_cons (Reservation.rowLengths.failsFor_request numRows) fun _ _ => ?_
  refine FailsFor.bind (failsFor_raise_findSome? Entry.fault?_eq_some_iff entries) fun _ hfault => ?_
  have hentries := findSome?_fault.1 (Error.raise_eq_ok_iff.1 hfault)
  dsimp only
  rw [toList_countRows_src, inOrder_rowOrder hentries]
  refine FailsFor.bind_cons (RowExtents.failsFor_ofLengths _ _) fun extents hextents => ?_
  refine FailsFor.bind_cons (Reservation.rowOrder.failsFor_request _) fun _ horder => ?_
  -- every check is passed, and what is left succeeds
  obtain ⟨storage, hstorage⟩ :=
    ColumnStorage.exists_ofCells (Entry.rowMajor numRows entries) numCols options
  refine FailsFor.bind_ok hstorage ?_
  refine FailsFor.bind_ok
    (check_ofExtents hentries (Reservation.request_eq_ok_iff.1 horder) hextents) ?_
  refine FailsFor.bind_ok rfl ?_
  exact failsFor_ok _

theorem ofLimits_of_mem_reasons {reason : Error.Reason} {err : Error}
    (hmem : reason ∈ reasons numRows numCols entries options) (h : reason err) :
    err.OfLimits ∨ ∃ e ∈ entries, e.Fault numRows numCols err := by
  simp only [reasons, List.mem_cons, List.mem_append, List.mem_map, List.not_mem_nil, or_false] at hmem
  rcases hmem with rfl | rfl | rfl | ⟨e, he, rfl⟩ | rfl | rfl
  · exact Or.inl h.ofLimits
  · exact Or.inl h.ofLimits
  · exact Or.inl h.ofLimits
  · exact Or.inr ⟨e, he, h⟩
  · exact Or.inl h.ofLimits
  · exact Or.inl h.ofLimits

/-- A matrix is refused because some limit is exceeded or for the fault of an entry. -/
theorem ofLimits_of_rectangular {err : Error}
    (h : (rectangular numRows numCols entries options).result = .error err) :
    err.OfLimits ∨ ∃ e ∈ entries, e.Fault numRows numCols err := by
  obtain ⟨reason, hmem, hreason⟩ :=
    (failsFor_rectangular numRows numCols entries options).exists_mem h
  exact ofLimits_of_mem_reasons hmem hreason

/-- If destinations are 32-bit numbers and there are as many rows as destinations, then the lengths
of the rows can be had. -/
theorem failsFor_ofEntries (n : Nat) (entries : List Entry) (options : Options) :
    FailsFor (ofEntries n entries options).result
      (options.BadWidth :: TooManyStates n :: (entries.map (Entry.Fault n n) ++
        [RowExtents.TooLong (rowLengths n entries) options.rowEncoding,
          Reservation.rowOrder.Unavailable entries.length])) := by
  intro err
  have hrequest : (∀ e, ¬ Error.First [options.BadWidth, TooManyStates n] e) →
      ∀ e, ¬ Reservation.rowLengths.Unavailable n e := by
    rintro hbefore e ⟨hle, _⟩
    have hlimit : maxStates < Reservation.limit := by decide
    have hfew := Error.not_first_iff.1 hbefore (TooManyStates n)
      (List.mem_cons_of_mem options.BadWidth List.mem_cons_self)
    exact Nat.not_lt.2 (not_tooManyStates_iff.1 hfew) (Nat.lt_of_lt_of_le hlimit hle)
  rw [ofEntries, failsFor_rectangular n n entries options err]
  exact Error.first_append_cons_of_not hrequest

theorem exists_ofEntries_iff {n : Nat} :
    (∃ m, (ofEntries n entries options).result = .ok m) ↔
      (2 ≤ options.columnBits ∧ options.columnBits ≤ 32) ∧ n ≤ maxStates ∧ InRange n n entries ∧
      (options.rowEncoding = .counts →
        ∀ src < n, (Entry.rowOf src entries).length ≤ RowExtents.maxCount) ∧
      entries.length < Reservation.limit := by
  rw [(failsFor_ofEntries n entries options).exists_ok_iff, List.forall_mem_cons,
    List.forall_mem_cons, List.forall_mem_append, List.forall_mem_cons, List.forall_mem_singleton,
    options.not_badWidth_iff, not_tooManyStates_iff, not_fault_iff_inRange,
    RowExtents.not_tooLong_iff, Reservation.not_unavailable_iff]
  simp only [rowLengths, List.forall_mem_map, List.mem_range]

/-- Where every array can be had, the number of entries is no reason. -/
theorem exists_ofEntries_iff_of_allocates {n : Nat} (h : (ofEntries n entries options).Allocates) :
    (∃ m, (ofEntries n entries options).result = .ok m) ↔
      (2 ≤ options.columnBits ∧ options.columnBits ≤ 32) ∧ n ≤ maxStates ∧ InRange n n entries ∧
      (options.rowEncoding = .counts →
        ∀ src < n, (Entry.rowOf src entries).length ≤ RowExtents.maxCount) := by
  have hfails : FailsFor (ofEntries n entries options).result
      (([options.BadWidth, TooManyStates n] ++ entries.map (Entry.Fault n n) ++
        [RowExtents.TooLong (rowLengths n entries) options.rowEncoding]) ++
        [Reservation.rowOrder.Unavailable entries.length]) := by
    rw [List.append_assoc, List.append_assoc]
    exact failsFor_ofEntries n entries options
  have hrest := hfails.of_allocates h
  rw [List.append_nil] at hrest
  rw [hrest.exists_ok_iff, List.append_assoc, List.forall_mem_append, List.forall_mem_append,
    List.forall_mem_cons, List.forall_mem_singleton, List.forall_mem_singleton,
    options.not_badWidth_iff, not_tooManyStates_iff, not_fault_iff_inRange,
    RowExtents.not_tooLong_iff, and_assoc]
  simp only [rowLengths, List.forall_mem_map, List.mem_range]

/-! ## Places -/

/-- The cells in the order in which they are stored, if every place that is looked at on the way to
them is there. -/
def gather? (numRows : Nat) (entries : List Entry) : Option (List Cell) := do
  let rows := entries.map Entry.src
  let lengths ← countRows? numRows rows
  let order ← rowOrder? lengths.toList rows
  Entry.inOrder? entries.toArray order

theorem gather?_eq (h : InRange numRows numCols entries) :
    gather? numRows entries = some (Entry.rowMajor numRows entries) := by
  have hlength : (rowLengths numRows entries).length = numRows := by simp [rowLengths]
  have hrows : ∀ row ∈ entries.map Entry.src, row < numRows := by
    intro row hrow
    obtain ⟨e, he, rfl⟩ := List.mem_map.1 hrow
    exact (h e he).1
  have hbound : ∀ row ∈ entries.map Entry.src, row < (rowLengths numRows entries).length := by
    rw [hlength]
    exact hrows
  have hcount : ∀ row (hrow : row < (rowLengths numRows entries).length),
      (rowLengths numRows entries)[row] = (entries.map Entry.src).count row := by
    intro row hrow
    simp only [rowLengths, List.getElem_map, List.getElem_range, Entry.length_rowOf]
  have hsum : (rowLengths numRows entries).sum = (entries.map Entry.src).length := by
    rw [rowLengths_sum h, List.length_map]
  have horder := rowOrder?_eq hbound hcount hsum
  have hnumbers : ∀ i ∈ (rowOrder (rowLengths numRows entries) (entries.map Entry.src)).toList,
      i < entries.toArray.size := by
    intro i hi
    have hlt := lt_of_mem_rowOrder hbound hcount hsum hi
    rwa [List.length_map] at hlt
  calc gather? numRows entries
      = (rowOrder? (countRows numRows (entries.map Entry.src)).toList (entries.map Entry.src)).bind
          (Entry.inOrder? entries.toArray) := by
        rw [gather?, countRows?_eq hrows]
        rfl
    _ = Entry.inOrder? entries.toArray
          (rowOrder (rowLengths numRows entries) (entries.map Entry.src)) := by
        rw [toList_countRows_src, horder, Option.bind_some]
    _ = some (Entry.rowMajor numRows entries) := by
        rw [Entry.inOrder?_eq hnumbers, inOrder_rowOrder h]

/-- Every place that is looked at while entries are stored is there. -/
structure StoredInBounds (numRows numCols : Nat) (entries : List Entry) (options : Options) :
    Prop where
  /-- Counting, placing and gathering come to the end with every place looked up first. -/
  gathered : gather? numRows entries = some (Entry.inOrder entries.toArray
    (rowOrder (countRows numRows (entries.map Entry.src)).toList (entries.map Entry.src)))
  /-- Every cell has the number of a weight that is there, and the low field has room for it. -/
  numbered : ∀ dictionary numbers packing,
    Dictionary.ofValues ((Entry.rowMajor numRows entries).map Cell.weight) = (dictionary, numbers) →
    dictionary.fit numCols options.columnBits = .fits packing →
    numbers.length = (Entry.rowMajor numRows entries).length ∧
    ∀ number ∈ numbers, number.toNat < dictionary.size ∧ number ≤ packing.mask

theorem storedInBounds (h : InRange numRows numCols entries) (options : Options) :
    StoredInBounds numRows numCols entries options := by
  constructor
  · rw [gather?_eq h, toList_countRows_src, inOrder_rowOrder h]
  · intro dictionary numbers packing hnumbered hfits
    have hp : ColumnStorage.Packs (Entry.rowMajor numRows entries) numCols options.columnBits
        dictionary numbers packing := by
      refine ⟨hnumbered, hfits, fun c hc => ?_⟩
      obtain ⟨e, he, rfl⟩ := Entry.mem_rowMajor hc
      exact (h e he).2
    refine ⟨hp.length_numbers, fun number hnumber => ?_⟩
    have hvalue := List.mem_map_of_mem (f := fun i => dictionary.values[i.toNat]?) hnumber
    rw [hp.map_values] at hvalue
    obtain ⟨c, _, hc⟩ := List.mem_map.1 hvalue
    obtain ⟨hlt, _⟩ := Array.getElem?_eq_some_iff.1 hc.symm
    refine ⟨hlt, ?_⟩
    have hroom := hp.size_le
    rw [UInt32.le_iff_toNat_le, Packing.toNat_mask]
    omega

/-! ## All together -/

/-- A matrix of `n` states is refused for the first of these reasons: a width that packed entries
cannot have, too many states, an entry that is out of range, with its source before its destination,
rows that are too long for the counts that are asked for, and more entries than can be put in order.
Otherwise it is built, and no place of an array that is looked at is missing, neither on the way nor
in the end. -/
theorem outcome_of_entries (n : Nat) (entries : List Entry) (options : Options) :
    FailsFor (ofEntries n entries options).result
      (options.BadWidth :: TooManyStates n :: (entries.map (Entry.Fault n n) ++
        [RowExtents.TooLong (rowLengths n entries) options.rowEncoding,
          Reservation.rowOrder.Unavailable entries.length])) ∧
    ((∃ m, (ofEntries n entries options).result = .ok m) ↔
      (2 ≤ options.columnBits ∧ options.columnBits ≤ 32) ∧ n ≤ 4294967295 ∧ InRange n n entries ∧
      (options.rowEncoding = .counts → ∀ src < n, (Entry.rowOf src entries).length ≤ 255) ∧
      entries.length < Reservation.limit) ∧
    (∀ expected found,
      (ofEntries n entries options).result ≠ .error (.inconsistentIndex expected found)) ∧
    (∀ before, before <+: entries → InRange n n before →
      countRows? n (before.map Entry.src) = some (countRows n (before.map Entry.src))) ∧
    (InRange n n entries → StoredInBounds n n entries options) ∧
    ∀ m, (ofEntries n entries options).result = .ok m → m.InBounds := by
  refine ⟨failsFor_ofEntries n entries options, exists_ofEntries_iff, ?_, ?_,
    fun h => storedInBounds h options, ?_⟩
  · intro expected found h
    rcases ofLimits_of_rectangular h with hlimits | ⟨e, _, ⟨_, herr⟩ | ⟨_, _, herr⟩⟩
    · exact hlimits
    · cases herr
    · cases herr
  · intro before _ hbefore
    refine countRows?_eq fun row hrow => ?_
    obtain ⟨e, he, rfl⟩ := List.mem_map.1 hrow
    exact (hbefore e he).1
  · intro m hm
    exact (built_of_rectangular hm).sound.inBounds

/-- Two entries are bad, and of the first one only the destination is: with one bit the width is
reported, and with the width repaired that destination. Without them the entries can be stored. -/
theorem outcome_of_two_bad_entries :
    (ofEntries 2 [⟨0, 1, .one⟩, ⟨1, 7, .one⟩, ⟨5, 0, .one⟩] { columnBits := 1 }).result
      = .error (.invalidColumnWidth 1) ∧
    (ofEntries 2 [⟨0, 1, .one⟩, ⟨1, 7, .one⟩, ⟨5, 0, .one⟩] {}).result
      = .error (.stateOutOfRange 7 2) ∧
    ∃ m, (ofEntries 2 [⟨0, 1, .one⟩] { rowEncoding := .counts }).result = .ok m ∧ m.InBounds := by
  obtain ⟨hnarrow, _⟩ := outcome_of_entries 2 [⟨0, 1, .one⟩, ⟨1, 7, .one⟩, ⟨5, 0, .one⟩]
    { columnBits := 1 }
  obtain ⟨hwide, _⟩ := outcome_of_entries 2 [⟨0, 1, .one⟩, ⟨1, 7, .one⟩, ⟨5, 0, .one⟩] {}
  obtain ⟨_, hstored, _, _, _, hbounds⟩ := outcome_of_entries 2 [⟨0, 1, .one⟩]
    { rowEncoding := .counts }
  refine ⟨(hnarrow _).2 (Or.inl ⟨by decide, rfl⟩), (hwide _).2 ?_, ?_⟩
  · refine Or.inr ⟨fun _ h => h.1 (by decide), Or.inr ⟨fun _ h => absurd h.1 (by decide), ?_⟩⟩
    exact Or.inr ⟨Entry.not_fault_iff.2 (by decide), Or.inl (Or.inr ⟨by decide, by decide, rfl⟩)⟩
  · obtain ⟨m, hm⟩ := hstored.2
      ⟨by decide, by decide, by unfold InRange; decide, fun _ => by decide, by decide⟩
    exact ⟨m, hm, hbounds m hm⟩

end Matrix

end TransitionMatrix
