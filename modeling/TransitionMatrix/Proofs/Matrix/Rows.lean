import TransitionMatrix.Matrix.Build
import TransitionMatrix.Matrix.Query
import TransitionMatrix.Proofs.Column.Storage
import TransitionMatrix.Proofs.Row.Order

/-!
# Rows of a built matrix

A matrix that could be built answers every query as the list of its entries does: a row has the
entries with that source, in the order in which they came. Neither the form of the row lengths nor
that of the storage shows, except that the compact form gives back one zero for all zeros.
-/

namespace TransitionMatrix

namespace Entry

/-- The cells of all rows, one row after another. -/
def rowMajor (numRows : Nat) (entries : List Entry) : List Cell :=
  ((List.range numRows).map fun src => rowOf src entries).flatten

/-- What a row of a matrix that is stored in the given form reads back as. -/
def storedRow (compact : Bool) (numRows : Nat) (entries : List Entry) (src : Nat) : List Cell :=
  if compact then (rowOf src entries).map (Cell.withZero (Cell.firstZero (rowMajor numRows entries)))
  else rowOf src entries

theorem mem_rowOf {src : Nat} {entries : List Entry} {c : Cell} :
    c ∈ rowOf src entries ↔ ∃ e ∈ entries, e.src = src ∧ e.cell = c := by
  simp only [rowOf, List.mem_filterMap]
  constructor
  · rintro ⟨e, he, hc⟩
    split at hc
    · exact ⟨e, he, by assumption, Option.some.inj hc⟩
    · cases hc
  · rintro ⟨e, he, hsrc, hc⟩
    exact ⟨e, he, by rw [if_pos hsrc, hc]⟩

theorem length_rowOf (src : Nat) (entries : List Entry) :
    (rowOf src entries).length = (entries.map Entry.src).count src := by
  rw [rowOf, List.length_filterMap_eq_countP, List.count, List.countP_map]
  congr 1
  funext e
  by_cases he : e.src = src <;> simp [he]

/-- The numbers of the entries of a row stand for the cells that the row gets. -/
theorem filterMap_entriesOf (src : Nat) (entries : List Entry) :
    (entriesOf src (entries.map Entry.src).zipIdx).filterMap
        (fun i => entries.toArray[i]?.map cell)
      = rowOf src entries := by
  have hnumbered : ∀ p ∈ entries.zipIdx,
      ((if p.1.src = src then some p.2 else none).bind fun i => entries.toArray[i]?.map cell)
        = if p.1.src = src then some p.1.cell else none := by
    rintro ⟨e, i⟩ hp
    have hat := List.mk_mem_zipIdx_iff_getElem?.1 hp
    split
    · rw [Option.bind_some, List.getElem?_toArray, hat, Option.map_some]
    · rfl
  rw [entriesOf, List.filterMap_filterMap, List.zipIdx_map, List.filterMap_map]
  refine (List.filterMap_congr hnumbered).trans ?_
  rw [rowOf]
  conv_rhs => rw [← List.zipIdx_map_fst 0 entries, List.filterMap_map]
  rfl

theorem mem_rowMajor {numRows : Nat} {entries : List Entry} {c : Cell}
    (hc : c ∈ rowMajor numRows entries) : ∃ e ∈ entries, e.cell = c := by
  obtain ⟨row, hrow, hc⟩ := List.mem_flatten.1 hc
  obtain ⟨src, _, rfl⟩ := List.mem_map.1 hrow
  obtain ⟨e, he, _, hcell⟩ := mem_rowOf.1 hc
  exact ⟨e, he, hcell⟩

theorem cell_mem_rowMajor {numRows : Nat} {entries : List Entry} {e : Entry} (he : e ∈ entries)
    (hsrc : e.src < numRows) : e.cell ∈ rowMajor numRows entries := by
  refine List.mem_flatten.2 ⟨_, List.mem_map_of_mem (List.mem_range.2 hsrc), ?_⟩
  exact mem_rowOf.2 ⟨e, he, rfl, rfl⟩

theorem map_dst_storedRow (compact : Bool) (numRows : Nat) (entries : List Entry) (src : Nat) :
    (storedRow compact numRows entries src).map Cell.dst = (rowOf src entries).map Cell.dst := by
  unfold storedRow
  split <;> simp

/-- Without zeros, a row reads back as it was given. -/
theorem storedRow_of_nonzero (compact : Bool) (numRows : Nat) {entries : List Entry}
    (h : ∀ e ∈ entries, e.weight.isZero = false) (src : Nat) :
    storedRow compact numRows entries src = rowOf src entries := by
  unfold storedRow
  split
  · refine (List.map_congr_left fun c hc => ?_).trans (List.map_id _)
    obtain ⟨e, he, _, rfl⟩ := mem_rowOf.1 hc
    exact Cell.withZero_of_nonzero _ (h e he)
  · rfl

/-- Which zero a row reads back does not show in the keys. -/
theorem map_key_storedRow (compact : Bool) {numRows : Nat} (entries : List Entry) {src : Nat}
    (hsrc : src < numRows) :
    (storedRow compact numRows entries src).map Cell.key = (rowOf src entries).map Cell.key := by
  unfold storedRow
  split
  · rw [List.map_map]
    refine List.map_congr_left fun c hc => Cell.key_withZero ?_
    exact List.mem_flatten.2 ⟨_, List.mem_map_of_mem (List.mem_range.2 hsrc), hc⟩
  · rfl

/-- The stored rows one after another are what the storage reads back as. -/
theorem flatten_storedRow (compact : Bool) (numRows : Nat) (entries : List Entry) :
    ((List.range numRows).map (storedRow compact numRows entries)).flatten
      = ColumnStorage.readBack compact (rowMajor numRows entries) := by
  cases compact with
  | false => rfl
  | true =>
    rw [ColumnStorage.readBack, if_pos rfl]
    conv_rhs => rw [rowMajor, List.map_flatten, List.map_map]
    rfl

/-- No entry is left out when entries are gathered by row. -/
theorem length_rowMajor {numRows : Nat} {entries : List Entry}
    (h : ∀ e ∈ entries, e.src < numRows) : (rowMajor numRows entries).length = entries.length := by
  have hcount : ∀ k : Nat, (rowMajor k entries).length = entries.countP fun e => e.src < k := by
    intro k
    induction k with
    | zero => simp [rowMajor]
    | succ k ih =>
      have hrow : (rowOf k entries).length = entries.countP fun e => e.src = k := by
        rw [rowOf, List.length_filterMap_eq_countP]
        congr 1
        funext e
        by_cases he : e.src = k <;> simp [he]
      have hsplit : (rowMajor (k + 1) entries).length
          = (rowMajor k entries).length + (rowOf k entries).length := by
        simp [rowMajor, List.range_succ]
      rw [hsplit, ih, hrow]
      clear h ih hrow hsplit
      induction entries with
      | nil => rfl
      | cons e rest ihe =>
        simp only [List.countP_cons, decide_eq_true_eq]
        rcases Nat.lt_trichotomy e.src k with hlt | heq | hgt
        · rw [if_pos hlt, if_neg (by omega), if_pos (by omega)]
          omega
        · rw [if_neg (by omega), if_pos heq, if_pos (by omega)]
          omega
        · rw [if_neg (by omega), if_neg (by omega), if_neg (by omega)]
          omega
  rw [hcount, List.countP_eq_length]
  intro e he
  simpa using h e he

end Entry

namespace Matrix

/-! ## Building -/

/-- The lengths of the rows that entries are gathered in. -/
def rowLengths (numRows : Nat) (entries : List Entry) : List Nat :=
  (List.range numRows).map fun src => (Entry.rowOf src entries).length

/-- What the entries of a matrix have to satisfy. -/
def InRange (numRows numCols : Nat) (entries : List Entry) : Prop :=
  ∀ e ∈ entries, e.src < numRows ∧ e.dst < numCols

theorem findSome?_fault {numRows numCols : Nat} {entries : List Entry} :
    entries.findSome? (Entry.fault? numRows numCols) = none ↔ InRange numRows numCols entries := by
  rw [List.findSome?_eq_none_iff]
  refine forall₂_congr fun e _ => ?_
  unfold Entry.fault?
  by_cases hsrc : numRows ≤ e.src
  · simp [hsrc]
  · by_cases hdst : numCols ≤ e.dst
    · simp [hsrc, hdst]
    · simp [hsrc, hdst]
      omega

/-- The matrix is the one that is put together from the entries gathered by row. -/
structure Built (m : Matrix) (numRows numCols : Nat) (entries : List Entry) (options : Options) :
    Prop where
  /-- The width of packed entries is one of those allowed. -/
  check : options.check = .ok ()
  /-- Destinations are 32-bit words. -/
  numCols_le : numCols ≤ maxStates
  /-- The lengths can be allocated. -/
  numRows_lt : numRows < Reservation.limit
  /-- Every entry is in range. -/
  inRange : InRange numRows numCols entries
  /-- The order of the entries can be allocated. -/
  length_lt : entries.length < Reservation.limit
  numRows_eq : m.numRows = numRows
  numCols_eq : m.numCols = numCols
  /-- The lengths are those of the rows. -/
  extents : (RowExtents.ofLengths (rowLengths numRows entries) options.rowEncoding).result
    = .ok m.extents
  /-- The boundaries are worked out from the lengths. -/
  spans : m.spans = RowSpans.ofExtents m.extents
  /-- The cells are stored row after row. -/
  storage : (ColumnStorage.ofCells (Entry.rowMajor numRows entries) numCols options).result
    = .ok m.storage

theorem rowLengths_sum {numRows numCols : Nat} {entries : List Entry}
    (h : InRange numRows numCols entries) : (rowLengths numRows entries).sum = entries.length := by
  rw [← Entry.length_rowMajor fun e he => (h e he).1, Entry.rowMajor, List.length_flatten,
    List.map_map]
  rfl

/-- The entries that are counted for a row are those that it gets. -/
theorem toList_countRows_src (numRows : Nat) (entries : List Entry) :
    (countRows numRows (entries.map Entry.src)).toList = rowLengths numRows entries := by
  rw [toList_countRows, rowLengths]
  refine List.map_congr_left fun src _ => ?_
  rw [Entry.length_rowOf]

/-- In the order in which they are stored, the entries are those of the rows one after another. -/
theorem inOrder_rowOrder {numRows numCols : Nat} {entries : List Entry}
    (h : InRange numRows numCols entries) :
    Entry.inOrder entries.toArray (rowOrder (rowLengths numRows entries) (entries.map Entry.src))
      = Entry.rowMajor numRows entries := by
  have hlength : (rowLengths numRows entries).length = numRows := by simp [rowLengths]
  have horder : (rowOrder (rowLengths numRows entries) (entries.map Entry.src)).toList
      = ((List.range numRows).map fun src =>
          entriesOf src (entries.map Entry.src).zipIdx).flatten := by
    rw [toList_rowOrder, hlength]
    · intro src hsrc
      obtain ⟨e, he, rfl⟩ := List.mem_map.1 hsrc
      rw [hlength]
      exact (h e he).1
    · intro src hsrc
      simp only [rowLengths, List.getElem_map, List.getElem_range, Entry.length_rowOf]
    · rw [rowLengths_sum h, List.length_map]
  rw [Entry.inOrder, horder, List.filterMap_flatten, List.map_map, Entry.rowMajor]
  congr 1
  refine List.map_congr_left fun src _ => ?_
  exact Entry.filterMap_entriesOf src entries

theorem raise_maxStates_eq_ok_iff {numCols : Nat} :
    Error.raise (if maxStates < numCols then some (.tooManyStates numCols) else none) = .ok () ↔
      numCols ≤ maxStates := by
  rw [Error.raise_eq_ok_iff]
  split <;> simp_all

theorem built_of_rectangular {numRows numCols : Nat} {entries : List Entry} {options : Options}
    {m : Matrix} (h : (rectangular numRows numCols entries options).result = .ok m) :
    m.Built numRows numCols entries options := by
  obtain ⟨_, hcheck, h⟩ := Traced.result_bind_eq_ok_iff.1 h
  obtain ⟨_, hcols, h⟩ := Traced.result_bind_eq_ok_iff.1 h
  obtain ⟨_, hrows, h⟩ := Traced.result_bind_eq_ok_iff.1 h
  obtain ⟨_, hfault, h⟩ := Traced.result_bind_eq_ok_iff.1 h
  obtain ⟨extents, hextents, h⟩ := Traced.result_bind_eq_ok_iff.1 h
  obtain ⟨_, horder, h⟩ := Traced.result_bind_eq_ok_iff.1 h
  obtain ⟨storage, hstorage, h⟩ := Traced.result_bind_eq_ok_iff.1 h
  obtain ⟨_, _, h⟩ := Traced.result_bind_eq_ok_iff.1 h
  obtain ⟨_, _, h⟩ := Traced.result_bind_eq_ok_iff.1 h
  have hm : m = ⟨numRows, numCols, extents, RowSpans.ofExtents extents, storage⟩ :=
    (Except.ok.inj h).symm
  have hentries := findSome?_fault.1 (Error.raise_eq_ok_iff.1 hfault)
  rw [toList_countRows_src] at hextents hstorage
  rw [inOrder_rowOrder hentries] at hstorage
  subst hm
  exact ⟨hcheck, raise_maxStates_eq_ok_iff.1 hcols, Reservation.request_eq_ok_iff.1 hrows, hentries,
    Reservation.request_eq_ok_iff.1 horder, rfl, rfl, hextents, rfl, hstorage⟩

/-- Entries that can be put in order are not too many for the boundaries of their rows. -/
theorem ofExtents_rowLengths {numRows numCols : Nat} {entries : List Entry}
    {encoding : RowEncoding} {extents : RowExtents} (h : InRange numRows numCols entries)
    (hlength : entries.length < Reservation.limit)
    (hextents : (RowExtents.ofLengths (rowLengths numRows entries) encoding).result = .ok extents) :
    RowSpans.ofExtents extents = RowSpans.ofLengths (rowLengths numRows entries) := by
  refine RowSpans.ofExtents_of_ofLengths ?_ hextents
  rw [rowLengths_sum h]
  exact Reservation.lt_size_of_lt_limit hlength

/-- The boundaries that are worked out from the row lengths end at the number of entries. -/
theorem check_ofExtents {numRows numCols : Nat} {entries : List Entry} {encoding : RowEncoding}
    {extents : RowExtents} (h : InRange numRows numCols entries)
    (hlength : entries.length < Reservation.limit)
    (hextents : (RowExtents.ofLengths (rowLengths numRows entries) encoding).result = .ok extents) :
    (RowSpans.ofExtents extents).check entries.length = .ok () := by
  rw [ofExtents_rowLengths h hlength hextents, RowSpans.check, RowSpans.total_ofLengths,
    rowLengths_sum h, if_pos rfl]

/-- Nothing else is asked of entries than what is known of those of a matrix. -/
theorem rectangular_of_built {numRows numCols : Nat} {entries : List Entry} {options : Options}
    {m : Matrix} (hm : m.Built numRows numCols entries options) :
    (rectangular numRows numCols entries options).result = .ok m := by
  have hextents := hm.extents
  have hstorage := hm.storage
  have hspans := check_ofExtents hm.inRange hm.length_lt hextents
  have heq : m = ⟨numRows, numCols, m.extents, RowSpans.ofExtents m.extents, m.storage⟩ := by
    rw [← hm.numRows_eq, ← hm.numCols_eq, ← hm.spans]
  rw [← toList_countRows_src] at hextents
  rw [← inOrder_rowOrder hm.inRange, ← toList_countRows_src] at hstorage
  rw [heq]
  refine Traced.result_bind_eq_ok_iff.2 ⟨(), hm.check, ?_⟩
  refine Traced.result_bind_eq_ok_iff.2 ⟨(), raise_maxStates_eq_ok_iff.2 hm.numCols_le, ?_⟩
  refine Traced.result_bind_eq_ok_iff.2 ⟨(), Reservation.request_eq_ok_iff.2 hm.numRows_lt, ?_⟩
  refine Traced.result_bind_eq_ok_iff.2
    ⟨(), Error.raise_eq_ok_iff.2 (findSome?_fault.2 hm.inRange), ?_⟩
  refine Traced.result_bind_eq_ok_iff.2 ⟨m.extents, hextents, ?_⟩
  refine Traced.result_bind_eq_ok_iff.2 ⟨(), Reservation.request_eq_ok_iff.2 hm.length_lt, ?_⟩
  refine Traced.result_bind_eq_ok_iff.2 ⟨m.storage, hstorage, ?_⟩
  refine Traced.result_bind_eq_ok_iff.2 ⟨(), hspans, ?_⟩
  exact Traced.result_bind_eq_ok_iff.2 ⟨(), rfl, rfl⟩

/-- Entries in range can be stored whenever the form of the row lengths is free. -/
theorem exists_rectangular {numRows numCols : Nat} {entries : List Entry} {options : Options}
    (hcheck : options.check = .ok ()) (hcols : numCols ≤ maxStates)
    (hrows : numRows < Reservation.limit) (hentries : InRange numRows numCols entries)
    (hlength : entries.length < Reservation.limit) (hcounts : options.rowEncoding ≠ .counts) :
    ∃ m, (rectangular numRows numCols entries options).result = .ok m := by
  obtain ⟨extents, hextents⟩ :=
    RowExtents.exists_ofLengths (rowLengths numRows entries) hcounts
  obtain ⟨storage, hstorage⟩ :=
    ColumnStorage.exists_ofCells (Entry.rowMajor numRows entries) numCols options
  exact ⟨⟨numRows, numCols, extents, RowSpans.ofExtents extents, storage⟩, rectangular_of_built
    ⟨hcheck, hcols, hrows, hentries, hlength, rfl, rfl, hextents, rfl, hstorage⟩⟩

/-! ## Reading -/

namespace Built

variable {m : Matrix} {numRows numCols : Nat} {entries : List Entry} {options : Options}
  (hm : m.Built numRows numCols entries options)

include hm

theorem stores : m.storage.Stores (Entry.rowMajor numRows entries) := by
  refine ColumnStorage.stores_of_ofCells hm.storage ?_ ?_
  · have := hm.numCols_le
    unfold maxStates at this
    omega
  · intro c hc
    obtain ⟨e, he, rfl⟩ := Entry.mem_rowMajor hc
    exact (hm.inRange e he).2

/-- Every entry is stored once. -/
theorem nonZeros_eq : m.nonZeros = entries.length := by
  rw [nonZeros, hm.stores.size_eq]
  exact Entry.length_rowMajor fun e he => (hm.inRange e he).1

theorem spans_eq : m.spans = RowSpans.ofLengths (rowLengths numRows entries) := by
  rw [hm.spans, ofExtents_rowLengths hm.inRange hm.length_lt hm.extents]

theorem span?_eq {src : Nat} (hsrc : src < numRows) :
    (RowSpans.ofLengths (rowLengths numRows entries)).span? src = some (m.span src) := by
  have hlt : src < (rowLengths numRows entries).length := by simpa [rowLengths] using hsrc
  rw [Matrix.span, hm.spans_eq, RowSpans.span?_ofLengths hlt, Option.getD_some]

/-- A row reads back as its entries, in the order in which they came. -/
theorem cells_eq {src : Nat} (hsrc : src < numRows) :
    m.cells src = Entry.storedRow m.isCompact numRows entries src := by
  have hlengths : rowLengths numRows entries
      = ((List.range numRows).map (Entry.storedRow m.isCompact numRows entries)).map List.length := by
    rw [List.map_map, rowLengths]
    refine List.map_congr_left fun i _ => ?_
    simpa using congrArg List.length
      (Entry.map_dst_storedRow m.isCompact numRows entries i).symm
  have hspan := hm.span?_eq hsrc
  rw [hlengths] at hspan
  have hcell : m.storage.cell? = fun j =>
      ((List.range numRows).map (Entry.storedRow m.isCompact numRows entries)).flatten[j]? := by
    funext j
    rw [hm.stores.cell?_eq, Entry.flatten_storedRow]
    rfl
  rw [cells, hcell, RowSpans.filterMap_span_flatten _ (by simpa using hsrc) hspan]
  simp

theorem destinations_eq {src : Nat} (hsrc : src < numRows) :
    (m.span src).positions.filterMap m.storage.destination?
      = (Entry.rowOf src entries).map Cell.dst := by
  have hspan := hm.span?_eq hsrc
  have hdst : m.storage.destination? = fun j =>
      ((List.range numRows).map fun i => Entry.rowOf i entries).flatten[j]?.map Cell.dst := by
    funext j
    rw [hm.stores.destination?_eq, List.getElem?_map]
    rfl
  have hlengths : rowLengths numRows entries
      = ((List.range numRows).map fun i => Entry.rowOf i entries).map List.length := by
    rw [List.map_map]
    rfl
  rw [hlengths] at hspan
  have hcells := RowSpans.filterMap_span_flatten _ (by simpa using hsrc) hspan
  rw [hdst, ← List.map_filterMap, hcells]
  simp

theorem length_span {src : Nat} (hsrc : src < numRows) :
    (m.span src).length = (Entry.rowOf src entries).length := by
  have hlt : src < (rowLengths numRows entries).length := by simpa [rowLengths] using hsrc
  rw [RowSpans.length_span hlt (hm.span?_eq hsrc)]
  simp [rowLengths]

theorem checkRow_eq {src : Nat} (hsrc : src < numRows) : m.checkRow src = .ok () := by
  rw [checkRow, hm.numRows_eq, if_pos hsrc]

theorem row_eq {src : Nat} (hsrc : src < numRows) :
    m.row src = .ok (Entry.storedRow m.isCompact numRows entries src) := by
  rw [row, hm.checkRow_eq hsrc, hm.cells_eq hsrc]
  rfl

theorem successors_eq {src : Nat} (hsrc : src < numRows) :
    m.successors src = .ok ((Entry.rowOf src entries).map Cell.dst) := by
  rw [successors, hm.checkRow_eq hsrc, hm.destinations_eq hsrc]
  rfl

theorem weight?_eq {src : Nat} (hsrc : src < numRows) (dst : Nat) : m.weight? src dst
    = .ok (((Entry.storedRow m.isCompact numRows entries src).find? fun c => c.dst == dst).map
        Cell.weight) := by
  rw [weight?, hm.checkRow_eq hsrc, hm.cells_eq hsrc]
  rfl

/-- A transition to a state that is not there is not there. -/
theorem weight?_of_le {src dst : Nat} (hsrc : src < numRows) (hdst : numCols ≤ dst) :
    m.weight? src dst = .ok none := by
  have hnone : (Entry.storedRow m.isCompact numRows entries src).find? (fun c => c.dst == dst)
      = none := by
    rw [List.find?_eq_none]
    intro c hc heq
    have hmem : c.dst ∈ (Entry.rowOf src entries).map Cell.dst := by
      rw [← Entry.map_dst_storedRow m.isCompact numRows]
      exact List.mem_map_of_mem hc
    obtain ⟨c', hc', hcc⟩ := List.mem_map.1 hmem
    obtain ⟨e, he, _, rfl⟩ := Entry.mem_rowOf.1 hc'
    have hlt := (hm.inRange e he).2
    have hce : e.dst = c.dst := hcc
    have : c.dst = dst := by simpa using heq
    omega
  rw [hm.weight?_eq hsrc, hnone]
  rfl

theorem isFinal_eq {src : Nat} (hsrc : src < numRows) : m.isFinal src
    = .ok (decide ((Entry.rowOf src entries).map Cell.dst = [] ∨
        (Entry.rowOf src entries).map Cell.dst = [src])) := by
  have hdsts := hm.destinations_eq hsrc
  have hlen := hm.length_span hsrc
  generalize hrow : (Entry.rowOf src entries).map Cell.dst = dsts at hdsts
  have hlen' : (m.span src).length = dsts.length := by rw [hlen, ← hrow, List.length_map]
  rw [isFinal, hm.checkRow_eq hsrc]
  show Except.ok _ = _
  congr 1
  rw [hlen', Bool.eq_iff_iff, Bool.or_eq_true, Bool.and_eq_true, decide_eq_true_eq, beq_iff_eq,
    beq_iff_eq, beq_iff_eq]
  match dsts with
  | [] => simp
  | [d] =>
    have hpos : (m.span src).positions = [(m.span src).lo] := by
      rw [Span.positions, hlen']
      rfl
    rw [hpos] at hdsts
    cases hat : m.storage.destination? (m.span src).lo with
    | none => simp [hat] at hdsts
    | some d' =>
      have : d' = d := by simpa [hat] using hdsts
      simp [this]
  | _ :: _ :: _ => simp

end Built

/-! ## What a matrix answers -/

/-- A matrix that was built from entries answers every query as their list does, in whatever form it
is stored: two matrices of the same entries differ at most in which zero they give back. -/
theorem answers_of_ofEntries {n : Nat} {entries : List Entry} {options : Options} {m : Matrix}
    (h : (ofEntries n entries options).result = .ok m) {src : Nat} (hsrc : src < n) :
    m.row src = .ok (Entry.storedRow m.isCompact n entries src) ∧
    m.successors src = .ok ((Entry.rowOf src entries).map Cell.dst) ∧
    (∀ dst, m.weight? src dst
      = .ok (((Entry.storedRow m.isCompact n entries src).find? fun c => c.dst == dst).map
          Cell.weight)) ∧
    (∀ dst, n ≤ dst → m.weight? src dst = .ok none) ∧
    m.isFinal src = .ok (decide ((Entry.rowOf src entries).map Cell.dst = [] ∨
      (Entry.rowOf src entries).map Cell.dst = [src])) ∧
    ∀ options' m', (ofEntries n entries options').result = .ok m' →
      m'.successors src = m.successors src ∧
      m'.isFinal src = m.isFinal src ∧
      (m'.row src).map (List.map Cell.key) = (m.row src).map (List.map Cell.key) ∧
      (∀ dst, (m'.weight? src dst).map (Option.map Binary64.key)
        = (m.weight? src dst).map (Option.map Binary64.key)) ∧
      (m'.isCompact = m.isCompact →
        m'.row src = m.row src ∧ ∀ dst, m'.weight? src dst = m.weight? src dst) := by
  have hm := built_of_rectangular h
  refine ⟨hm.row_eq hsrc, hm.successors_eq hsrc, hm.weight?_eq hsrc,
    fun dst hdst => hm.weight?_of_le hsrc hdst, hm.isFinal_eq hsrc, ?_⟩
  intro options' m' h'
  have hm' := built_of_rectangular h'
  refine ⟨?_, ?_, ?_, ?_, ?_⟩
  · rw [hm'.successors_eq hsrc, hm.successors_eq hsrc]
  · rw [hm'.isFinal_eq hsrc, hm.isFinal_eq hsrc]
  · rw [hm'.row_eq hsrc, hm.row_eq hsrc]
    show Except.ok _ = Except.ok _
    rw [Entry.map_key_storedRow _ _ hsrc, Entry.map_key_storedRow _ _ hsrc]
  · intro dst
    rw [hm'.weight?_eq hsrc, hm.weight?_eq hsrc]
    show Except.ok _ = Except.ok _
    rw [Cell.map_key_find?, Cell.map_key_find?, Entry.map_key_storedRow _ _ hsrc,
      Entry.map_key_storedRow _ _ hsrc]
  · intro hform
    refine ⟨?_, fun dst => ?_⟩
    · rw [hm'.row_eq hsrc, hm.row_eq hsrc, hform]
    · rw [hm'.weight?_eq hsrc, hm.weight?_eq hsrc, hform]

/-- Rows whose entries come interleaved, with a NaN, both zeros and a repeated destination. -/
theorem answers_of_interleaved_entries :
    ∃ m, (ofEntries 2 [⟨1, 0, ⟨0x7ff8000000000000⟩⟩, ⟨0, 1, ⟨0x8000000000000000⟩⟩, ⟨1, 1, .zero⟩,
        ⟨1, 0, .one⟩] {}).result = .ok m ∧
      m.successors 1 = .ok [0, 1, 0] ∧ m.weight? 1 0 = .ok (some ⟨0x7ff8000000000000⟩) ∧
      m.weight? 1 2 = .ok none ∧ m.isFinal 1 = .ok false := by
  have hbuilt : ∃ m, (ofEntries 2 [⟨1, 0, ⟨0x7ff8000000000000⟩⟩, ⟨0, 1, ⟨0x8000000000000000⟩⟩,
      ⟨1, 1, .zero⟩, ⟨1, 0, .one⟩] {}).result = .ok m :=
    exists_rectangular rfl (by decide) (by decide) (by unfold InRange; decide) (by decide)
      (by decide)
  obtain ⟨m, hm⟩ := hbuilt
  obtain ⟨_, hsucc, hweight, hnone, hfinal, _⟩ := answers_of_ofEntries hm (show 1 < 2 by decide)
  refine ⟨m, hm, hsucc, ?_, hnone 2 (le_refl 2), hfinal⟩
  rw [hweight]
  cases m.isCompact <;> decide

end Matrix

end TransitionMatrix
