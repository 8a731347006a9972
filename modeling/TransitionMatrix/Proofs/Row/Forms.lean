import TransitionMatrix.Proofs.Row.Boundaries

/-!
# Both forms of row lengths

Lengths are refused only if counts are asked for and some row is too long for them. However they are
stored otherwise, they delimit the same rows: the boundaries are the running sums of the lengths,
whether they are looked up or summed up from the stored form. This is so for lengths that add up to a
word; beyond, the sums of both forms go wrong in the same way.
-/

namespace TransitionMatrix

namespace RowExtents

/-! ## Choosing a form -/

/-- Counts are refused exactly for a row that is too long, and named is the last of the longest. -/
theorem useCounts_eq_error {lengths : List Nat} {encoding : RowEncoding} {err : Error}
    (h : useCounts (longest? lengths) encoding = .error err) :
    encoding = .counts ∧ ∃ row length, IsLastLongest lengths row length ∧ maxCount < length ∧
      err = .rowTooLong row length := by
  cases hlongest : longest? lengths with
  | none =>
    rw [hlongest] at h
    cases encoding <;> cases h
  | some longest =>
    obtain ⟨row, length⟩ := longest
    rw [hlongest] at h
    cases encoding with
    | auto => cases h
    | starts => cases h
    | counts =>
      simp only [useCounts] at h
      split at h
      · cases h
      · rename_i hlong
        cases h
        exact ⟨rfl, row, length, isLastLongest_of_longest? hlongest, Nat.lt_of_not_le hlong, rfl⟩

theorem useCounts_counts {lengths : List Nat} {counts : Bool}
    (h : useCounts (longest? lengths) .counts = .ok counts) : counts = true := by
  cases hlongest : longest? lengths with
  | none =>
    rw [hlongest] at h
    cases h
    rfl
  | some longest =>
    rw [hlongest] at h
    simp only [useCounts] at h
    split at h
    · cases h
      rfl
    · cases h

/-- Left free, the form is counts exactly if every row fits. -/
theorem useCounts_auto {lengths : List Nat} {counts : Bool}
    (h : useCounts (longest? lengths) .auto = .ok counts) :
    counts = true ↔ ∀ l ∈ lengths, l ≤ maxCount := by
  constructor
  · rintro rfl
    exact le_maxCount_of_useCounts h
  · intro hfit
    cases hlongest : longest? lengths with
    | none =>
      rw [hlongest] at h
      cases h
      rfl
    | some longest =>
      obtain ⟨row, length⟩ := longest
      have hmem := List.mem_of_getElem? (isLastLongest_of_longest? hlongest).length_eq
      rw [hlongest] at h
      cases h
      exact decide_eq_true (hfit length hmem)

theorem ofLengths_eq_error_iff {lengths : List Nat} {encoding : RowEncoding} {err : Error} :
    (ofLengths lengths encoding).result = .error err ↔
      useCounts (longest? lengths) encoding = .error err := by
  constructor
  · intro h
    rcases Traced.result_bind_eq_error_iff.1 h with h | ⟨counts, _, h⟩
    · exact h
    · rcases Traced.result_bind_eq_error_iff.1 h with h | ⟨_, _, h⟩
      · cases h
      · cases h
  · intro h
    exact Traced.result_bind_eq_error_iff.2 (Or.inl h)

theorem exists_ofLengths_eq_error_iff {lengths : List Nat} {encoding : RowEncoding} :
    (∃ err, (ofLengths lengths encoding).result = .error err) ↔
      encoding = .counts ∧ ∃ l ∈ lengths, maxCount < l := by
  simp only [ofLengths_eq_error_iff]
  constructor
  · rintro ⟨err, h⟩
    obtain ⟨hcounts, row, length, hlongest, hlong, _⟩ := useCounts_eq_error h
    exact ⟨hcounts, length, List.mem_of_getElem? hlongest.length_eq, hlong⟩
  · rintro ⟨rfl, l, hl, hlong⟩
    cases h : useCounts (longest? lengths) .counts with
    | error err => exact ⟨err, rfl⟩
    | ok counts =>
      -- counts would have been used, and they are only for rows that fit
      rw [useCounts_counts h] at h
      have hfit := le_maxCount_of_useCounts h l hl
      omega

theorem usesCounts_ofLengths {lengths : List Nat} {extents : RowExtents}
    (h : (ofLengths lengths .auto).result = .ok extents) :
    extents.usesCounts = true ↔ ∀ l ∈ lengths, l ≤ maxCount := by
  obtain ⟨counts, hcounts, rfl⟩ := eq_of_ofLengths h
  rw [← useCounts_auto hcounts]
  cases counts <;> simp [ofCounts, ofStarts, usesCounts]

/-! ## Reading the stored form -/

theorem getElem?_offsetsFrom {start : Nat} {lengths : List Nat} {i : Nat} (hi : i ≤ lengths.length) :
    (offsetsFrom start lengths)[i]? = some (Word.sum start (lengths.take i)) := by
  induction lengths generalizing start i with
  | nil =>
    obtain rfl : i = 0 := by simpa using hi
    rfl
  | cons l rest ih =>
    cases i with
    | zero => rfl
    | succ i =>
      rw [offsetsFrom, List.getElem?_cons_succ, ih (by simpa using hi), List.take_succ_cons,
        Word.sum_cons]

/-- Every offset can be read from the stored form, that of the end too. -/
theorem firstEntry?_of_ofLengths {lengths : List Nat} {encoding : RowEncoding}
    {extents : RowExtents} (hfit : lengths.sum < Word.size)
    (h : (ofLengths lengths encoding).result = .ok extents) {i : Nat} (hi : i ≤ lengths.length) :
    extents.firstEntry? i = some (RowSpans.offset lengths i) := by
  have hend := RowSpans.offset_mono lengths hi
  rw [RowSpans.offset_length] at hend
  have hsum : Word.sum 0 (lengths.take i) = RowSpans.offset lengths i :=
    Word.sum_eq_iff.2 (Nat.lt_of_le_of_lt hend hfit)
  obtain ⟨counts, hcounts, rfl⟩ := eq_of_ofLengths h
  cases counts with
  | true =>
    have hbytes := map_toNat_ofNat (le_maxCount_of_useCounts hcounts)
    have hsize : i ≤ (lengths.map UInt8.ofNat).toArray.size := by simpa using hi
    rw [if_pos rfl, ofCounts, firstEntry?, if_pos hsize, List.map_take, List.map_map, hbytes, hsum]
  | false =>
    rw [if_neg Bool.false_ne_true, ofStarts, firstEntry?, List.getElem?_toArray,
      getElem?_offsetsFrom hi, hsum]

end RowExtents

namespace RowSpans

/-! ## Reading the boundaries -/

theorem lo_ofLengths (lengths : List Nat) :
    (ofLengths lengths).lo = (List.range lengths.length).map (offset lengths) := by
  rw [lo, ofLengths, List.map_map]
  rfl

theorem hi_ofLengths (lengths : List Nat) :
    (ofLengths lengths).hi = (List.range lengths.length).map fun i => offset lengths (i + 1) := by
  rw [hi, ofLengths, List.map_map]
  rfl

theorem check_ofLengths_iff {lengths : List Nat} {expected : Nat} :
    (ofLengths lengths).check expected = .ok () ↔ expected = lengths.sum := by
  rw [check, total_ofLengths]
  constructor
  · intro h
    split at h
    · rename_i heq
      exact heq.symm
    · cases h
  · rintro rfl
    exact if_pos rfl

/-- The boundaries are those of rows with the given lengths, and the stored form of the lengths has
them too. -/
structure Delimits (spans : RowSpans) (extents : RowExtents) (lengths : List Nat) : Prop where
  length_lo : spans.lo.length = lengths.length
  length_hi : spans.hi.length = lengths.length
  first : 0 < lengths.length → spans.lo[0]? = some 0
  /-- A row ends where the next one begins. -/
  adjacent : ∀ i, i + 1 < lengths.length → spans.hi[i]? = spans.lo[i + 1]?
  /-- A row has as many positions as it is long. -/
  width : ∀ (i lo hi : Nat), spans.lo[i]? = some lo → spans.hi[i]? = some hi →
    lo ≤ hi ∧ lengths[i]? = some (hi - lo)
  last : lengths ≠ [] → spans.hi.getLast? = some lengths.sum
  check_iff : ∀ expected, spans.check expected = .ok () ↔ expected = lengths.sum
  firstEntry : ∀ i < lengths.length, extents.firstEntry? i = spans.lo[i]?
  firstEntry_end : extents.firstEntry? lengths.length = some lengths.sum

theorem delimits_of_ofLengths {lengths : List Nat} {encoding : RowEncoding} {extents : RowExtents}
    (hfit : lengths.sum < Word.size)
    (h : (RowExtents.ofLengths lengths encoding).result = .ok extents) :
    (ofExtents extents).Delimits extents lengths := by
  have hlo : ∀ i < lengths.length, (ofLengths lengths).lo[i]? = some (offset lengths i) := by
    intro i hi
    rw [lo_ofLengths, List.getElem?_map, List.getElem?_range hi, Option.map_some]
  have hhi : ∀ i < lengths.length, (ofLengths lengths).hi[i]? = some (offset lengths (i + 1)) := by
    intro i hi
    rw [hi_ofLengths, List.getElem?_map, List.getElem?_range hi, Option.map_some]
  have hlength : (ofLengths lengths).lo.length = lengths.length := by simp [lo_ofLengths]
  rw [ofExtents_of_ofLengths hfit h]
  refine ⟨hlength, by simp [hi_ofLengths], hlo 0, fun i hi => ?_, fun i lo hi hlo' hhi' => ?_,
    fun hne => ?_, fun expected => check_ofLengths_iff, fun i hi => ?_, ?_⟩
  · rw [hhi i (by omega), hlo (i + 1) hi]
  · have hi' : i < lengths.length := hlength ▸ (List.getElem?_eq_some_iff.1 hlo').1
    rw [hlo i hi'] at hlo'
    rw [hhi i hi'] at hhi'
    cases hlo'
    cases hhi'
    rw [offset_succ hi', List.getElem?_eq_getElem hi', Nat.add_sub_cancel_left]
    exact ⟨Nat.le_add_right _ _, rfl⟩
  · have hpos : 0 < lengths.length := List.length_pos_of_ne_nil hne
    rw [List.getLast?_eq_getElem?, hi_ofLengths, List.length_map, List.length_range, ← hi_ofLengths,
      hhi (lengths.length - 1) (by omega), Nat.sub_add_cancel hpos, offset_length]
  · rw [RowExtents.firstEntry?_of_ofLengths hfit h (Nat.le_of_lt hi), hlo i hi]
  · rw [RowExtents.firstEntry?_of_ofLengths hfit h (le_refl _), offset_length]

end RowSpans

/-- Row lengths are refused exactly if counts are asked for and some row is too long for a byte; the
error names the last one of the longest rows. Lengths that are stored delimit the rows they are the
lengths of, if they add up to a word, and all forms that can be asked for have the same boundaries. -/
theorem RowExtents.forms_of_lengths (lengths : List Nat) (encoding : RowEncoding) :
    ((∃ err, (ofLengths lengths encoding).result = .error err) ↔
      encoding = .counts ∧ ∃ l ∈ lengths, maxCount < l) ∧
    (∀ err, (ofLengths lengths encoding).result = .error err →
      ∃ row length, IsLastLongest lengths row length ∧ err = .rowTooLong row length) ∧
    (∀ extents, (ofLengths lengths encoding).result = .ok extents →
      (lengths.sum < Word.size → (RowSpans.ofExtents extents).Delimits extents lengths) ∧
      (encoding = .auto → (extents.usesCounts = true ↔ ∀ l ∈ lengths, l ≤ maxCount)) ∧
      ∀ other extents', (ofLengths lengths other).result = .ok extents' →
        RowSpans.ofExtents extents' = RowSpans.ofExtents extents) := by
  refine ⟨exists_ofLengths_eq_error_iff, fun err h => ?_, fun extents h => ⟨?_, ?_, ?_⟩⟩
  · obtain ⟨_, row, length, hlongest, _, herr⟩ := useCounts_eq_error (ofLengths_eq_error_iff.1 h)
    exact ⟨row, length, hlongest, herr⟩
  · exact fun hfit => RowSpans.delimits_of_ofLengths hfit h
  · rintro rfl
    exact usesCounts_ofLengths h
  · intro other extents' h'
    rw [RowSpans.ofExtents_eq_consecutive h, RowSpans.ofExtents_eq_consecutive h']

/-- Of two rows that are too long for counts the later one is named; left free, the lengths are
stored as offsets. -/
theorem RowExtents.forms_of_two_long_rows :
    (ofLengths [1, 256, 0, 256] .counts).result = .error (.rowTooLong 3 256) ∧
    IsLastLongest [1, 256, 0, 256] 3 256 ∧
    ∃ extents, (ofLengths [1, 256, 0, 256] .auto).result = .ok extents ∧
      extents.usesCounts = false ∧
      (RowSpans.ofExtents extents).Delimits extents [1, 256, 0, 256] := by
  obtain ⟨_, hlongest, _⟩ := forms_of_lengths [1, 256, 0, 256] .counts
  obtain ⟨_, _, hstored⟩ := forms_of_lengths [1, 256, 0, 256] .auto
  obtain ⟨row, length, hlast, herr⟩ := hlongest (.rowTooLong 3 256) rfl
  obtain ⟨extents, hextents⟩ :=
    exists_ofLengths [1, 256, 0, 256] (show RowEncoding.auto ≠ .counts by decide)
  obtain ⟨hdelimits, hcounts, _⟩ := hstored extents hextents
  cases herr
  refine ⟨rfl, hlast, extents, hextents, Bool.eq_false_iff.2 fun huses => ?_,
    hdelimits (by decide)⟩
  have hfit := (hcounts rfl).1 huses 256 (by decide)
  exact absurd hfit (by decide)

end TransitionMatrix
