import TransitionMatrix.Proofs.Row.Boundaries

/-!
# Boundaries that cover all positions

The boundaries of consecutive rows leave no position out and give none to two rows. That each row
ends where the next one begins, and not before it begins itself, is enough to keep every row within the
positions there are.
-/

namespace TransitionMatrix

namespace RowSpans

/-- The rows follow one another from the first position to the last. -/
structure Chained (spans : RowSpans) (numRows total : Nat) : Prop where
  numRows_eq : spans.numRows = numRows
  first : ∀ s, spans.span? 0 = some s → s.lo = 0
  /-- A row ends where the next one begins. -/
  hi_eq_lo : ∀ i s t, spans.span? i = some s → spans.span? (i + 1) = some t → s.hi = t.lo
  /-- The last row ends at the end. -/
  total_eq : spans.total = total

/-- The rows follow one another, and none of them ends before it begins. -/
structure Covers (spans : RowSpans) (numRows total : Nat) : Prop
    extends Chained spans numRows total where
  lo_le_hi : ∀ i s, spans.span? i = some s → s.lo ≤ s.hi

theorem span?_consecutive_eq_some {lengths : List Nat} {i : Nat} {s : Span}
    (hs : (⟨(consecutive 0 lengths).toArray⟩ : RowSpans).span? i = some s) :
    s.lo = Word.sum 0 (lengths.take i) ∧ s.hi = Word.sum 0 (lengths.take (i + 1)) := by
  have hi : i < lengths.length := by
    obtain ⟨hlt, _⟩ := Array.getElem?_eq_some_iff.1 hs
    simpa using hlt
  rw [span?, List.getElem?_toArray, getElem?_consecutive_eq_some 0 hi] at hs
  cases hs
  rw [List.take_succ_eq_append_getElem hi, Word.sum_append, Word.sum_cons, Word.sum_nil]
  exact ⟨rfl, rfl⟩

/-- Running sums of words follow one another, whether or not the lengths add up to a word. -/
theorem chained_consecutive (lengths : List Nat) :
    (⟨(consecutive 0 lengths).toArray⟩ : RowSpans).Chained lengths.length (Word.sum 0 lengths) where
  numRows_eq := by simp [numRows]
  first := by
    intro s hs
    rw [(span?_consecutive_eq_some hs).1]
    rfl
  hi_eq_lo := by
    intro i s t hs ht
    rw [(span?_consecutive_eq_some hs).2, (span?_consecutive_eq_some ht).1]
  total_eq := total_consecutive lengths

/-- Running sums of words that never fall have a word as their last. -/
theorem add_sum_lt_of_lo_le_hi {start : Nat} {lengths : List Nat} (hstart : start < Word.size)
    (hwords : ∀ length ∈ lengths, length < Word.size)
    (hle : ∀ s ∈ consecutive start lengths, s.lo ≤ s.hi) : start + lengths.sum < Word.size := by
  induction lengths generalizing start with
  | nil => exact hstart
  | cons length rest ih =>
    rw [List.forall_mem_cons] at hwords
    rw [consecutive, List.forall_mem_cons] at hle
    obtain ⟨hword, hwords⟩ := hwords
    obtain ⟨hfirst, hle⟩ := hle
    have hfits := Word.fits_of_le_add hword hfirst
    rw [Word.add_eq hfits] at hle
    rw [List.sum_cons, ← Nat.add_assoc]
    exact ih hfits hwords hle

theorem span?_eq_some_iff {lengths : List Nat} {i : Nat} {s : Span} :
    (ofLengths lengths).span? i = some s ↔
      i < lengths.length ∧ s = ⟨offset lengths i, offset lengths (i + 1)⟩ := by
  constructor
  · intro hs
    have hi : i < lengths.length := by
      obtain ⟨hlt, _⟩ := Array.getElem?_eq_some_iff.1 hs
      simpa [ofLengths] using hlt
    rw [span?_ofLengths hi] at hs
    exact ⟨hi, (Option.some.inj hs).symm⟩
  · rintro ⟨hi, rfl⟩
    exact span?_ofLengths hi

theorem covers_ofLengths (lengths : List Nat) :
    (ofLengths lengths).Covers lengths.length lengths.sum where
  numRows_eq := by simp [numRows, ofLengths]
  first := by
    intro s hs
    obtain ⟨_, rfl⟩ := span?_eq_some_iff.1 hs
    rfl
  lo_le_hi := by
    intro i s hs
    obtain ⟨_, rfl⟩ := span?_eq_some_iff.1 hs
    exact offset_mono lengths (Nat.le_succ i)
  hi_eq_lo := by
    intro i s t hs ht
    obtain ⟨_, rfl⟩ := span?_eq_some_iff.1 hs
    obtain ⟨_, rfl⟩ := span?_eq_some_iff.1 ht
    rfl
  total_eq := total_ofLengths lengths

/-- Running sums of words cover all positions exactly if the lengths add up to a word. -/
theorem covers_consecutive_iff {lengths : List Nat} (hwords : ∀ length ∈ lengths, length < Word.size) :
    (⟨(consecutive 0 lengths).toArray⟩ : RowSpans).Covers lengths.length (Word.sum 0 lengths) ↔
      lengths.sum < Word.size := by
  constructor
  · intro h
    have hle : ∀ s ∈ consecutive 0 lengths, s.lo ≤ s.hi := by
      intro s hs
      obtain ⟨i, hi⟩ := List.mem_iff_getElem?.1 hs
      exact h.lo_le_hi i s (by rw [span?, List.getElem?_toArray, hi])
    have hsum := add_sum_lt_of_lo_le_hi (by decide) hwords hle
    omega
  · intro hfit
    rw [consecutive_eq_ofLengths hfit, Word.sum_eq_iff.2 hfit]
    exact covers_ofLengths lengths

namespace Chained

variable {spans : RowSpans} {numRows total : Nat} (h : spans.Chained numRows total)

include h

theorem exists_span? {i : Nat} (hi : i < numRows) : ∃ s, spans.span? i = some s := by
  rw [← h.numRows_eq] at hi
  exact ⟨_, Array.getElem?_eq_getElem hi⟩

theorem hi_last {s : Span} (hs : spans.span? (numRows - 1) = some s) : s.hi = total := by
  have hlast : spans.hi.getLast? = some s.hi := by
    rw [List.getLast?_eq_getElem?, RowSpans.hi, List.length_map, Array.length_toList, List.getElem?_map,
      Array.getElem?_toList]
    have hs : spans.spans[spans.spans.size - 1]? = some s := by
      have hsize : spans.spans.size = numRows := h.numRows_eq
      rw [hsize]
      exact hs
    rw [hs, Option.map_some]
  rw [← h.total_eq, RowSpans.total, hlast, Option.getD_some]

end Chained

/-- No row ends beyond the last position. -/
theorem Covers.hi_le_total {spans : RowSpans} {numRows total : Nat} (h : spans.Covers numRows total)
    {i : Nat} {s : Span} (hs : spans.span? i = some s) : s.hi ≤ total := by
  have hi : i < numRows := by
    rw [← h.numRows_eq]
    exact (Array.getElem?_eq_some_iff.1 hs).1
  -- on the number of rows that come after this one
  obtain ⟨after, hafter⟩ : ∃ after, i + 1 + after = numRows := ⟨numRows - (i + 1), by omega⟩
  induction after generalizing i s with
  | zero =>
    have hlast : i = numRows - 1 := by omega
    rw [hlast] at hs
    exact Nat.le_of_eq (h.hi_last hs)
  | succ after ih =>
    obtain ⟨t, ht⟩ := h.exists_span? (show i + 1 < numRows by omega)
    have hnext := h.hi_eq_lo i s t hs ht
    have hlength := h.lo_le_hi (i + 1) t ht
    have hend := ih ht (by omega) (by omega)
    omega

/-- The stored lengths say where a row begins. -/
theorem firstEntry?_of_span? {extents : RowExtents} {i : Nat} {s : Span}
    (h : (ofExtents extents).span? i = some s) : extents.firstEntry? i = some s.lo := by
  cases extents with
  | counts lengths =>
    have hlt : i < (lengths.toList.map UInt8.toNat).length := by
      obtain ⟨hlt, _⟩ := Array.getElem?_eq_some_iff.1 h
      simpa [ofExtents] using hlt
    have hspan : (consecutive 0 (lengths.toList.map UInt8.toNat))[i]? = some s := by
      simpa [ofExtents, span?] using h
    rw [getElem?_consecutive_eq_some 0 hlt] at hspan
    rw [List.length_map, Array.length_toList] at hlt
    cases hspan
    rw [RowExtents.firstEntry?, if_pos (Nat.le_of_lt hlt), List.map_take]
  | starts offsets =>
    have hspan : (between offsets.toList)[i]? = some s := by simpa [ofExtents, span?] using h
    obtain ⟨lo, hi, hlo, _, rfl⟩ := List.getElem?_zipWith_eq_some.1 hspan
    rw [RowExtents.firstEntry?, ← Array.getElem?_toList, hlo]

end RowSpans

end TransitionMatrix
