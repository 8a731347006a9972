import Mathlib.Algebra.BigOperators.Group.List.Lemmas
import TransitionMatrix.Row.Spans

/-!
# Boundaries of stored rows

Whatever form the row lengths are stored in, the boundaries worked out from them are the running
sums of the lengths as long as these fit in a word, and the positions between the boundaries of a row
hold the entries of that row.
-/

namespace TransitionMatrix

namespace RowExtents

theorem eq_nil_of_longestFrom {start : Nat} {lengths : List Nat}
    (h : longestFrom start lengths = none) : lengths = [] := by
  cases lengths with
  | nil => rfl
  | cons l rest =>
    rw [longestFrom] at h
    split at h
    · cases h
    · split at h <;> cases h

/-- The row is the last one of the longest rows. -/
structure IsLastLongest (lengths : List Nat) (row length : Nat) : Prop where
  length_eq : lengths[row]? = some length
  le : ∀ l ∈ lengths, l ≤ length
  lt_of_later : ∀ later l, row < later → lengths[later]? = some l → l < length

/-- A row in front that is not longer leaves the last of the longest rows where it is. -/
theorem IsLastLongest.cons_of_le {lengths : List Nat} {row length l : Nat}
    (h : IsLastLongest lengths row length) (hl : l ≤ length) :
    IsLastLongest (l :: lengths) (row + 1) length where
  length_eq := by rw [List.getElem?_cons_succ, h.length_eq]
  le := List.forall_mem_cons.2 ⟨hl, h.le⟩
  lt_of_later := by
    intro later l' hlater hl'
    obtain ⟨later, rfl⟩ := Nat.exists_eq_succ_of_ne_zero (Nat.ne_zero_of_lt hlater)
    rw [List.getElem?_cons_succ] at hl'
    exact h.lt_of_later later l' (by omega) hl'

/-- A row in front that is longer than all others is the only one of the longest rows. -/
theorem isLastLongest_cons_of_lt {lengths : List Nat} {l : Nat} (h : ∀ l' ∈ lengths, l' < l) :
    IsLastLongest (l :: lengths) 0 l where
  length_eq := rfl
  le := List.forall_mem_cons.2 ⟨le_refl l, fun l' hl' => Nat.le_of_lt (h l' hl')⟩
  lt_of_later := by
    intro later l' hlater hl'
    obtain ⟨later, rfl⟩ := Nat.exists_eq_succ_of_ne_zero (Nat.ne_zero_of_lt hlater)
    rw [List.getElem?_cons_succ] at hl'
    exact h l' (List.mem_of_getElem? hl')

theorem isLastLongest_of_longestFrom {start : Nat} {lengths : List Nat} {longest : Nat × Nat}
    (h : longestFrom start lengths = some longest) :
    ∃ row, longest.1 = start + row ∧ IsLastLongest lengths row longest.2 := by
  induction lengths generalizing start longest with
  | nil => cases h
  | cons l rest ih =>
    rw [longestFrom] at h
    cases hrest : longestFrom (start + 1) rest with
    | none =>
      rw [hrest] at h
      cases h
      rw [eq_nil_of_longestFrom hrest]
      exact ⟨0, rfl, isLastLongest_cons_of_lt (by simp)⟩
    | some found =>
      rw [hrest] at h
      obtain ⟨row, hrow, hlongest⟩ := ih hrest
      dsimp only at h
      split at h
      · rename_i hle
        cases h
        exact ⟨row + 1, by omega, hlongest.cons_of_le hle⟩
      · rename_i hlt
        cases h
        refine ⟨0, rfl, isLastLongest_cons_of_lt fun l' hl' => ?_⟩
        exact lt_of_le_of_lt (hlongest.le l' hl') (Nat.lt_of_not_le hlt)

theorem isLastLongest_of_longest? {lengths : List Nat} {row length : Nat}
    (h : longest? lengths = some (row, length)) : IsLastLongest lengths row length := by
  obtain ⟨row', hrow, hlongest⟩ := isLastLongest_of_longestFrom h
  obtain rfl : row = row' := by simpa using hrow
  exact hlongest

/-- The form with counts is used only for rows that fit in it. -/
theorem le_maxCount_of_useCounts {lengths : List Nat} {encoding : RowEncoding}
    (h : useCounts (longest? lengths) encoding = .ok true) : ∀ l ∈ lengths, l ≤ maxCount := by
  cases hl : longest? lengths with
  | none =>
    rw [eq_nil_of_longestFrom hl]
    simp
  | some longest =>
    have hbound := (isLastLongest_of_longest? hl).le
    have hmax : longest.2 ≤ maxCount := by
      rw [hl] at h
      cases encoding with
      | auto => simpa [useCounts] using h
      | counts =>
        simp only [useCounts] at h
        split at h
        · assumption
        · cases h
      | starts => simp [useCounts] at h
    intro l hmem
    exact le_trans (hbound l hmem) hmax

/-- Row lengths that could be stored were stored in one of the two forms. -/
theorem eq_of_ofLengths {lengths : List Nat} {encoding : RowEncoding} {extents : RowExtents}
    (h : (ofLengths lengths encoding).result = .ok extents) :
    ∃ counts, useCounts (longest? lengths) encoding = .ok counts ∧
      extents = if counts then ofCounts lengths else ofStarts lengths := by
  obtain ⟨counts, hcounts, h⟩ := Traced.result_bind_eq_ok_iff.1 h
  obtain ⟨_, _, h⟩ := Traced.result_bind_eq_ok_iff.1 h
  exact ⟨counts, hcounts, (Except.ok.inj h).symm⟩

theorem exists_ofLengths (lengths : List Nat) {encoding : RowEncoding} (h : encoding ≠ .counts) :
    ∃ extents, (ofLengths lengths encoding).result = .ok extents := by
  obtain ⟨counts, hcounts⟩ : ∃ counts, useCounts (longest? lengths) encoding = .ok counts := by
    cases encoding with
    | auto => cases longest? lengths <;> exact ⟨_, rfl⟩
    | counts => exact absurd rfl h
    | starts => exact ⟨_, rfl⟩
  exact ⟨_, Traced.result_bind_eq_ok_iff.2 ⟨counts, hcounts,
    Traced.result_bind_eq_ok_iff.2 ⟨(), rfl, rfl⟩⟩⟩

end RowExtents

namespace RowSpans

/-! ## Offsets -/

/-- Where a row begins: the rows before it take that many positions. -/
def offset (lengths : List Nat) (i : Nat) : Nat := (lengths.take i).sum

theorem offset_succ {lengths : List Nat} {i : Nat} (hi : i < lengths.length) :
    offset lengths (i + 1) = offset lengths i + lengths[i] :=
  List.sum_take_succ lengths i hi

theorem offset_cons_succ (l : Nat) (lengths : List Nat) (i : Nat) :
    offset (l :: lengths) (i + 1) = l + offset lengths i := by
  rw [offset, List.take_succ_cons, List.sum_cons, offset]

theorem offset_length (lengths : List Nat) : offset lengths lengths.length = lengths.sum := by
  rw [offset, List.take_length]

theorem offset_mono (lengths : List Nat) {i j : Nat} (h : i ≤ j) :
    offset lengths i ≤ offset lengths j := by
  induction h with
  | refl => exact le_refl _
  | @step j _ ih =>
    by_cases hj : j < lengths.length
    · rw [Nat.succ_eq_add_one, offset_succ hj]
      omega
    · have htake : lengths.take (j + 1) = lengths.take j := by
        rw [List.take_of_length_le (by omega), List.take_of_length_le (by omega)]
      unfold offset at ih ⊢
      rw [Nat.succ_eq_add_one, htake]
      exact ih

theorem offset_add_lt_sum {lengths : List Nat} {i k : Nat} (hi : i < lengths.length)
    (hk : k < lengths[i]) : offset lengths i + k < lengths.sum := by
  have hend := offset_mono lengths (show i + 1 ≤ lengths.length from hi)
  rw [offset_succ hi, offset_length] at hend
  omega

/-- A position belongs to one row only. -/
theorem offset_add_inj {lengths : List Nat} {i j k l : Nat} (hi : i < lengths.length)
    (hj : j < lengths.length) (hk : k < lengths[i]) (hl : l < lengths[j])
    (h : offset lengths i + k = offset lengths j + l) : i = j ∧ k = l := by
  rcases Nat.lt_trichotomy i j with hlt | rfl | hgt
  · have hmono := offset_mono lengths (show i + 1 ≤ j from hlt)
    rw [offset_succ hi] at hmono
    omega
  · exact ⟨rfl, by omega⟩
  · have hmono := offset_mono lengths (show j + 1 ≤ i from hgt)
    rw [offset_succ hj] at hmono
    omega

/-- Every position belongs to some row. -/
theorem exists_offset_add {lengths : List Nat} {position : Nat} (h : position < lengths.sum) :
    ∃ i k, ∃ hi : i < lengths.length, k < lengths[i] ∧ position = offset lengths i + k := by
  induction lengths generalizing position with
  | nil => simp at h
  | cons l rest ih =>
    by_cases hl : position < l
    · exact ⟨0, position, by simp, hl, by simp [offset]⟩
    · rw [List.sum_cons] at h
      obtain ⟨i, k, hi, hk, heq⟩ := ih (show position - l < rest.sum by omega)
      refine ⟨i + 1, k, by simpa using hi, by simpa using hk, ?_⟩
      rw [offset_cons_succ]
      omega

/-! ## Spans -/

/-- The boundaries of rows with the given lengths: the offsets of their ends, however large. -/
def ofLengths (lengths : List Nat) : RowSpans :=
  ⟨((List.range lengths.length).map fun i => ⟨offset lengths i, offset lengths (i + 1)⟩).toArray⟩

/-- The boundaries of a row are running sums of words. -/
theorem getElem?_consecutive_eq_some (start : Nat) {lengths : List Nat} {i : Nat}
    (hi : i < lengths.length) : (consecutive start lengths)[i]?
      = some ⟨Word.sum start (lengths.take i),
          Word.add (Word.sum start (lengths.take i)) lengths[i]⟩ := by
  induction lengths generalizing start i with
  | nil => simp at hi
  | cons l rest ih =>
    cases i with
    | zero => rfl
    | succ i =>
      have hi' : i < rest.length := by simpa using hi
      rw [consecutive, List.getElem?_cons_succ, ih _ hi', List.take_succ_cons, Word.sum_cons,
        List.getElem_cons_succ]

/-- Running sums that fit in a word are the offsets. -/
theorem getElem?_consecutive {lengths : List Nat} (hfit : lengths.sum < Word.size) {i : Nat}
    (hi : i < lengths.length) :
    (consecutive 0 lengths)[i]? = some ⟨offset lengths i, offset lengths (i + 1)⟩ := by
  have hend := offset_mono lengths (show i + 1 ≤ lengths.length from hi)
  rw [offset_length, offset_succ hi] at hend
  have hsum : Word.sum 0 (lengths.take i) = offset lengths i :=
    Word.sum_eq_iff.2 (by rw [← offset]; omega)
  rw [getElem?_consecutive_eq_some 0 hi, hsum, offset_succ hi, Word.add_eq (by omega)]

/-- The form in which lengths are stored does not show in the boundaries. -/
theorem ofExtents_eq_consecutive {lengths : List Nat} {encoding : RowEncoding}
    {extents : RowExtents} (h : (RowExtents.ofLengths lengths encoding).result = .ok extents) :
    ofExtents extents = ⟨(consecutive 0 lengths).toArray⟩ := by
  obtain ⟨counts, hcounts, rfl⟩ := RowExtents.eq_of_ofLengths h
  cases counts with
  | true => exact ofExtents_ofCounts (RowExtents.le_maxCount_of_useCounts hcounts)
  | false => exact ofExtents_ofStarts lengths

/-- The running sums are the offsets, as long as the lengths add up to a word. -/
theorem consecutive_eq_ofLengths {lengths : List Nat} (hfit : lengths.sum < Word.size) :
    (⟨(consecutive 0 lengths).toArray⟩ : RowSpans) = ofLengths lengths := by
  rw [ofLengths, RowSpans.mk.injEq]
  refine congrArg List.toArray (List.ext_getElem? fun i => ?_)
  rw [List.getElem?_map]
  by_cases hi : i < lengths.length
  · rw [getElem?_consecutive hfit hi, List.getElem?_range hi, Option.map_some]
  · rw [List.getElem?_eq_none (by simpa using hi), List.getElem?_eq_none (by simpa using hi),
      Option.map_none]

/-- The boundaries are those of the lengths, as long as the lengths add up to a word. -/
theorem ofExtents_of_ofLengths {lengths : List Nat} {encoding : RowEncoding} {extents : RowExtents}
    (hfit : lengths.sum < Word.size)
    (h : (RowExtents.ofLengths lengths encoding).result = .ok extents) :
    ofExtents extents = ofLengths lengths := by
  rw [ofExtents_eq_consecutive h, consecutive_eq_ofLengths hfit]

theorem getLast?_hi_consecutive (start : Nat) (lengths : List Nat) :
    ((consecutive start lengths).map Span.hi).getLast?.getD start = Word.sum start lengths := by
  induction lengths generalizing start with
  | nil => rfl
  | cons l rest ih =>
    rw [consecutive, List.map_cons, List.getLast?_cons, Option.getD_some, ih, Word.sum_cons]

/-- The last row ends at the sum of the lengths, as a word. -/
theorem total_consecutive (lengths : List Nat) :
    (⟨(consecutive 0 lengths).toArray⟩ : RowSpans).total = Word.sum 0 lengths :=
  getLast?_hi_consecutive 0 lengths

theorem span?_ofLengths {lengths : List Nat} {i : Nat} (hi : i < lengths.length) :
    (ofLengths lengths).span? i = some ⟨offset lengths i, offset lengths (i + 1)⟩ := by
  rw [span?, ofLengths, List.getElem?_toArray, List.getElem?_map, List.getElem?_range hi,
    Option.map_some]

/-- The last row ends where all lengths are used up. -/
theorem total_ofLengths (lengths : List Nat) : (ofLengths lengths).total = lengths.sum := by
  rcases Nat.eq_zero_or_pos lengths.length with hnil | hpos
  · rw [List.length_eq_zero_iff.1 hnil]
    rfl
  · have hlast := span?_ofLengths (Nat.sub_one_lt_of_lt hpos)
    rw [Nat.sub_add_cancel hpos, offset_length] at hlast
    have hlength : (ofLengths lengths).spans.size = lengths.length := by simp [ofLengths]
    rw [total, hi, List.getLast?_eq_getElem?, List.getElem?_map, List.length_map,
      Array.length_toList, hlength, Array.getElem?_toList]
    rw [span?] at hlast
    rw [hlast]
    rfl

end RowSpans

namespace Span

/-- Looking up the positions of a range takes out the elements between its ends. -/
theorem filterMap_positions {α : Type} (s : Span) (xs : List α) :
    s.positions.filterMap (fun j => xs[j]?) = (xs.take s.hi).drop s.lo := by
  have hpos : ∀ (n lo : Nat), (List.range' lo n).filterMap (fun j => xs[j]?)
      = (xs.drop lo).take n := by
    intro n
    induction n with
    | zero => simp
    | succ n ih =>
      intro lo
      rw [List.range'_succ]
      by_cases hlo : lo < xs.length
      · rw [List.filterMap_cons_some (List.getElem?_eq_getElem hlo), ih (lo + 1),
          List.drop_eq_getElem_cons hlo, List.take_succ_cons]
      · rw [List.filterMap_cons_none (List.getElem?_eq_none (by omega)), ih (lo + 1),
          List.drop_eq_nil_of_le (by omega), List.drop_eq_nil_of_le (by omega)]
        simp
  rw [positions, hpos, length, List.drop_take]

end Span

namespace RowSpans

/-- The positions of a row are those of its elements in the row-major sequence. -/
theorem filterMap_span_flatten {α : Type} (rows : List (List α)) {i : Nat} (hi : i < rows.length)
    {s : Span} (hs : (ofLengths (rows.map List.length)).span? i = some s) :
    s.positions.filterMap (fun j => rows.flatten[j]?) = rows[i] := by
  rw [span?_ofLengths (by simpa using hi)] at hs
  cases hs
  rw [Span.filterMap_positions]
  exact List.drop_take_succ_flatten_eq_getElem rows i hi

theorem length_span {lengths : List Nat} {i : Nat} (hi : i < lengths.length) {s : Span}
    (hs : (ofLengths lengths).span? i = some s) : s.length = lengths[i] := by
  rw [span?_ofLengths hi] at hs
  cases hs
  have hsucc := offset_succ hi
  simp only [Span.length]
  omega

end RowSpans

end TransitionMatrix
