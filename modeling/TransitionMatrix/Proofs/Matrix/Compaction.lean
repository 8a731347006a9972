import TransitionMatrix.Proofs.Column.Distinct
import TransitionMatrix.Proofs.Matrix.Soundness

/-!
# When a matrix is compact

A matrix is stored in the compact form exactly if that is asked for and the bits of an entry can be
divided between the distinct weights and the states. How many entries there are does not matter. The
compact form takes four bytes for an entry and eight for a distinct weight, and so never more than the
plain form.
-/

namespace TransitionMatrix

/-! ## Distinct weights -/

/-- The number of distinct weights among the entries. -/
def Entry.countDistinct (entries : List Entry) : Nat :=
  Binary64.countDistinct (entries.map Entry.weight)

/-- Gathering entries by row does not change which weights there are. -/
theorem Entry.countDistinct_rowMajor {numRows : Nat} {entries : List Entry}
    (h : ∀ e ∈ entries, e.src < numRows) :
    Binary64.countDistinct ((rowMajor numRows entries).map Cell.weight) = countDistinct entries := by
  rw [countDistinct, Binary64.countDistinct, Binary64.countDistinct]
  congr 1
  ext k
  simp only [List.mem_toFinset, List.map_map, List.mem_map, Function.comp_apply]
  constructor
  · rintro ⟨c, hc, rfl⟩
    obtain ⟨e, he, rfl⟩ := mem_rowMajor hc
    exact ⟨e, he, rfl⟩
  · rintro ⟨e, he, rfl⟩
    exact ⟨e.cell, cell_mem_rowMajor he (h e he), rfl⟩

theorem Entry.countDistinct_le_length (entries : List Entry) :
    countDistinct entries ≤ entries.length := by
  have hcard := List.toFinset_card_le ((entries.map Entry.weight).map Binary64.key)
  rwa [List.length_map, List.length_map] at hcard

theorem Options.columnBits_le_of_check {o : Options} (h : o.check = .ok ()) : o.columnBits ≤ 32 := by
  by_contra hwidth
  rw [check_eq_error_iff.2 ⟨fun hbounds => hwidth hbounds.2, rfl⟩] at h
  cases h

theorem ColumnStorage.bytes_plainOf (cells : List Cell) :
    (plainOf cells).bytes = 12 * (plainOf cells).size := by
  simp only [plainOf, bytes, size, List.size_toArray, List.length_map]
  omega

namespace Matrix

namespace Built

variable {m : Matrix} {numRows numCols : Nat} {entries : List Entry} {options : Options}
  (hm : m.Built numRows numCols entries options)

include hm

/-- The storage is compact with a packing that fits, or plain because there is none to be had. -/
theorem storage_cases :
    (∃ words dictionary packing, options.compact = true ∧
      Fit.of numCols (Entry.countDistinct entries) options.columnBits = .fits packing ∧
      m.storage = .compact words dictionary packing ∧
      dictionary.size = Entry.countDistinct entries) ∨
    ((options.compact = true → ∀ packing,
        Fit.of numCols (Entry.countDistinct entries) options.columnBits ≠ .fits packing) ∧
      m.storage = ColumnStorage.plainOf (Entry.rowMajor numRows entries)) := by
  have hcount := Entry.countDistinct_rowMajor fun e he => (hm.inRange e he).1
  have hstorage := hm.storage
  have hpair : Dictionary.ofValues ((Entry.rowMajor numRows entries).map Cell.weight)
    = ((Dictionary.ofValues ((Entry.rowMajor numRows entries).map Cell.weight)).1, _) := rfl
  rw [← hcount]
  rcases ColumnStorage.ofCells_cases hpair numCols options with
    ⟨packing, hcompact, hfits, hres⟩ | ⟨hnone, hres⟩
  · left
    rw [hres] at hstorage
    exact ⟨_, _, packing, hcompact, Dictionary.fit_ofValues_eq_fits_iff.1 hfits,
      (Except.ok.inj hstorage).symm, Dictionary.size_of_fits hfits⟩
  · right
    rw [hres] at hstorage
    refine ⟨fun hcompact packing hfits => ?_, (Except.ok.inj hstorage).symm⟩
    exact hnone hcompact packing (Dictionary.fit_ofValues_eq_fits_iff.2 hfits)

theorem isCompact_iff : m.isCompact = true ↔ options.compact = true ∧
    ∃ low high, Fit.Room numCols (Entry.countDistinct entries) options.columnBits low high := by
  have hbits := Options.columnBits_le_of_check hm.check
  rcases hm.storage_cases with ⟨words, dictionary, packing, hcompact, hfit, hform, _⟩ | ⟨hnone, hform⟩
  · rw [isCompact, hform]
    refine ⟨fun _ => ⟨hcompact, ?_⟩, fun _ => rfl⟩
    exact (Fit.exists_of_eq_fits_iff.1 ⟨packing, hfit⟩).2
  · rw [isCompact, hform]
    constructor
    · intro hcontra
      cases hcontra
    · rintro ⟨hcompact, hroom⟩
      obtain ⟨packing, hfit⟩ := Fit.exists_of_eq_fits_iff.2 ⟨hbits, hroom⟩
      exact absurd hfit (hnone hcompact packing)

section Compact

variable {words : Array UInt32} {dictionary : Array Binary64} {packing : Packing}
  (h : m.storage = .compact words dictionary packing)

include h

theorem fits_of_compact :
    Fit.of numCols (Entry.countDistinct entries) options.columnBits = .fits packing ∧
      dictionary.size = Entry.countDistinct entries := by
  rcases hm.storage_cases with ⟨_, _, _, _, hfit, hform, hsize⟩ | ⟨_, hform⟩
  · cases hform.symm.trans h
    exact ⟨hfit, hsize⟩
  · cases hform.symm.trans h

/-- The fields of a stored word have room, so nothing is stored beyond the bits of an entry. -/
theorem word_lt {word : UInt32} (hword : word ∈ words) : word.toNat < 2 ^ options.columnBits := by
  obtain ⟨hfit, hsize⟩ := hm.fits_of_compact h
  obtain ⟨hform, hdst⟩ := hm.sound.storage
  rw [h] at hform hdst
  have hnumber : (packing.index word).toNat < Entry.countDistinct entries := by
    rw [← hsize]
    exact hform.index_lt word hword
  have hstate : (packing.destination word).toNat < numCols := by
    obtain ⟨j, hj, rfl⟩ := Array.getElem_of_mem hword
    rw [← hm.numCols_eq]
    refine hdst j _ ?_
    rw [ColumnStorage.destination?, Array.getElem?_eq_getElem hj, Option.map_some]
  have hlt := Fit.encode_lt hfit hstate hnumber
  rwa [UInt32.ofNat_toNat, UInt32.ofNat_toNat, packing.encode_fields] at hlt

theorem bytes_of_compact :
    m.storage.bytes = 4 * m.nonZeros + 8 * Entry.countDistinct entries := by
  rw [← (hm.fits_of_compact h).2, nonZeros, h, ColumnStorage.bytes, ColumnStorage.size]
  omega

end Compact

/-- No form takes more bytes than the plain one. -/
theorem bytes_le : m.storage.bytes ≤ 12 * m.nonZeros := by
  have hdistinct := Entry.countDistinct_le_length entries
  have hnonZeros := hm.nonZeros_eq
  rcases hm.storage_cases with ⟨_, _, _, _, _, hform, _⟩ | ⟨_, hform⟩
  · rw [hm.bytes_of_compact hform]
    omega
  · rw [nonZeros, hform, ColumnStorage.bytes_plainOf]

/-- The same entries can be stored in the plain form. -/
theorem exists_plain : ∃ m' : Matrix,
    m'.Built numRows numCols entries { options with compact := false } ∧
      m'.storage = ColumnStorage.plainOf (Entry.rowMajor numRows entries) :=
  ⟨{ m with storage := ColumnStorage.plainOf (Entry.rowMajor numRows entries) },
    ⟨hm.check, hm.numCols_le, hm.numRows_lt, hm.inRange, hm.length_lt, hm.numRows_eq, hm.numCols_eq,
      hm.extents, hm.spans, rfl⟩, rfl⟩

end Built

/-- A matrix is compact exactly if that is asked for and the bits of an entry can be divided between
its distinct weights and its states. Then the low field is the narrowest that does it, no word has
more bits than an entry, and the dictionary has the distinct weights and no others. However it is
stored, the matrix takes no more bytes than its entries take in the plain form. -/
theorem compaction_of_ofEntries {n : Nat} {entries : List Entry} {options : Options} {m : Matrix}
    (h : (ofEntries n entries options).result = .ok m) :
    (m.isCompact = true ↔ options.compact = true ∧
      ∃ low high, Fit.Room n (Entry.countDistinct entries) options.columnBits low high) ∧
    (∀ words dictionary packing, m.storage = .compact words dictionary packing →
      IsLeast {low | ∃ high, Fit.Room n (Entry.countDistinct entries) options.columnBits low high}
        packing.shift ∧
      (∀ word ∈ words, word.toNat < 2 ^ options.columnBits) ∧
      dictionary.size = Entry.countDistinct entries ∧
      m.storage.bytes = 4 * m.nonZeros + 8 * Entry.countDistinct entries) ∧
    m.nonZeros = entries.length ∧
    ∃ m', (ofEntries n entries { options with compact := false }).result = .ok m' ∧
      m'.isCompact = false ∧ m'.storage.bytes = 12 * m.nonZeros ∧
      m.storage.bytes ≤ m'.storage.bytes := by
  have hm := built_of_rectangular h
  refine ⟨hm.isCompact_iff, fun words dictionary packing hform => ?_, hm.nonZeros_eq, ?_⟩
  · obtain ⟨hfit, hsize⟩ := hm.fits_of_compact hform
    exact ⟨(Fit.of_eq_fits_iff.1 hfit).2, fun word hword => hm.word_lt hform hword, hsize,
      hm.bytes_of_compact hform⟩
  · obtain ⟨m', hm', hplain⟩ := hm.exists_plain
    have hbytes : m'.storage.bytes = 12 * m.nonZeros := by
      rw [hm.nonZeros_eq, ← hm'.nonZeros_eq, nonZeros, hplain, ColumnStorage.bytes_plainOf]
    refine ⟨m', rectangular_of_built hm', ?_, hbytes, ?_⟩
    · rw [isCompact, hplain]
      rfl
    · rw [hbytes]
      exact hm.bytes_le

/-- Four entries with two distinct weights, the zeros being one: two bits are enough for an entry. -/
theorem compaction_of_two_weights :
    ∃ m, (ofEntries 2 [⟨1, 0, .one⟩, ⟨0, 1, ⟨0x8000000000000000⟩⟩, ⟨1, 1, .zero⟩, ⟨0, 0, .one⟩]
        { columnBits := 2 }).result = .ok m ∧ m.isCompact = true ∧ m.storage.bytes = 32 := by
  obtain ⟨m, hm⟩ : ∃ m, (ofEntries 2 [⟨1, 0, .one⟩, ⟨0, 1, ⟨0x8000000000000000⟩⟩, ⟨1, 1, .zero⟩,
      ⟨0, 0, .one⟩] { columnBits := 2 }).result = .ok m :=
    exists_rectangular rfl (by decide) (by decide) (by unfold InRange; decide) (by decide)
      (by decide)
  obtain ⟨hiff, hcompact, hnonZeros, _⟩ := compaction_of_ofEntries hm
  have hform := hiff.2 ⟨rfl, 1, 1, by decide, by decide, by decide, by decide, by decide⟩
  refine ⟨m, hm, hform, ?_⟩
  cases hstorage : m.storage with
  | plain cols weights =>
    rw [isCompact, hstorage] at hform
    cases hform
  | compact words dictionary packing =>
    obtain ⟨_, _, _, hbytes⟩ := hcompact words dictionary packing hstorage
    rw [← hstorage, hbytes, hnonZeros]
    decide

end Matrix

end TransitionMatrix
