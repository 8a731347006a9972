import TransitionMatrix.Column.Storage
import TransitionMatrix.Proofs.Column.Dictionary
import TransitionMatrix.Proofs.Column.Packing

/-!
# Stored entries can be read back

Entries are read back in the order in which they were stored, destinations and weights alike. The
plain form gives back the entries themselves. The compact form keeps one zero for all zeros among the
weights, the first one, and gives back that one for each of them; other weights keep their bits.
-/

namespace TransitionMatrix

namespace Cell

/-- The first zero among the weights; there is one wherever this is used. -/
def firstZero (cells : List Cell) : Binary64 := (cells.find? fun c => c.weight.isZero).elim .zero weight

/-- The cell with the given weight in place of a zero. -/
def withZero (zero : Binary64) (c : Cell) : Cell :=
  if c.weight.isZero then { c with weight := zero } else c

@[simp] theorem dst_withZero (zero : Binary64) (c : Cell) : (c.withZero zero).dst = c.dst := by
  unfold withZero
  split <;> rfl

theorem withZero_of_nonzero (zero : Binary64) {c : Cell} (h : c.weight.isZero = false) :
    c.withZero zero = c := by
  simp [withZero, h]

/-- The first weight with the key of a cell's weight is that weight, or the first zero. -/
theorem find?_key {cells : List Cell} {c : Cell} (hc : c ∈ cells) :
    (cells.map weight).find? (fun v => v.key == c.weight.key)
      = some (c.withZero (firstZero cells)).weight := by
  rw [Dictionary.find?_key (List.mem_map_of_mem hc)]
  cases hz : c.weight.isZero with
  | false => rw [if_neg Bool.false_ne_true, withZero_of_nonzero _ hz]
  | true =>
    obtain ⟨b, hb⟩ : ∃ b, cells.find? (fun b => b.weight.isZero) = some b :=
      Runs.exists_find?_of_mem hc hz
    have hzero : (cells.map weight).find? Binary64.isZero = some b.weight := by
      rw [List.find?_map]
      exact congrArg (Option.map weight) hb
    rw [if_pos rfl, hzero]
    simp [withZero, hz, firstZero, hb]

/-- The destination, and what the weight is told apart by. -/
def key (c : Cell) : Nat × UInt64 := (c.dst, c.weight.key)

/-- The key of the weight that is found for a destination is found among the keys. -/
theorem map_key_find? (cells : List Cell) (dst : Nat) :
    ((cells.find? fun c => c.dst == dst).map weight).map Binary64.key
      = ((cells.map key).find? fun k => k.1 == dst).map Prod.snd := by
  rw [List.find?_map, Option.map_map, Option.map_map]
  rfl

/-- One zero in place of another is not told apart from it. -/
theorem key_withZero {cells : List Cell} {c : Cell} (hc : c ∈ cells) :
    (c.withZero (firstZero cells)).key = c.key := by
  have hweight : (c.withZero (firstZero cells)).weight.key = c.weight.key := by
    simpa using List.find?_some (find?_key hc)
  rw [key, hweight, dst_withZero, key]

end Cell

namespace ColumnStorage

/-- What stored entries read back as. -/
def readBack (compact : Bool) (cells : List Cell) : List Cell :=
  if compact then cells.map (Cell.withZero (Cell.firstZero cells)) else cells

theorem readBack_of_nonzero (compact : Bool) {cells : List Cell}
    (h : ∀ c ∈ cells, c.weight.isZero = false) : readBack compact cells = cells := by
  unfold readBack
  split
  · refine (List.map_congr_left fun c hc => ?_).trans (List.map_id cells)
    exact Cell.withZero_of_nonzero _ (h c hc)
  · rfl

/-! ## The plain form -/

theorem cell?_plainOf {cells : List Cell} (hdst : ∀ c ∈ cells, c.dst < 2 ^ 32) (j : Nat) :
    (plainOf cells).cell? j = cells[j]? := by
  simp only [plainOf, cell?, List.getElem?_toArray, List.getElem?_map]
  cases hj : cells[j]? with
  | none => rfl
  | some c =>
    have hlt := hdst c (List.mem_of_getElem? hj)
    show some (⟨(UInt32.ofNat c.dst).toNat, c.weight⟩ : Cell) = some c
    rw [UInt32.toNat_ofNat_of_lt' hlt]

theorem destination?_plainOf {cells : List Cell} (hdst : ∀ c ∈ cells, c.dst < 2 ^ 32) (j : Nat) :
    (plainOf cells).destination? j = (cells.map Cell.dst)[j]? := by
  simp only [plainOf, destination?, List.getElem?_toArray, List.getElem?_map]
  cases hj : cells[j]? with
  | none => rfl
  | some c =>
    have hlt := hdst c (List.mem_of_getElem? hj)
    show some (UInt32.ofNat c.dst).toNat = some c.dst
    rw [UInt32.toNat_ofNat_of_lt' hlt]

/-! ## The compact form -/

/-- The entries have their numbers in a dictionary that fits next to their destinations. -/
structure Packs (cells : List Cell) (numStates columnBits : Nat) (dictionary : Dictionary)
    (numbers : List UInt32) (packing : Packing) : Prop where
  numbered : Dictionary.ofValues (cells.map Cell.weight) = (dictionary, numbers)
  fits : dictionary.fit numStates columnBits = .fits packing
  dst_lt : ∀ c ∈ cells, c.dst < numStates

section Compact

variable {cells : List Cell} {numStates columnBits : Nat} {dictionary : Dictionary}
  {numbers : List UInt32} {packing : Packing}
  (h : Packs cells numStates columnBits dictionary numbers packing)

include h

theorem Packs.size_le : dictionary.values.size ≤ 2 ^ packing.shift :=
  (Fit.room_of_fits h.fits).2.2.1

theorem Packs.size_lt : dictionary.values.size < 2 ^ 32 := Fit.numValues_lt h.fits

theorem Packs.map_values : numbers.map (fun i => dictionary.values[i.toNat]?)
    = cells.map fun c => some (c.withZero (Cell.firstZero cells)).weight := by
  rw [Dictionary.get?_ofValues h.numbered h.size_lt, List.map_map]
  exact List.map_congr_left fun c hc => Cell.find?_key hc

theorem Packs.length_numbers : numbers.length = cells.length := by
  simpa using congrArg List.length h.map_values

/-- The word of an entry has its destination and the number of its weight in its fields. -/
theorem Packs.word {j : Nat} {c : Cell} (hj : cells[j]? = some c) :
    ∃ word, (List.zipWith (fun c i => packing.encode (UInt32.ofNat c.dst) i) cells numbers)[j]?
        = some word ∧ (packing.destination word).toNat = c.dst ∧
      dictionary.values[(packing.index word).toNat]?
        = some (c.withZero (Cell.firstZero cells)).weight := by
  obtain ⟨hjlt, hcj⟩ := List.getElem?_eq_some_iff.1 hj
  have hjn : j < numbers.length := by rw [h.length_numbers]; exact hjlt
  have hvalue : dictionary.values[numbers[j].toNat]?
      = some (c.withZero (Cell.firstZero cells)).weight := by
    have hat := congrArg (fun l => l[j]?) h.map_values
    simpa [List.getElem?_eq_getElem hjn, hj] using hat
  have hindex : numbers[j].toNat < 2 ^ packing.shift := by
    obtain ⟨hplace, _⟩ := Array.getElem?_eq_some_iff.1 hvalue
    exact Nat.lt_of_lt_of_le hplace h.size_le
  obtain ⟨hword, hdst⟩ := Fit.toNat_dst h.fits (h.dst_lt c (List.mem_of_getElem? hj))
  refine ⟨packing.encode (UInt32.ofNat c.dst) numbers[j], ?_, ?_, ?_⟩
  · simp [List.getElem?_zipWith, hj, List.getElem?_eq_getElem hjn]
  · rw [Packing.destination_encode hdst hindex, hword]
  · rw [Packing.index_encode hdst hindex, hvalue]

theorem Packs.length_words :
    (List.zipWith (fun c i => packing.encode (UInt32.ofNat c.dst) i) cells numbers).length
      = cells.length := by
  rw [List.length_zipWith, h.length_numbers, Nat.min_self]

theorem Packs.cell?_packedOf (j : Nat) : (packedOf cells numbers dictionary packing).cell? j
    = (cells.map (Cell.withZero (Cell.firstZero cells)))[j]? := by
  simp only [packedOf, cell?, List.getElem?_toArray, List.getElem?_map]
  cases hj : cells[j]? with
  | none =>
    have hlen := h.length_words
    rw [List.getElem?_eq_none (by rw [hlen]; exact List.getElem?_eq_none_iff.1 hj)]
    rfl
  | some c =>
    obtain ⟨word, hword, hd, hw⟩ := h.word hj
    rw [hword]
    show (dictionary.values[(packing.index word).toNat]?.bind fun weight =>
      some (⟨(packing.destination word).toNat, weight⟩ : Cell)) = _
    rw [hw, hd, Option.bind_some, Option.map_some]
    rw [← Cell.dst_withZero (Cell.firstZero cells) c]

theorem Packs.destination?_packedOf (j : Nat) :
    (packedOf cells numbers dictionary packing).destination? j = (cells.map Cell.dst)[j]? := by
  simp only [packedOf, destination?, List.getElem?_toArray, List.getElem?_map]
  cases hj : cells[j]? with
  | none =>
    have hlen := h.length_words
    rw [List.getElem?_eq_none (by rw [hlen]; exact List.getElem?_eq_none_iff.1 hj)]
    rfl
  | some c =>
    obtain ⟨word, hword, hd, _⟩ := h.word hj
    rw [hword, Option.map_some, Option.map_some, hd]

end Compact

/-! ## The form that is chosen -/

theorem result_compactOf? {cells : List Cell} {dictionary : Dictionary} {numbers : List UInt32}
    (h : Dictionary.ofValues (cells.map Cell.weight) = (dictionary, numbers))
    (numStates columnBits : Nat) :
    (compactOf? cells numStates columnBits).result =
      .ok (match dictionary.fit numStates columnBits with
        | .fits packing => some (packedOf cells numbers dictionary packing)
        | .tooWide .. => none) := by
  simp only [compactOf?, h]
  cases dictionary.fit numStates columnBits <;> rfl

/-- Entries are packed when that is asked for and they fit, and stored plainly otherwise. -/
theorem ofCells_cases {cells : List Cell} {dictionary : Dictionary} {numbers : List UInt32}
    (h : Dictionary.ofValues (cells.map Cell.weight) = (dictionary, numbers)) (numStates : Nat)
    (options : Options) :
    (∃ packing, options.compact = true ∧
      dictionary.fit numStates options.columnBits = .fits packing ∧
      (ofCells cells numStates options).result
        = .ok (packedOf cells numbers dictionary packing)) ∨
    ((options.compact = true → ∀ packing,
        dictionary.fit numStates options.columnBits ≠ .fits packing) ∧
      (ofCells cells numStates options).result = .ok (plainOf cells)) := by
  rw [ofCells]
  cases hc : options.compact with
  | false =>
    right
    exact ⟨fun hcontra => absurd hcontra (by simp), rfl⟩
  | true =>
    have hres := result_compactOf? h numStates options.columnBits
    rw [if_pos rfl, Traced.result_bind, hres]
    cases hfit : dictionary.fit numStates options.columnBits with
    | fits packing => exact Or.inl ⟨packing, rfl, rfl, rfl⟩
    | tooWide a b c =>
      right
      exact ⟨fun _ packing hcontra => absurd hcontra (by simp), rfl⟩

theorem exists_ofCells (cells : List Cell) (numStates : Nat) (options : Options) :
    ∃ storage, (ofCells cells numStates options).result = .ok storage := by
  obtain ⟨dictionary, numbers, hdn⟩ : ∃ dictionary numbers,
      Dictionary.ofValues (cells.map Cell.weight) = (dictionary, numbers) := ⟨_, _, rfl⟩
  rcases ofCells_cases hdn numStates options with ⟨_, _, _, hres⟩ | ⟨_, hres⟩
  · exact ⟨_, hres⟩
  · exact ⟨_, hres⟩

/-- The storage holds the given entries, in their order. -/
structure Stores (storage : ColumnStorage) (cells : List Cell) : Prop where
  /-- Entries are read back, in the compact form with one zero for all. -/
  cell?_eq : ∀ j, storage.cell? j = (readBack storage.isCompact cells)[j]?
  destination?_eq : ∀ j, storage.destination? j = (cells.map Cell.dst)[j]?
  size_eq : storage.size = cells.length

theorem stores_of_ofCells {cells : List Cell} {numStates : Nat} {options : Options}
    {storage : ColumnStorage} (h : (ofCells cells numStates options).result = .ok storage)
    (hstates : numStates ≤ 2 ^ 32) (hdst : ∀ c ∈ cells, c.dst < numStates) :
    storage.Stores cells := by
  obtain ⟨dictionary, numbers, hdn⟩ : ∃ dictionary numbers,
      Dictionary.ofValues (cells.map Cell.weight) = (dictionary, numbers) := ⟨_, _, rfl⟩
  rcases ofCells_cases hdn numStates options with ⟨packing, _, hfit, hres⟩ | ⟨_, hres⟩
  · have hp : Packs cells numStates options.columnBits dictionary numbers packing :=
      ⟨hdn, hfit, hdst⟩
    rw [hres] at h
    cases h
    refine ⟨hp.cell?_packedOf, hp.destination?_packedOf, ?_⟩
    simp only [packedOf, size, List.size_toArray]
    exact hp.length_words
  · have hdst' : ∀ c ∈ cells, c.dst < 2 ^ 32 := fun c hc =>
      Nat.lt_of_lt_of_le (hdst c hc) hstates
    rw [hres] at h
    cases h
    refine ⟨cell?_plainOf hdst', destination?_plainOf hdst', ?_⟩
    simp [plainOf, size]

end ColumnStorage

end TransitionMatrix
