import TransitionMatrix.Proofs.Column.Storage
import TransitionMatrix.Proofs.FirstSeen

/-!
# Sound storage

Whatever entries are stored, the arrays of the storage go together: destinations are in range, and in
the compact form every word mentions a weight that is there. A dictionary has no more weights than
its field has room for, none of them twice, and they are numbered in the order in which the words
mention them.
-/

namespace TransitionMatrix

namespace Dictionary

/-- The weights that are added are the first ones with their keys, in the order in which they are
inserted. -/
theorem values_insertAll {d : Dictionary} (hd : d.Indexed) {ws : List Binary64}
    (hsize : (d.insertAll ws).1.values.size < 2 ^ 32) : (d.insertAll ws).1.values.toList
      = d.values.toList ++ (firstSeen Binary64.key ws).filter fun w => w.key ∉ d.keys := by
  induction ws generalizing d with
  | nil =>
    rw [firstSeen, List.filter_nil, List.append_nil]
    rfl
  | cons w rest ih =>
    have hnow := Nat.lt_of_le_of_lt (size_le_insertAll d (w :: rest)) hsize
    show ((d.insert w).1.insertAll rest).1.values.toList = _
    rw [ih (hd.insert hnow) hsize, values_insert hd hnow, keys_insert hd hnow, firstSeen]
    by_cases hmem : w.key ∈ d.keys
    · rw [if_pos hmem, if_pos hmem, List.filter_cons_of_neg (by simpa using hmem),
        List.filter_filter]
      congr 1
      refine List.filter_congr fun v _ => ?_
      by_cases hv : v.key ∈ d.keys
      · simp [hv]
      · have hne : v.key ≠ w.key := fun heq => hv (heq ▸ hmem)
        simp [hv, hne]
    · rw [if_neg hmem, if_neg hmem, List.filter_cons_of_pos (by simpa using hmem),
        List.filter_filter, List.append_assoc, List.singleton_append]
      congr 2
      refine List.filter_congr fun v _ => ?_
      by_cases hv : v.key = w.key
      · simp [hv]
      · simp [hv]

theorem values_ofValues {ws : List Binary64} {d : Dictionary} {is : List UInt32}
    (h : ofValues ws = (d, is)) (hsize : d.values.size < 2 ^ 32) :
    d.values.toList = firstSeen Binary64.key ws := by
  have hd : d = (empty.insertAll ws).1 := (congrArg Prod.fst h).symm
  rw [hd] at hsize
  rw [hd, values_insertAll indexed_empty hsize]
  simp [empty, keys]

theorem keys_ofValues {ws : List Binary64} {d : Dictionary} {is : List UInt32}
    (h : ofValues ws = (d, is)) (hsize : d.values.size < 2 ^ 32) :
    d.keys = firstSeen id (ws.map Binary64.key) := by
  rw [keys, values_ofValues h hsize, firstSeen_map]
  rfl

theorem indexed_ofValues {ws : List Binary64} {d : Dictionary} {is : List UInt32}
    (h : ofValues ws = (d, is)) (hsize : d.values.size < 2 ^ 32) : d.Indexed := by
  have hd : d = (empty.insertAll ws).1 := (congrArg Prod.fst h).symm
  rw [hd] at hsize ⊢
  exact indexed_empty.insertAll hsize

/-- The places of keys, in the order in which they are first seen, are those of the dictionary. -/
theorem firstSeen_places {keys : List UInt64} (ks : List UInt64) (h : keys = firstSeen id ks) :
    firstSeen id (ks.map fun k => keys.idxOf k) = List.range keys.length := by
  have hmem : ∀ k ∈ ks, k ∈ keys := by
    intro k hk
    rw [h]
    exact mem_firstSeen_id.2 hk
  have hinj : ∀ a ∈ ks, ∀ b ∈ ks, id (keys.idxOf a) = id (keys.idxOf b) ↔ id a = id b := by
    intro a ha b _
    exact List.idxOf_inj (hmem a ha)
  have hnodup : keys.Nodup := by
    rw [h]
    simpa using nodup_map_firstSeen id ks
  rw [firstSeen_map, firstSeen_congr hinj, ← h]
  refine List.ext_getElem (by simp) fun i hi hi' => ?_
  rw [List.getElem_map, List.getElem_range, List.Nodup.idxOf_getElem hnodup]

end Dictionary

namespace ColumnStorage

/-- The words and the weights that they mention go together. -/
structure Packed (words : Array UInt32) (dictionary : Array Binary64) (packing : Packing) :
    Prop where
  /-- Every word mentions a weight that is there. -/
  index_lt : ∀ word ∈ words, (packing.index word).toNat < dictionary.size
  /-- The low field has room for all numbers of weights. -/
  size_le : dictionary.size ≤ 2 ^ packing.shift
  /-- No two weights are the same number, a zero being the same as the other. -/
  nodup : (dictionary.toList.map Binary64.key).Nodup
  /-- The words mention each of the weights, and for the first time in the order of the weights. -/
  firstUse : firstSeen id (words.toList.map fun word => (packing.index word).toNat)
    = List.range dictionary.size

/-- The arrays of the storage go together. -/
def WellFormed : ColumnStorage → Prop
  | plain cols weights => weights.size = cols.size
  | compact words dictionary packing => Packed words dictionary packing

/-- The arrays go together, and destinations are states. -/
structure Sound (storage : ColumnStorage) (numStates : Nat) : Prop where
  wellFormed : storage.WellFormed
  destination_lt : ∀ j dst, storage.destination? j = some dst → dst < numStates

/-- At every position there is an entry, and it leads to a state. -/
theorem Sound.exists_cell? {storage : ColumnStorage} {numStates : Nat}
    (h : storage.Sound numStates) {j : Nat} (hj : j < storage.size) :
    ∃ c, storage.cell? j = some c ∧ storage.destination? j = some c.dst ∧ c.dst < numStates := by
  obtain ⟨hform, hdst⟩ := h
  cases storage with
  | plain cols weights =>
    have hcol : cols[j]? = some cols[j] := Array.getElem?_eq_getElem hj
    have hlt : j < weights.size := by
      rw [show weights.size = cols.size from hform]
      exact hj
    have hat : (plain cols weights).destination? j = some cols[j].toNat := by
      rw [destination?, hcol, Option.map_some]
    refine ⟨⟨cols[j].toNat, weights[j]⟩, ?_, hat, hdst j _ hat⟩
    simp only [cell?, hcol, Array.getElem?_eq_getElem hlt]
    rfl
  | compact words dictionary packing =>
    have hword : words[j]? = some words[j] := Array.getElem?_eq_getElem hj
    have hlt := hform.index_lt _ (Array.getElem_mem hj)
    have hat : (compact words dictionary packing).destination? j
        = some (packing.destination words[j]).toNat := by
      rw [destination?, hword, Option.map_some]
    refine ⟨⟨(packing.destination words[j]).toNat, dictionary[(packing.index words[j]).toNat]⟩, ?_,
      hat, hdst j _ hat⟩
    simp only [cell?, hword, Option.bind_eq_bind, Option.bind_some, Array.getElem?_eq_getElem hlt]
    rfl

/-! ## What is stored is sound -/

section Packs

variable {cells : List Cell} {numStates columnBits : Nat} {dictionary : Dictionary}
  {numbers : List UInt32} {packing : Packing}
  (h : Packs cells numStates columnBits dictionary numbers packing)

include h

/-- A word mentions the place of its weight's key. -/
theorem Packs.map_index :
    (List.zipWith (fun c i => packing.encode (UInt32.ofNat c.dst) i) cells numbers).map
        (fun word => (packing.index word).toNat)
      = (cells.map fun c => c.weight.key).map fun k => dictionary.keys.idxOf k := by
  have hnodup := (Dictionary.indexed_ofValues h.numbered h.size_lt).nodup
  refine List.ext_getElem? fun j => ?_
  rw [List.getElem?_map, List.getElem?_map, List.getElem?_map]
  cases hj : cells[j]? with
  | none =>
    have hlength := h.length_words
    rw [List.getElem?_eq_none (by rw [hlength]; exact List.getElem?_eq_none_iff.1 hj)]
    rfl
  | some c =>
    obtain ⟨word, hword, _, hvalue⟩ := h.word hj
    have hkey : (c.withZero (Cell.firstZero cells)).weight.key = c.weight.key :=
      congrArg Prod.snd (Cell.key_withZero (List.mem_of_getElem? hj))
    have hplace : dictionary.keys[(packing.index word).toNat]? = some c.weight.key := by
      rw [Dictionary.keys, List.getElem?_map, Array.getElem?_toList, hvalue, Option.map_some, hkey]
    obtain ⟨hlt, heq⟩ := List.getElem?_eq_some_iff.1 hplace
    rw [hword, Option.map_some, Option.map_some, Option.map_some, ← heq,
      List.Nodup.idxOf_getElem hnodup]

theorem Packs.packed :
    Packed (List.zipWith (fun c i => packing.encode (UInt32.ofNat c.dst) i) cells numbers).toArray
      dictionary.values packing := by
  have hkeys := Dictionary.keys_ofValues h.numbered h.size_lt
  have hsize := Dictionary.length_keys dictionary
  rw [List.map_map] at hkeys
  have hfirst : firstSeen id ((List.zipWith (fun c i => packing.encode (UInt32.ofNat c.dst) i) cells
        numbers).map fun word => (packing.index word).toNat)
      = List.range dictionary.values.size := by
    rw [h.map_index, ← hsize]
    exact Dictionary.firstSeen_places _ hkeys
  refine ⟨fun word hword => ?_, h.size_le, (Dictionary.indexed_ofValues h.numbered h.size_lt).nodup, hfirst⟩
  have hword := List.mem_toArray.1 hword
  have hmem : (packing.index word).toNat ∈ List.range dictionary.values.size := by
    rw [← hfirst, mem_firstSeen_id]
    exact List.mem_map_of_mem hword
  exact List.mem_range.1 hmem

end Packs

/-- Whatever the form, the storage of entries to states is sound. -/
theorem sound_of_ofCells {cells : List Cell} {numStates : Nat} {options : Options}
    {storage : ColumnStorage} (h : (ofCells cells numStates options).result = .ok storage)
    (hstates : numStates ≤ 2 ^ 32) (hdst : ∀ c ∈ cells, c.dst < numStates) :
    storage.Sound numStates := by
  have hstores := stores_of_ofCells h hstates hdst
  obtain ⟨dictionary, numbers, hdn⟩ : ∃ dictionary numbers,
      Dictionary.ofValues (cells.map Cell.weight) = (dictionary, numbers) := ⟨_, _, rfl⟩
  constructor
  · rcases ofCells_cases hdn numStates options with ⟨packing, _, hfit, hres⟩ | ⟨_, hres⟩
    · rw [hres] at h
      cases h
      exact Packs.packed ⟨hdn, hfit, hdst⟩
    · rw [hres] at h
      cases h
      show (cells.map Cell.weight).toArray.size = (cells.map _).toArray.size
      simp
  · intro j dst hat
    rw [hstores.destination?_eq, List.getElem?_map] at hat
    obtain ⟨c, hc, rfl⟩ := Option.map_eq_some_iff.1 hat
    exact hdst c (List.mem_of_getElem? hc)

end ColumnStorage

end TransitionMatrix
