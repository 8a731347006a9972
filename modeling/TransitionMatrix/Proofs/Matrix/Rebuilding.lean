import Mathlib.Data.List.Find
import TransitionMatrix.Proofs.Matrix.Rows
import TransitionMatrix.Proofs.Symbolic.Transitions

/-!
# Building a matrix again

The entries that a matrix lists are those that it was built from, up to their order and to the zero
that the compact form gives back. Built from them, with the same options, the matrix is the same down
to the last word: a weight gets its number when its key is seen for the first time, and the first
zero is the one that is given back for all of them.
-/

namespace TransitionMatrix

/-! ## The same dictionary -/

namespace Dictionary

/-- Weights with the same keys get the same numbers, and leave the same dictionary if the first weight
of each new key is the same. -/
theorem insertAll_congr {d : Dictionary} (hd : d.Indexed) {ws ws' : List Binary64}
    (hsize : (d.insertAll ws).1.values.size < 2 ^ 32)
    (hkeys : ws'.map Binary64.key = ws.map Binary64.key)
    (hfirst : ∀ k, k ∉ d.keys →
      ws'.find? (fun w => w.key == k) = ws.find? fun w => w.key == k) :
    d.insertAll ws' = d.insertAll ws := by
  induction ws generalizing d ws' with
  | nil =>
    have hnil : ws' = [] := by simpa using hkeys
    rw [hnil]
  | cons w rest ih =>
    cases ws' with
    | nil => cases hkeys
    | cons w' rest' =>
      rw [List.map_cons, List.map_cons, List.cons.injEq] at hkeys
      obtain ⟨hkey, hrest⟩ := hkeys
      have hnow := Nat.lt_of_le_of_lt (size_le_insertAll d (w :: rest)) hsize
      have hinsert : d.insert w' = d.insert w := by
        by_cases hmem : w.key ∈ d.keys
        · exact insert_congr_of_mem hd hnow hkey hmem
        · have hsame := hfirst w.key hmem
          rw [List.find?_cons_of_pos (by simp [hkey]), List.find?_cons_of_pos (by simp)] at hsame
          rw [Option.some.inj hsame]
      have hlater : (d.insert w).1.insertAll rest' = (d.insert w).1.insertAll rest := by
        refine ih (hd.insert hnow) hsize hrest fun k hk => ?_
        rw [keys_insert hd hnow] at hk
        have hold : k ∉ d.keys := by
          intro hmem
          split at hk
          · exact hk hmem
          · exact hk (List.mem_append_left _ hmem)
        have hne : w.key ≠ k := by
          rintro rfl
          rw [if_neg hold] at hk
          exact hk (List.mem_append_right _ List.mem_cons_self)
        have hsame := hfirst k hold
        rw [List.find?_cons_of_neg (by simpa [hkey] using hne),
          List.find?_cons_of_neg (by simpa using hne)] at hsame
        exact hsame
      simp only [insertAll, hinsert, hlater]

end Dictionary

/-- The first weight with a key is not replaced when zeros are. -/
theorem Cell.find?_map_withZero (cells : List Cell) (k : UInt64) :
    ((cells.map (withZero (firstZero cells))).map weight).find? (fun w => w.key == k)
      = (cells.map weight).find? fun w => w.key == k := by
  have hweights : ∀ cs : List Cell, (cs.map weight).find? (fun w => w.key == k)
      = (cs.find? fun c => c.weight.key == k).map weight := by
    intro cs
    rw [List.find?_map]
    rfl
  have hcells : (cells.map (withZero (firstZero cells))).find? (fun c => c.weight.key == k)
      = (cells.find? fun c => c.weight.key == k).map (withZero (firstZero cells)) := by
    rw [List.find?_map]
    congr 1
    refine List.find?_congr fun c hc => ?_
    have hkey : (c.withZero (firstZero cells)).weight.key = c.weight.key :=
      congrArg Prod.snd (key_withZero hc)
    rw [Function.comp_apply, hkey]
  rw [hweights, hweights, hcells]
  cases hfind : cells.find? (fun c => c.weight.key == k) with
  | none => rfl
  | some c =>
    have hkey : c.weight.key = k := by simpa using List.find?_some hfind
    have hfirst := find?_key (List.mem_of_find?_eq_some hfind)
    rw [hkey, hweights, hfind, Option.map_some] at hfirst
    rw [Option.map_some, Option.map_some, Option.map_some, hfirst]

theorem Dictionary.ofValues_withZero {cells : List Cell}
    (hsize : (ofValues (cells.map Cell.weight)).1.values.size < 2 ^ 32) :
    ofValues ((cells.map (Cell.withZero (Cell.firstZero cells))).map Cell.weight)
      = ofValues (cells.map Cell.weight) := by
  refine insertAll_congr indexed_empty hsize ?_ fun k _ => Cell.find?_map_withZero cells k
  rw [List.map_map, List.map_map, List.map_map]
  refine List.map_congr_left fun c hc => ?_
  exact congrArg Prod.snd (Cell.key_withZero hc)

/-- What stored entries read back as is stored in the same way. -/
theorem ColumnStorage.ofCells_readBack {cells : List Cell} {numStates : Nat} {options : Options}
    {storage : ColumnStorage} (h : (ofCells cells numStates options).result = .ok storage) :
    (ofCells (readBack storage.isCompact cells) numStates options).result = .ok storage := by
  obtain ⟨dictionary, numbers, hdn⟩ : ∃ dictionary numbers,
      Dictionary.ofValues (cells.map Cell.weight) = (dictionary, numbers) := ⟨_, _, rfl⟩
  rcases ofCells_cases hdn numStates options with ⟨packing, hcompact, hfit, hres⟩ | ⟨_, hres⟩
  · have hsize : (Dictionary.ofValues (cells.map Cell.weight)).1.values.size < 2 ^ 32 := by
      rw [hdn]
      exact Fit.numValues_lt hfit
    have hdn' := (Dictionary.ofValues_withZero hsize).trans hdn
    rw [hres] at h
    cases h
    show (ofCells (cells.map (Cell.withZero (Cell.firstZero cells))) numStates options).result = _
    rcases ofCells_cases hdn' numStates options with ⟨packing', _, hfit', hres'⟩ | ⟨hnot, _⟩
    · rw [hfit] at hfit'
      cases hfit'
      rw [hres', packedOf, packedOf, List.zipWith_map_left]
      simp only [Cell.dst_withZero]
    · exact absurd hfit (hnot hcompact packing)
  · rw [hres] at h
    cases h
    exact hres

/-! ## The same matrix -/

namespace Matrix

/-- The entries of a matrix, row by row. -/
def listed (m : Matrix) : List Entry :=
  (List.range m.numRows).flatMap fun src => (m.cells src).map fun c => ⟨src, c.dst, c.weight⟩

theorem mem_listed {m : Matrix} {entry : Entry} : entry ∈ m.listed ↔
    entry.src < m.numRows ∧ entry.cell ∈ m.cells entry.src := by
  obtain ⟨src, dst, weight⟩ := entry
  simp only [listed, List.mem_flatMap, List.mem_map, List.mem_range]
  constructor
  · rintro ⟨row, hrow, c, hc, heq⟩
    cases heq
    exact ⟨hrow, hc⟩
  · rintro ⟨hsrc, hc⟩
    exact ⟨src, hsrc, _, hc, rfl⟩

theorem row_of_lt {m : Matrix} {src : Nat} (hsrc : src < m.numRows) :
    m.row src = .ok (m.cells src) := by
  rw [row, checkRow, if_pos hsrc]
  rfl

/-- A row of the listed entries has the cells of the row. -/
theorem rowOf_listed (m : Matrix) {src : Nat} (hsrc : src < m.numRows) :
    Entry.rowOf src m.listed = m.cells src := by
  have hrows : ∀ row, ((m.cells row).map fun c => (⟨row, c.dst, c.weight⟩ : Entry)).filterMap
      (fun e => if e.src = src then some e.cell else none) = if row = src then m.cells row else [] := by
    intro row
    rw [List.filterMap_map]
    by_cases hrow : row = src
    · rw [if_pos hrow]
      refine (List.filterMap_congr fun c _ => ?_).trans List.filterMap_some
      rw [Function.comp_apply, if_pos hrow]
      rfl
    · rw [if_neg hrow, List.filterMap_eq_nil_iff]
      intro c _
      rw [Function.comp_apply, if_neg hrow]
  rw [Entry.rowOf, listed, List.filterMap_flatMap]
  simp only [hrows]
  rw [Transition.flatMap_range_of_unique hsrc, if_pos rfl]
  intro row hrow
  rw [if_neg hrow]

namespace Built

variable {m : Matrix} {numRows numCols : Nat} {entries : List Entry} {options : Options}
  (hm : m.Built numRows numCols entries options)

include hm

theorem rowOf_listed_eq {src : Nat} (hsrc : src < numRows) :
    Entry.rowOf src m.listed = Entry.storedRow m.isCompact numRows entries src := by
  rw [rowOf_listed m (by rw [hm.numRows_eq]; exact hsrc), hm.cells_eq hsrc]

theorem rowLengths_listed : rowLengths numRows m.listed = rowLengths numRows entries := by
  refine List.map_congr_left fun src hsrc => ?_
  rw [hm.rowOf_listed_eq (List.mem_range.1 hsrc)]
  simpa using congrArg List.length (Entry.map_dst_storedRow m.isCompact numRows entries src)

theorem rowMajor_listed : Entry.rowMajor numRows m.listed
    = ColumnStorage.readBack m.isCompact (Entry.rowMajor numRows entries) := by
  rw [← Entry.flatten_storedRow, Entry.rowMajor]
  congr 1
  refine List.map_congr_left fun src hsrc => ?_
  exact hm.rowOf_listed_eq (List.mem_range.1 hsrc)

theorem inRange_listed : InRange numRows numCols m.listed := by
  intro entry hentry
  obtain ⟨hsrc, hc⟩ := mem_listed.1 hentry
  rw [hm.numRows_eq] at hsrc
  rw [hm.cells_eq hsrc] at hc
  have hdst := List.mem_map_of_mem (f := Cell.dst) hc
  rw [Entry.map_dst_storedRow] at hdst
  obtain ⟨c, hc, heq⟩ := List.mem_map.1 hdst
  obtain ⟨e, he, _, rfl⟩ := Entry.mem_rowOf.1 hc
  have hlt := (hm.inRange e he).2
  exact ⟨hsrc, show entry.cell.dst < numCols by rw [← heq]; exact hlt⟩

/-- As many entries are listed as there were. -/
theorem length_listed : m.listed.length = entries.length := by
  rw [← rowLengths_sum hm.inRange_listed, hm.rowLengths_listed, rowLengths_sum hm.inRange]

/-- A matrix is also the one that is put together from the entries that it lists. -/
theorem of_listed : m.Built numRows numCols m.listed options where
  check := hm.check
  numCols_le := hm.numCols_le
  numRows_lt := hm.numRows_lt
  inRange := hm.inRange_listed
  length_lt := hm.length_listed ▸ hm.length_lt
  numRows_eq := hm.numRows_eq
  numCols_eq := hm.numCols_eq
  extents := by
    rw [hm.rowLengths_listed]
    exact hm.extents
  spans := hm.spans
  storage := by
    rw [hm.rowMajor_listed]
    exact ColumnStorage.ofCells_readBack hm.storage

end Built

end Matrix

end TransitionMatrix
