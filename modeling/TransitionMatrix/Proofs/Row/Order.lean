import TransitionMatrix.Row.Order
import TransitionMatrix.Proofs.Row.Boundaries

/-!
# Entries are put in order

While entries are put in their places, the cursor of a row is as far behind the beginning of the row
as entries of it were met, and these entries stand between the two in the order in which they came.
When all entries are placed, every row is full, and so the places hold the rows one after another.
-/

namespace TransitionMatrix

/-! ## Counting -/

theorem getElem?_foldl_modify_succ (rows : List Nat) (lengths : Array Nat) (i : Nat) :
    (rows.foldl (fun lengths row => lengths.modify row (· + 1)) lengths)[i]?
      = lengths[i]?.map (· + rows.count i) := by
  induction rows generalizing lengths with
  | nil => simp
  | cons row rest ih =>
    rw [List.foldl_cons, ih, Array.getElem?_modify, List.count_cons]
    by_cases hrow : row = i
    · subst hrow
      rw [if_pos rfl, Option.map_map]
      congr 1
      funext n
      simp only [Function.comp_apply, beq_self_eq_true, if_true]
      omega
    · simp [hrow]

theorem toList_countRows (numRows : Nat) (rows : List Nat) :
    (countRows numRows rows).toList = (List.range numRows).map fun row => rows.count row := by
  refine List.ext_getElem? fun i => ?_
  rw [Array.getElem?_toList, countRows, getElem?_foldl_modify_succ, Array.getElem?_replicate,
    List.getElem?_map]
  by_cases hi : i < numRows
  · rw [if_pos hi, List.getElem?_range hi, Option.map_some, Option.map_some, Nat.zero_add]
  · rw [if_neg hi, List.getElem?_eq_none (by simpa using hi)]
    rfl

/-! ## Placing -/

/-- The entries of a row, of entries that are given with their rows. -/
def entriesOf (row : Nat) (placed : List (Nat × Nat)) : List Nat :=
  placed.filterMap fun p => if p.1 = row then some p.2 else none

theorem entriesOf_concat (row : Nat) (placed : List (Nat × Nat)) (p : Nat × Nat) :
    entriesOf row (placed ++ [p])
      = if p.1 = row then entriesOf row placed ++ [p.2] else entriesOf row placed := by
  rw [entriesOf, List.filterMap_append]
  split <;> simp_all [entriesOf]

namespace RowCursors

variable {lengths : List Nat} {placed : List (Nat × Nat)} {c : RowCursors}

/-- The rows have room for the entries that are placed. -/
def Room (lengths : List Nat) (placed : List (Nat × Nat)) : Prop :=
  ∀ row (h : row < lengths.length), (entriesOf row placed).length ≤ lengths[row]

/-- The entries that are placed stand at the beginnings of their rows, and each cursor is behind those
of its row. -/
structure Placed (lengths : List Nat) (placed : List (Nat × Nat)) (c : RowCursors) : Prop where
  size_eq : c.order.size = lengths.sum
  next_eq : ∀ row < lengths.length,
    c.next[row]? = some (RowSpans.offset lengths row + (entriesOf row placed).length)
  order_eq : ∀ row < lengths.length, ∀ k < (entriesOf row placed).length,
    c.order[RowSpans.offset lengths row + k]? = (entriesOf row placed)[k]?

/-! Each cursor starts where its row begins. -/

theorem toList_foldl_push (lengths : List Nat) (next : Array Nat) (offset : Nat) :
    (lengths.foldl (fun (next, offset) length => (next.push offset, offset + length))
        (next, offset)).1.toList
      = next.toList ++ (List.range lengths.length).map fun row => offset + RowSpans.offset lengths row := by
  induction lengths generalizing next offset with
  | nil => simp
  | cons length rest ih =>
    rw [List.foldl_cons, ih, Array.toList_push, List.append_assoc, List.length_cons,
      List.range_succ_eq_map, List.map_cons, List.map_map]
    simp only [Function.comp_def, RowSpans.offset_cons_succ, Nat.add_assoc]
    rfl

theorem next_start {row : Nat} (hrow : row < lengths.length) (numEntries : Nat) :
    (start lengths numEntries).next[row]? = some (RowSpans.offset lengths row) := by
  rw [start, ← Array.getElem?_toList, toList_foldl_push, List.nil_append, List.getElem?_map,
    List.getElem?_range hrow, Option.map_some, Nat.zero_add]

theorem placed_start (lengths : List Nat) : Placed lengths [] (start lengths lengths.sum) where
  size_eq := Array.size_replicate
  next_eq := fun _ hrow => next_start hrow _
  order_eq := fun _ _ _ hk => absurd hk (Nat.not_lt_zero _)

theorem Placed.getD_next (h : Placed lengths placed c) {row : Nat} (hrow : row < lengths.length) :
    c.next.getD row 0 = RowSpans.offset lengths row + (entriesOf row placed).length := by
  rw [Array.getD_eq_getD_getElem?, h.next_eq row hrow, Option.getD_some]

section Place

variable {row entry : Nat} (h : Placed lengths placed c)

include h

theorem Placed.next_place {other : Nat} (hother : other < lengths.length) :
    (c.place row entry).next[other]? = some (RowSpans.offset lengths other
      + (entriesOf other (placed ++ [(row, entry)])).length) := by
  show (c.next.modify row (· + 1))[other]? = _
  rw [Array.getElem?_modify, h.next_eq other hother, entriesOf_concat]
  by_cases heq : row = other
  · rw [if_pos heq, if_pos heq, Option.map_some, List.length_append, List.length_singleton,
      Nat.add_assoc]
  · rw [if_neg heq, if_neg heq]

/-- The new entry is written behind those of its row; every other place keeps its entry. -/
theorem Placed.order_place (hroom : Room lengths placed) (hrow : row < lengths.length)
    (hlt : (entriesOf row placed).length < lengths[row]) {other : Nat}
    (hother : other < lengths.length) {k : Nat}
    (hk : k < (entriesOf other (placed ++ [(row, entry)])).length) :
    (c.place row entry).order[RowSpans.offset lengths other + k]?
      = (entriesOf other (placed ++ [(row, entry)]))[k]? := by
  show (c.order.setIfInBounds (c.next.getD row 0) entry)[RowSpans.offset lengths other + k]? = _
  rw [h.getD_next hrow]
  rw [entriesOf_concat] at hk ⊢
  by_cases hsame : row = other ∧ k = (entriesOf row placed).length
  · obtain ⟨rfl, rfl⟩ := hsame
    have hin : RowSpans.offset lengths row + (entriesOf row placed).length < c.order.size := by
      rw [h.size_eq]
      exact RowSpans.offset_add_lt_sum hrow hlt
    rw [if_pos rfl, Array.getElem?_setIfInBounds_self, if_pos hin, List.getElem?_concat_length]
  · have hold : k < (entriesOf other placed).length := by
      split at hk
      · rename_i heq
        obtain rfl : row = other := heq
        have hlast : k ≠ (entriesOf row placed).length := fun hk => hsame ⟨rfl, hk⟩
        rw [List.length_append, List.length_singleton] at hk
        omega
      · exact hk
    have hfit := hroom other hother
    have hne : RowSpans.offset lengths row + (entriesOf row placed).length
        ≠ RowSpans.offset lengths other + k := by
      intro heq
      obtain ⟨hrows, hk'⟩ := RowSpans.offset_add_inj hrow hother hlt (by omega) heq
      exact hsame ⟨hrows, hk'.symm⟩
    rw [Array.getElem?_setIfInBounds_ne hne, h.order_eq other hother k hold]
    split
    · rw [List.getElem?_append_left hold]
    · rfl

/-- One more entry is placed. -/
theorem Placed.place (hroom : Room lengths placed) (hrow : row < lengths.length)
    (hlt : (entriesOf row placed).length < lengths[row]) :
    Placed lengths (placed ++ [(row, entry)]) (c.place row entry) where
  size_eq := by
    show (c.order.setIfInBounds _ _).size = _
    rw [Array.size_setIfInBounds]
    exact h.size_eq
  next_eq := fun _ hother => h.next_place hother
  order_eq := fun _ hother _ hk => h.order_place hroom hrow hlt hother hk

end Place

theorem Room.of_concat {p : Nat × Nat} (h : Room lengths (placed ++ [p])) : Room lengths placed := by
  intro row hrow
  have hle := h row hrow
  rw [entriesOf_concat] at hle
  split at hle
  · rw [List.length_append] at hle
    omega
  · exact hle

/-- Entries that the rows have room for are all placed. -/
theorem placed_foldl (hrows : ∀ p ∈ placed, p.1 < lengths.length) (hroom : Room lengths placed) :
    Placed lengths placed (placed.foldl (fun cursors (row, entry) => RowCursors.place cursors row entry)
      (start lengths lengths.sum)) := by
  induction placed using List.reverseRecOn with
  | nil => exact placed_start lengths
  | append_singleton placed p ih =>
    have hrow : p.1 < lengths.length := hrows p (by simp)
    have hbefore := ih (fun q hq => hrows q (List.mem_append_left _ hq)) hroom.of_concat
    have hlt := hroom p.1 hrow
    rw [entriesOf_concat, if_pos rfl, List.length_append, List.length_singleton] at hlt
    rw [List.foldl_append]
    exact hbefore.place hroom.of_concat hrow hlt

end RowCursors

/-! ## The whole order -/

theorem length_entriesOf_zipIdx (row : Nat) (rows : List Nat) :
    (entriesOf row rows.zipIdx).length = rows.count row := by
  induction rows using List.reverseRecOn with
  | nil => rfl
  | append_singleton rows other ih =>
    rw [List.zipIdx_append, List.zipIdx_singleton, entriesOf_concat, List.count_append]
    by_cases heq : other = row
    · rw [if_pos heq, List.length_append, ih, heq, List.count_singleton_self]
      rfl
    · rw [if_neg heq, ih, List.count_singleton, if_neg (by simpa using heq), Nat.add_zero]

/-- The elements of a row follow those of the rows before it. -/
theorem getElem?_flatten_offset {α : Type} (rows : List (List α)) {i k : Nat} (hi : i < rows.length)
    (hk : k < rows[i].length) :
    rows.flatten[RowSpans.offset (rows.map List.length) i + k]? = rows[i][k]? := by
  induction rows generalizing i with
  | nil => cases hi
  | cons row rest ih =>
    rw [List.flatten_cons, List.map_cons]
    cases i with
    | zero =>
      have hzero : RowSpans.offset (row.length :: rest.map List.length) 0 = 0 := rfl
      rw [hzero, Nat.zero_add]
      exact List.getElem?_append_left hk
    | succ i =>
      rw [RowSpans.offset_cons_succ, Nat.add_assoc, List.getElem?_append_right (by omega),
        Nat.add_sub_cancel_left]
      exact ih (by simpa using hi) hk

/-- The places hold the entries of each row, one row after another, if the rows have the lengths that
the entries give them. -/
theorem toList_rowOrder {lengths rows : List Nat} (hrows : ∀ row ∈ rows, row < lengths.length)
    (hlengths : ∀ row (h : row < lengths.length), lengths[row] = rows.count row)
    (hsum : lengths.sum = rows.length) : (rowOrder lengths rows).toList
      = ((List.range lengths.length).map fun row => entriesOf row rows.zipIdx).flatten := by
  have hroom : RowCursors.Room lengths rows.zipIdx := by
    intro row hrow
    rw [length_entriesOf_zipIdx, hlengths row hrow]
  have hplaced := RowCursors.placed_foldl
    (fun p hp => hrows p.1 (List.fst_mem_of_mem_zipIdx hp)) hroom
  have hmap : ((List.range lengths.length).map fun row => entriesOf row rows.zipIdx).map List.length
      = lengths := by
    refine List.ext_getElem (by simp) fun row h₁ h₂ => ?_
    rw [List.getElem_map, List.getElem_map, List.getElem_range, length_entriesOf_zipIdx,
      hlengths row h₂]
  rw [rowOrder, ← hsum]
  refine List.ext_getElem? fun position => ?_
  rw [Array.getElem?_toList]
  by_cases hposition : position < lengths.sum
  · obtain ⟨row, k, hrow, hk, rfl⟩ := RowSpans.exists_offset_add hposition
    have hk' : k < (entriesOf row rows.zipIdx).length := by
      rw [length_entriesOf_zipIdx, ← hlengths row hrow]
      exact hk
    have hflatten := getElem?_flatten_offset
      ((List.range lengths.length).map fun row => entriesOf row rows.zipIdx) (i := row) (k := k)
      (by simpa using hrow) (by simpa using hk')
    rw [hmap] at hflatten
    rw [hflatten, hplaced.order_eq row hrow k hk']
    simp
  · rw [Array.getElem?_eq_none (by rw [hplaced.size_eq]; omega), List.getElem?_eq_none]
    rw [List.length_flatten, hmap]
    omega

end TransitionMatrix
