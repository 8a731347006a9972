import TransitionMatrix.Matrix.Build
import TransitionMatrix.Proofs.Row.Order

/-!
# Every place that is looked at is there

Entries are counted, put in order and gathered by looking up places of arrays: by row, by cursor and
by the number of an entry. The passes of this file are the same ones, except that each of them ends
without a result as soon as a place is not there. For entries of rows that are there they come to the
end, and so no place is missing on the way.
-/

namespace TransitionMatrix

/-! ## Counting -/

/-- One more entry of a row that is there. -/
def countRow? (lengths : Array Nat) (row : Nat) : Option (Array Nat) :=
  if row < lengths.size then some (lengths.modify row (· + 1)) else none

def countRows? (numRows : Nat) (rows : List Nat) : Option (Array Nat) :=
  rows.foldlM countRow? (Array.replicate numRows 0)

theorem foldlM_countRow? {rows : List Nat} {lengths : Array Nat}
    (h : ∀ row ∈ rows, row < lengths.size) : rows.foldlM countRow? lengths
      = some (rows.foldl (fun lengths row => lengths.modify row (· + 1)) lengths) := by
  induction rows generalizing lengths with
  | nil => rfl
  | cons row rest ih =>
    have hrow : countRow? lengths row = some (lengths.modify row (· + 1)) :=
      if_pos (h row List.mem_cons_self)
    rw [List.foldlM_cons, hrow, List.foldl_cons]
    -- counting an entry adds no row and takes none away
    refine ih fun other hother => ?_
    rw [Array.size_modify]
    exact h other (List.mem_cons_of_mem _ hother)

theorem countRows?_eq {numRows : Nat} {rows : List Nat} (h : ∀ row ∈ rows, row < numRows) :
    countRows? numRows rows = some (countRows numRows rows) := by
  refine foldlM_countRow? fun row hrow => ?_
  rw [Array.size_replicate]
  exact h row hrow

/-! ## Placing -/

namespace RowCursors

variable {lengths : List Nat} {placed : List (Nat × Nat)} {c : RowCursors}

/-- Puts an entry in the next place of its row, if the row and the place are there. -/
def place? (c : RowCursors) (row entry : Nat) : Option RowCursors := do
  let position ← c.next[row]?
  if position < c.order.size then some (c.place row entry) else none

theorem Placed.place?_eq (h : Placed lengths placed c) {row : Nat} (hrow : row < lengths.length)
    (hlt : (entriesOf row placed).length < lengths[row]) (entry : Nat) :
    c.place? row entry = some (c.place row entry) := by
  have hplace : RowSpans.offset lengths row + (entriesOf row placed).length < c.order.size := by
    rw [h.size_eq]
    exact RowSpans.offset_add_lt_sum hrow hlt
  rw [place?, h.next_eq row hrow]
  exact if_pos hplace

/-- There is a place for each entry that the rows have room for. -/
theorem foldlM_place? (hrows : ∀ p ∈ placed, p.1 < lengths.length) (hroom : Room lengths placed) :
    placed.foldlM (fun cursors (row, entry) => RowCursors.place? cursors row entry)
        (start lengths lengths.sum)
      = some (placed.foldl (fun cursors (row, entry) => RowCursors.place cursors row entry)
        (start lengths lengths.sum)) := by
  induction placed using List.reverseRecOn with
  | nil => rfl
  | append_singleton placed p ih =>
    have hrow : p.1 < lengths.length := hrows p (by simp)
    have hbefore : ∀ q ∈ placed, q.1 < lengths.length := fun q hq =>
      hrows q (List.mem_append_left _ hq)
    have hlt := hroom p.1 hrow
    rw [entriesOf_concat, if_pos rfl, List.length_append, List.length_singleton] at hlt
    rw [List.foldlM_append, ih hbefore hroom.of_concat, List.foldl_append]
    have hplaced := placed_foldl hbefore hroom.of_concat
    show (RowCursors.place? _ p.1 p.2 >>= pure) = _
    rw [bind_pure, hplaced.place?_eq hrow hlt]
    rfl

end RowCursors

/-- The numbers of entries of the given rows, row by row, if there is a place for each of them. -/
def rowOrder? (lengths rows : List Nat) : Option (Array Nat) :=
  (rows.zipIdx.foldlM (fun cursors (row, entry) => RowCursors.place? cursors row entry)
    (RowCursors.start lengths rows.length)).map RowCursors.order

section RowOrder

variable {lengths rows : List Nat} (hrows : ∀ row ∈ rows, row < lengths.length)
  (hlengths : ∀ row (h : row < lengths.length), lengths[row] = rows.count row)
  (hsum : lengths.sum = rows.length)

include hrows hlengths hsum

theorem rowOrder?_eq : rowOrder? lengths rows = some (rowOrder lengths rows) := by
  have hroom : RowCursors.Room lengths rows.zipIdx := by
    intro row hrow
    rw [length_entriesOf_zipIdx, hlengths row hrow]
  have hplaces := RowCursors.foldlM_place?
    (fun p hp => hrows p.1 (List.fst_mem_of_mem_zipIdx hp)) hroom
  rw [rowOrder?, ← hsum, hplaces, Option.map_some, rowOrder, hsum]

/-- The places hold numbers of entries that there are. -/
theorem lt_of_mem_rowOrder {i : Nat} (hi : i ∈ (rowOrder lengths rows).toList) : i < rows.length := by
  rw [toList_rowOrder hrows hlengths hsum] at hi
  obtain ⟨row, hrow, hi⟩ := List.mem_flatten.1 hi
  obtain ⟨src, _, rfl⟩ := List.mem_map.1 hrow
  obtain ⟨⟨other, j⟩, hp, hj⟩ := List.mem_filterMap.1 hi
  split at hj
  · cases hj
    have hlt := List.snd_lt_add_of_mem_zipIdx hp
    omega
  · cases hj

end RowOrder

/-! ## Gathering -/

/-- Where every element has a value, the values are those that are found. -/
theorem mapM_eq_filterMap {α β : Type} {f : α → Option β} {as : List α}
    (h : ∀ a ∈ as, ∃ b, f a = some b) : as.mapM f = some (as.filterMap f) := by
  induction as with
  | nil => rfl
  | cons a rest ih =>
    obtain ⟨b, hb⟩ := h a List.mem_cons_self
    have hrest := ih fun other hother => h other (List.mem_cons_of_mem _ hother)
    rw [List.mapM_cons, hb, hrest, List.filterMap_cons_some hb]
    rfl

/-- The cells of entries in the given order, if each number is that of an entry. -/
def Entry.inOrder? (entries : Array Entry) (order : Array Nat) : Option (List Cell) :=
  order.toList.mapM fun i => entries[i]?.map Entry.cell

theorem Entry.inOrder?_eq {entries : Array Entry} {order : Array Nat}
    (h : ∀ i ∈ order.toList, i < entries.size) :
    inOrder? entries order = some (inOrder entries order) := by
  refine mapM_eq_filterMap fun i hi => ?_
  rw [Array.getElem?_eq_getElem (h i hi)]
  exact ⟨_, rfl⟩

end TransitionMatrix
