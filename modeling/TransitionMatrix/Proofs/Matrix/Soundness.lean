import TransitionMatrix.Proofs.Column.Soundness
import TransitionMatrix.Proofs.Matrix.Rows
import TransitionMatrix.Proofs.Row.Cover

/-!
# Sound matrices

The parts of a matrix are built one after another, each from the lengths or the cells of the rows.
That they fit together is an invariant of the matrix, and it is all that queries rely on: the
positions of a row that is there hold entries that lead to states.
-/

namespace TransitionMatrix

theorem RowExtents.numRows_of_ofLengths {lengths : List Nat} {encoding : RowEncoding}
    {extents : RowExtents} (h : (ofLengths lengths encoding).result = .ok extents) :
    extents.numRows = lengths.length := by
  obtain ⟨counts, _, rfl⟩ := eq_of_ofLengths h
  cases counts with
  | true => exact numRows_ofCounts lengths
  | false => exact numRows_ofStarts lengths

namespace Matrix

/-- The parts of the matrix fit together. -/
structure Sound (m : Matrix) : Prop where
  numRows_eq : m.extents.numRows = m.numRows
  /-- The boundaries are those of the stored lengths. -/
  spans_eq : m.spans = RowSpans.ofExtents m.extents
  /-- The rows cover the stored entries. -/
  covers : m.spans.Covers m.numRows m.nonZeros
  storage : m.storage.Sound m.numCols

/-- Queries on a row that is there look at entries that are there. -/
structure InBounds (m : Matrix) : Prop where
  span : ∀ row < m.numRows, m.spans.span? row = some (m.span row)
  cell : ∀ row < m.numRows, ∀ j ∈ (m.span row).positions, ∃ c, m.storage.cell? j = some c ∧
    m.storage.destination? j = some c.dst ∧ c.dst < m.numCols

theorem Sound.inBounds {m : Matrix} (h : m.Sound) : m.InBounds := by
  have hspan : ∀ row < m.numRows, m.spans.span? row = some (m.span row) := by
    intro row hrow
    obtain ⟨s, hs⟩ := h.covers.exists_span? hrow
    rw [span, hs, Option.getD_some]
  refine ⟨hspan, fun row hrow j hj => ?_⟩
  have hend := h.covers.hi_le_total (hspan row hrow)
  obtain ⟨_, hlt⟩ := Span.mem_positions.1 hj
  exact h.storage.exists_cell? (Nat.lt_of_lt_of_le hlt hend)

theorem Built.sound {m : Matrix} {numRows numCols : Nat} {entries : List Entry} {options : Options}
    (hm : m.Built numRows numCols entries options) : m.Sound := by
  have hlength : (rowLengths numRows entries).length = numRows := by
    rw [rowLengths, List.length_map, List.length_range]
  have hcovers := RowSpans.covers_ofLengths (rowLengths numRows entries)
  rw [← hm.spans_eq, hlength, rowLengths_sum hm.inRange, ← hm.nonZeros_eq, ← hm.numRows_eq] at hcovers
  refine ⟨?_, hm.spans, hcovers, ?_⟩
  · rw [RowExtents.numRows_of_ofLengths hm.extents, hlength, hm.numRows_eq]
  · rw [hm.numCols_eq]
    refine ColumnStorage.sound_of_ofCells hm.storage ?_ ?_
    · have hmax := hm.numCols_le
      unfold maxStates at hmax
      omega
    · intro c hc
      obtain ⟨e, he, rfl⟩ := Entry.mem_rowMajor hc
      exact (hm.inRange e he).2

end Matrix

end TransitionMatrix
