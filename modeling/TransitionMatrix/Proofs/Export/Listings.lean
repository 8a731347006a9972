import TransitionMatrix.Proofs.Export.Text
import TransitionMatrix.Proofs.Matrix.Rebuilding
import TransitionMatrix.Proofs.Symbolic.Origins

/-!
# Exported matrices

The text of matrices that are exported one after another says what each of them holds. The header of
a matrix announces as many lines as its rows have entries, rows without entries leave no line, and
the entries that are read are those of the rows, in order. A reader of weights is taken for granted:
all that is asked of it is that it reads back the weights that are stored.
-/

namespace TransitionMatrix

/-- Reads the weights of a list. -/
def Export.readAmong (weights : List Binary64) (s : String) : Option Binary64 :=
  weights.find? fun w => w.text == s

/-- The fields of the line of an entry. -/
def Entry.fields (e : Entry) : List String := [toString e.src, toString e.dst, e.weight.text]

/-- Reads the line of an entry. -/
def Entry.read (readWeight : String → Option Binary64) : List String → Option Entry
  | [src, dst, weight] => do return ⟨← src.toNat?, ← dst.toNat?, ← readWeight weight⟩
  | _ => none

theorem Entry.read_fields {readWeight : String → Option Binary64} {e : Entry}
    (h : readWeight e.weight.text = some e.weight) : Entry.read readWeight e.fields = some e := by
  rw [fields, Entry.read, Export.toNat?_toString, Export.toNat?_toString, h]
  rfl

namespace Matrix

/-- The number of rows and the number of entries. -/
def sizeFields (m : Matrix) : List String := [toString m.numRows, toString m.nonZeros]

/-- Reads the number of rows and the number of entries. -/
def readSizes : List String → Option (Nat × Nat)
  | [numRows, nonZeros] => do return (← numRows.toNat?, ← nonZeros.toNat?)
  | _ => none

theorem readSizes_sizeFields (m : Matrix) : readSizes m.sizeFields = some (m.numRows, m.nonZeros) := by
  rw [sizeFields, readSizes, Export.toNat?_toString, Export.toNat?_toString]
  rfl

/-- Reads the numbers of rows and the entries of the matrices in a text. -/
def readText (readWeight : String → Option Binary64) (text : String) :
    Option (List (Nat × List Entry)) :=
  Export.readBlocks readSizes (Entry.read readWeight) (Export.readFields text)

/-- There is a line for each entry that the matrix lists. -/
theorem exportFields_eq (m : Matrix) :
    m.exportFields = m.sizeFields :: m.listed.map Entry.fields := by
  rw [exportFields, listed, List.map_flatMap]
  simp only [List.map_map]
  rfl

theorem plain_exportFields (m : Matrix) :
    ∀ fields ∈ m.exportFields, fields ≠ [] ∧ ∀ s ∈ fields, Export.Plain s := by
  intro fields hfields
  rw [exportFields_eq, List.mem_cons, List.mem_map] at hfields
  rcases hfields with rfl | ⟨e, _, rfl⟩
  · refine ⟨List.cons_ne_nil _ _, ?_⟩
    simp only [sizeFields, List.forall_mem_cons]
    exact ⟨Export.plain_toString _, Export.plain_toString _, by simp⟩
  · refine ⟨List.cons_ne_nil _ _, ?_⟩
    simp only [Entry.fields, List.forall_mem_cons]
    exact ⟨Export.plain_toString _, Export.plain_toString _, Binary64.plain_text _, by simp⟩

/-- What is read of the stored weights. -/
def Readable (m : Matrix) (readWeight : String → Option Binary64) : Prop :=
  ∀ j c, m.storage.cell? j = some c → readWeight c.weight.text = some c.weight

theorem Readable.of_mem_cells {m : Matrix} {readWeight : String → Option Binary64}
    (h : m.Readable readWeight) {row : Nat} {c : Cell} (hc : c ∈ m.cells row) :
    readWeight c.weight.text = some c.weight := by
  obtain ⟨j, _, hj⟩ := List.mem_filterMap.1 hc
  exact h j c hj

theorem read_listed {m : Matrix} {readWeight : String → Option Binary64}
    (h : m.Readable readWeight) :
    (m.listed.map Entry.fields).map (Entry.read readWeight) = m.listed.map some := by
  rw [List.map_map]
  refine List.map_congr_left fun e he => Entry.read_fields ?_
  obtain ⟨_, hc⟩ := mem_listed.1 he
  exact h.of_mem_cells hc

/-- Every weight that is stored has come with an entry. -/
theorem Built.readable {m : Matrix} {numRows numCols : Nat} {entries : List Entry} {options : Options}
    (hm : m.Built numRows numCols entries options) {readWeight : String → Option Binary64}
    (h : ∀ e ∈ entries, readWeight e.weight.text = some e.weight) : m.Readable readWeight := by
  have hcells : ∀ c ∈ Entry.rowMajor numRows entries,
      readWeight c.weight.text = some c.weight := by
    intro c hc
    obtain ⟨e, he, rfl⟩ := Entry.mem_rowMajor hc
    exact h e he
  intro j c hc
  rw [hm.stores.cell?_eq] at hc
  have hmem := List.mem_of_getElem? hc
  unfold ColumnStorage.readBack at hmem
  split at hmem
  · obtain ⟨c, hsource, rfl⟩ := List.mem_map.1 hmem
    -- the zero that is given back is the weight of some cell, too
    have hweight := List.mem_of_find?_eq_some (Cell.find?_key hsource)
    obtain ⟨c', hc', heq⟩ := List.mem_map.1 hweight
    rw [← heq]
    exact hcells c' hc'
  · exact hcells c hmem

theorem BuiltWith.exists_built {m : Matrix} {options : Options} (h : m.BuiltWith options) :
    ∃ entries, m.Built m.numRows m.numRows entries options := by
  obtain ⟨n, entries, h⟩ := h.exists_ofEntries
  have hm := built_of_rectangular h
  rw [hm.numRows_eq]
  exact ⟨entries, hm⟩

/-- The text of matrices whose headers announce as many entries as they list is read back. -/
theorem readText_text {ms : List Matrix} (hlength : ∀ m ∈ ms, m.listed.length = m.nonZeros)
    {readWeight : String → Option Binary64} (hread : ∀ m ∈ ms, m.Readable readWeight) :
    readText readWeight (Export.text (ms.flatMap exportFields))
      = some (ms.map fun m => (m.numRows, m.listed)) := by
  have hplain : ∀ fields ∈ ms.flatMap exportFields,
      fields ≠ [] ∧ ∀ s ∈ fields, Export.Plain s := by
    intro fields hfields
    obtain ⟨m, _, hmem⟩ := List.mem_flatMap.1 hfields
    exact m.plain_exportFields fields hmem
  have hblocks : ms.flatMap exportFields
      = ms.flatMap fun m => m.sizeFields :: m.listed.map Entry.fields :=
    List.flatMap_congr fun m _ => m.exportFields_eq
  rw [readText, Export.readFields_text (fun fields h => (hplain fields h).1)
    fun fields h => (hplain fields h).2, hblocks]
  refine Export.readBlocks_flatMap readSizes _ (fun m hm => ?_) fun m hm => read_listed (hread m hm)
  rw [readSizes_sizeFields, hlength m hm]

end Matrix

end TransitionMatrix
