import TransitionMatrix.Proofs.ChoiceMatrix.Rebuilding
import TransitionMatrix.Proofs.Export.Listings

/-!
# Exported matrices with choices

The lines of a matrix with choices name the choice within its state, and end with the label of the
choice if there is one: a line has one field more then. They are written through queries. If the
numbers of choices add up to a word, no query fails, and as long as no choice is without entries the
text determines every answer of the matrix.
-/

namespace TransitionMatrix

namespace Export

/-! ## What is written -/

/-- The call writes the given lines, whatever is there, and comes to the given end. -/
def Writes (u : Update (List (List String)) Unit) (lines : List (List String))
    (outcome : Except Error Unit) : Prop :=
  ∀ earlier, u.outcome earlier = outcome ∧ u.after earlier = earlier ++ lines

theorem writes_write (lines : List (List String)) : Writes (write lines) lines (.ok ()) :=
  fun _ => ⟨rfl, rfl⟩

section Steps

variable {u : Update (List (List String)) Unit} {lines later : List (List String)}
  {outcome : Except Error Unit}

theorem Writes.andThen (hu : Writes u lines (.ok ())) {v : Unit → Update (List (List String)) Unit}
    (hv : Writes (v ()) later outcome) : Writes (u >>= v) (lines ++ later) outcome := by
  intro earlier
  obtain ⟨houtcome, hafter⟩ := hu earlier
  obtain ⟨houtcome', hafter'⟩ := hv (earlier ++ lines)
  rw [Update.outcome_bind_ok houtcome, Update.after_bind_ok houtcome, hafter, ← List.append_assoc]
  exact ⟨houtcome', hafter'⟩

/-- What fails ends the listing. -/
theorem Writes.stop {err : Error} (hu : Writes u lines (.error err))
    (v : Unit → Update (List (List String)) Unit) : Writes (u >>= v) lines (.error err) := by
  intro earlier
  obtain ⟨houtcome, hafter⟩ := hu earlier
  exact ⟨Update.outcome_bind_error houtcome, (Update.after_bind_error houtcome).trans hafter⟩

/-- A query writes nothing. -/
theorem writes_of_query {α : Type} {query : Except Error α} {a : α} (h : query = .ok a)
    {f : α → Update (List (List String)) Unit} (hf : Writes (f a) lines outcome) :
    Writes ((liftM query : Update (List (List String)) α) >>= f) lines outcome := by
  intro earlier
  have hquery : (liftM query : Update (List (List String)) α).outcome earlier = .ok a := h
  rw [Update.outcome_bind_ok hquery, Update.after_bind_ok hquery]
  exact hf earlier

theorem writes_of_query_error {α : Type} {query : Except Error α} {err : Error}
    (h : query = .error err) (f : α → Update (List (List String)) Unit) :
    Writes ((liftM query : Update (List (List String)) α) >>= f) [] (.error err) := by
  intro earlier
  have hquery : (liftM query : Update (List (List String)) α).outcome earlier = .error err := h
  rw [Update.outcome_bind_error hquery, Update.after_bind_error hquery, List.append_nil]
  exact ⟨rfl, rfl⟩

end Steps

/-- Where something is written for each number, it is written for one after the other. -/
theorem writes_forFrom {f : Nat → Update (List (List String)) Unit}
    {lines : Nat → List (List String)} {start count : Nat}
    (h : ∀ i, start ≤ i → i < start + count → Writes (f i) (lines i) (.ok ())) :
    Writes (Update.forFrom f start count) ((List.range' start count).flatMap lines) (.ok ()) := by
  induction count generalizing start with
  | zero => exact fun earlier => ⟨rfl, (List.append_nil earlier).symm⟩
  | succ count ih =>
    rw [List.range'_succ, List.flatMap_cons]
    refine (h start (le_refl _) (by omega)).andThen (ih fun i hle hlt => ?_)
    exact h i (by omega) (by omega)

end Export

/-- The fields of the line of an entry, whose choice may have a label. -/
def ChoiceEntry.fields (x : ChoiceEntry × Option Nat) : List String :=
  [toString x.1.state, toString x.1.choice, toString x.1.dst, x.1.weight.text] ++
    (x.2.map toString).toList

/-- Reads the line of an entry. -/
def ChoiceEntry.read (readWeight : String → Option Binary64) :
    List String → Option (ChoiceEntry × Option Nat)
  | [state, choice, dst, weight] => do
    return (⟨← state.toNat?, ← choice.toNat?, ← dst.toNat?, ← readWeight weight⟩, none)
  | [state, choice, dst, weight, label] => do
    return (⟨← state.toNat?, ← choice.toNat?, ← dst.toNat?, ← readWeight weight⟩,
      some (← label.toNat?))
  | _ => none

theorem ChoiceEntry.read_fields {readWeight : String → Option Binary64}
    {x : ChoiceEntry × Option Nat} (h : readWeight x.1.weight.text = some x.1.weight) :
    ChoiceEntry.read readWeight (fields x) = some x := by
  obtain ⟨⟨state, choice, dst, weight⟩, label⟩ := x
  dsimp only at h
  cases label with
  | none =>
    show ChoiceEntry.read readWeight [toString state, toString choice, toString dst, weight.text] = _
    simp only [ChoiceEntry.read, Export.toNat?_toString, h]
    rfl
  | some a =>
    show ChoiceEntry.read readWeight
      [toString state, toString choice, toString dst, weight.text, toString a] = _
    simp only [ChoiceEntry.read, Export.toNat?_toString, h]
    rfl

theorem ChoiceEntry.plain_fields (x : ChoiceEntry × Option Nat) :
    ∀ s ∈ fields x, Export.Plain s := by
  intro s hs
  rcases List.mem_append.1 hs with hmem | hmem
  · simp only [List.mem_cons, List.not_mem_nil, or_false] at hmem
    rcases hmem with rfl | rfl | rfl | rfl
    · exact Export.plain_toString _
    · exact Export.plain_toString _
    · exact Export.plain_toString _
    · exact Binary64.plain_text _
  · obtain ⟨a, _, rfl⟩ := Option.map_eq_some_iff.1 (Option.mem_toList.1 hmem)
    exact Export.plain_toString a

namespace ChoiceMatrix

/-- The numbers of states, choices and entries. -/
def sizeFields (m : ChoiceMatrix) : List String :=
  [toString m.numStates, toString m.numChoiceRows, toString m.nonZeros]

/-- Reads the numbers of states, choices and entries. -/
def readSizes : List String → Option ((Nat × Nat) × Nat)
  | [numStates, numChoiceRows, nonZeros] => do
    return ((← numStates.toNat?, ← numChoiceRows.toNat?), ← nonZeros.toNat?)
  | _ => none

theorem readSizes_sizeFields (m : ChoiceMatrix) :
    readSizes m.sizeFields = some ((m.numStates, m.numChoiceRows), m.nonZeros) := by
  simp only [sizeFields, readSizes, Export.toNat?_toString]
  rfl

/-- Reads the sizes, entries and labels of the matrices in a text. -/
def readText (readWeight : String → Option Binary64) (text : String) :
    Option (List ((Nat × Nat) × List (ChoiceEntry × Option Nat))) :=
  Export.readBlocks readSizes (ChoiceEntry.read readWeight) (Export.readFields text)

/-- The lines of a matrix: one with its sizes, and one for each entry that it lists. -/
def lines (m : ChoiceMatrix) : List (List String) :=
  m.sizeFields :: m.listed.map ChoiceEntry.fields

theorem plain_lines (m : ChoiceMatrix) :
    ∀ fields ∈ m.lines, fields ≠ [] ∧ ∀ s ∈ fields, Export.Plain s := by
  intro fields hfields
  rw [lines, List.mem_cons, List.mem_map] at hfields
  rcases hfields with rfl | ⟨x, _, rfl⟩
  · refine ⟨List.cons_ne_nil _ _, ?_⟩
    simp only [sizeFields, List.forall_mem_cons]
    exact ⟨Export.plain_toString _, Export.plain_toString _, Export.plain_toString _, by simp⟩
  · exact ⟨List.cons_ne_nil _ _, ChoiceEntry.plain_fields x⟩

/-- The text of a matrix whose header announces as many entries as it lists is read back. -/
theorem readText_text {m : ChoiceMatrix} (hlength : m.listed.length = m.nonZeros)
    {readWeight : String → Option Binary64} (hread : m.choices.Readable readWeight) :
    readText readWeight (Export.text m.lines)
      = some [((m.numStates, m.numChoiceRows), m.listed)] := by
  have hlines : (m.listed.map ChoiceEntry.fields).map (ChoiceEntry.read readWeight)
      = m.listed.map some := by
    rw [List.map_map]
    refine List.map_congr_left fun x hx => ChoiceEntry.read_fields ?_
    obtain ⟨_, _, hc, _⟩ := mem_listed.1 hx
    exact hread.of_mem_cells hc
  have hheader : readSizes m.sizeFields
      = some ((m.numStates, m.numChoiceRows), m.listed.length) := by
    rw [readSizes_sizeFields, hlength]
  have hblock := Export.readBlocks_append readSizes (ChoiceEntry.read readWeight) hheader hlines []
  rw [List.append_nil, Export.readBlocks, Option.map_some] at hblock
  rw [readText, Export.readFields_text (fun fields h => (m.plain_lines fields h).1)
    fun fields h => (m.plain_lines fields h).2, lines, hblock]

/-! ## Writing the lines -/

/-- The entries of a choice are written with its label. -/
theorem writes_writeChoice {m : ChoiceMatrix} {state choice : Nat} {label : Option Nat}
    {cells : List Cell} (hlabel : m.choiceLabel state choice = .ok label)
    (hcells : m.choice state choice = .ok cells) :
    Export.Writes (m.writeChoice state choice) (cells.map (entryFields state choice label)) (.ok ()) :=
  Export.writes_of_query hlabel (Export.writes_of_query hcells (Export.writes_write _))

/-- The choices of a state are written one after another. -/
theorem writes_writeState {m : ChoiceMatrix} {state count : Nat}
    (hcount : m.numChoices state = .ok count) {fields : Nat → List (List String)}
    (h : ∀ choice < count, Export.Writes (m.writeChoice state choice) (fields choice) (.ok ())) :
    Export.Writes (m.writeState state) ((List.range count).flatMap fields) (.ok ()) := by
  rw [List.range_eq_range']
  exact Export.writes_of_query hcount
    (Export.writes_forFrom fun choice _ hlt => h choice (by omega))

theorem Grouped.writes_writeChoice {m : ChoiceMatrix} {numChoices : List Nat}
    (hm : m.Grouped numChoices) (hlabels : m.LabelsFit) {state choice : Nat}
    (hstate : state < numChoices.length) (hchoice : choice < numChoices[state]) :
    Export.Writes (m.writeChoice state choice)
      ((m.choices.cells ((m.group state).lo + choice)).map
        (entryFields state choice (m.label? ((m.group state).lo + choice)))) (.ok ()) := by
  have hrow := hm.choiceRow_eq hstate hchoice
  have hlt := hm.lt_numChoiceRows hrow
  have hlabel : m.choiceLabel state choice
      = .ok (m.label? (RowSpans.offset numChoices state + choice)) := by
    rw [choiceLabel, hrow]
    exact hlabels.rowLabel_eq hlt
  have hcells : m.choice state choice
      = .ok (m.choices.cells (RowSpans.offset numChoices state + choice)) := by
    rw [ChoiceMatrix.choice, hrow]
    exact Matrix.row_of_lt hlt
  rw [hm.group_eq hstate]
  exact ChoiceMatrix.writes_writeChoice hlabel hcells

/-- All lines are written, whatever is there. -/
theorem Grouped.writes_write {m : ChoiceMatrix} {numChoices : List Nat} (hm : m.Grouped numChoices)
    (hlabels : m.LabelsFit) : Export.Writes m.write m.lines (.ok ()) := by
  have hlines : m.lines = [m.sizeFields] ++ (List.range' 0 m.numStates).flatMap fun state =>
      (List.range (m.group state).length).flatMap fun choice =>
        (m.choices.cells ((m.group state).lo + choice)).map
          (entryFields state choice (m.label? ((m.group state).lo + choice))) := by
    rw [lines, listed, List.map_flatMap, ← List.range_eq_range']
    simp only [List.map_flatMap, List.map_map]
    rfl
  rw [hlines]
  refine (Export.writes_write _).andThen (Export.writes_forFrom fun state _ hlt => ?_)
  have hstate : state < numChoices.length := by
    rw [hm.numStates_eq] at hlt
    omega
  rw [hm.length_group hstate]
  exact writes_writeState (hm.numChoices_eq hstate) fun choice hchoice =>
    hm.writes_writeChoice hlabels hstate hchoice

/-! ## Matrices without empty choices -/

theorem full_of_choiceMatrix {e : Encoding} {relation : Relation} {m : ChoiceMatrix}
    (h : (e.choiceMatrix relation).result = .ok m) : m.Full := by
  intro row hrow hnil
  have hstore := Encoding.table_of_choiceMatrix h
  obtain ⟨src, number, choice, hsrc, hchoice, heq⟩ :=
    Encoding.exists_choice_of_storeChoices hstore hrow
  rw [Encoding.choice_of_storeChoices hstore (Encoding.nonzero_firstValue? e relation) hsrc hchoice,
    Matrix.row_of_lt hrow] at heq
  have hcells : Cell.ofWeights e.states.size (e.firstValue? relation src choice)
      = m.choices.cells row := Except.ok.inj heq
  obtain ⟨_, dst, hdst, w, hw⟩ := ChoiceNumbering.mem_used.1 (List.mem_of_getElem? hchoice)
  have hmem : ⟨dst, w⟩ ∈ Cell.ofWeights e.states.size (e.firstValue? relation src choice) :=
    Cell.mem_ofWeights.2 ⟨hdst, hw⟩
  rw [hcells, hnil] at hmem
  cases hmem

/-- The choices of a relation are no more than its transitions, which are counted in a word. -/
theorem choiceCounts_lt_of_choiceMatrix {e : Encoding} {relation : Relation} {m : ChoiceMatrix}
    (h : (e.choiceMatrix relation).result = .ok m) : m.choiceCounts.sum < Word.size := by
  have hm := (Encoding.built_of_storeChoices (Encoding.table_of_choiceMatrix h)).grouped
  rw [hm.choiceCounts_eq]
  exact hm.sum_lt

theorem BuiltWith.exists_labelledWith {fresh : ChoiceMatrix} {options : Options}
    (h : fresh.BuiltWith options) (hfit : fresh.choiceCounts.sum < Word.size)
    (calls : List LabelCall) :
    ({ fresh.afterAll calls with labels := none } : ChoiceMatrix) = fresh ∧
      ∃ numChoices entries, (fresh.afterAll calls).LabelledWith numChoices entries options := by
  obtain ⟨_, _, hassembled, _⟩ := h.exists_assembled
  obtain ⟨numChoices, entries, hm⟩ := h.exists_built hfit
  obtain ⟨labels, heq⟩ := fresh.exists_afterAll calls
  have hfresh : ({ fresh.afterAll calls with labels := none } : ChoiceMatrix) = fresh := by
    rw [heq, ← hm.labels_eq]
  refine ⟨hfresh, numChoices, entries, ?_, (hassembled.sound.afterAll calls).labels⟩
  rw [hfresh]
  exact hm

end ChoiceMatrix

end TransitionMatrix
