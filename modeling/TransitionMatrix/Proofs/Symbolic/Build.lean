import TransitionMatrix.Proofs.Matrix.Rows
import TransitionMatrix.Proofs.Symbolic.Expansion
import TransitionMatrix.Symbolic.Build

/-!
# Matrices of a relation

The matrix of a relation stores the table that the relation is expanded into. Since no path leads to
a zero, no zero is stored, and every row reads back as it was put in, whatever the form of storage.
-/

namespace TransitionMatrix

/-- The variable that comes after `i` others. -/
def Variable.nth (i : Nat) : Variable := ⟨i + 1, i.succ_pos⟩

/-- None of the given weights is a zero. -/
def Nonzero (weight? : Nat → Nat → Nat → Option Binary64) : Prop :=
  ∀ src choice dst w, weight? src choice dst = some w → w.isZero = false

namespace Transition

theorem inRange_table (n numChoices : Nat) (weight? : Nat → Nat → Nat → Option Binary64) :
    Matrix.InRange n n ((table n numChoices weight?).map toEntry) := by
  intro entry hentry
  obtain ⟨t, ht, rfl⟩ := List.mem_map.1 hentry
  obtain ⟨⟨hsrc, _, hdst⟩, _⟩ := mem_table.1 ht
  exact ⟨hsrc, hdst⟩

theorem nonzero_table {n numChoices : Nat} {weight? : Nat → Nat → Nat → Option Binary64}
    (h : Nonzero weight?) :
    ∀ entry ∈ (table n numChoices weight?).map toEntry, entry.weight.isZero = false := by
  intro entry hentry
  obtain ⟨t, ht, rfl⟩ := List.mem_map.1 hentry
  exact h t.src t.choice t.dst t.weight (mem_table.1 ht).2

end Transition

namespace Encoding

variable {e : Encoding}

theorem nonzero_firstValue? (e : Encoding) (relation : Relation) :
    Nonzero (e.firstValue? relation) := by
  intro src choice dst w h
  obtain ⟨path, hpath, _, rfl⟩ := covers_of_firstValue? h
  exact relation.nonzero path hpath

/-- That choices are merged is reported, and has no bearing on the matrix. -/
theorem result_store (e : Encoding) (transitions : List Transition) :
    (e.store transitions).result =
      (Matrix.ofEntries e.states.size (transitions.map Transition.toEntry) e.options).result := by
  rw [store]
  split
  · rw [Traced.result_bind]
    rfl
  · rfl

theorem ofEntries_of_store {transitions : List Transition} {m : Matrix}
    (h : (e.store transitions).result = .ok m) :
    (Matrix.ofEntries e.states.size (transitions.map Transition.toEntry) e.options).result
      = .ok m := by
  rw [← result_store]
  exact h

/-- Matrices over the states can be stored: nothing but the entries may stand in the way. -/
structure Storable (e : Encoding) : Prop where
  check : e.check = .ok ()
  options : e.options.check = .ok ()
  size_le : e.states.size ≤ Matrix.maxStates
  size_lt : e.states.size < Reservation.limit
  rowEncoding : e.options.rowEncoding ≠ .counts

/-- There are no more sources, choices and destinations than numbers in an array that can be had. -/
def Roomy (e : Encoding) : Prop :=
  e.states.size * (2 ^ e.choiceWidth * e.states.size) < Reservation.limit

theorem Roomy.length_table_lt (h : e.Roomy) (weight? : Nat → Nat → Nat → Option Binary64) :
    (Transition.table e.states.size (2 ^ e.choiceWidth) weight?).length < Reservation.limit :=
  Nat.lt_of_le_of_lt Transition.length_table_le h

theorem exists_store (he : e.Storable) (hroomy : e.Roomy)
    (weight? : Nat → Nat → Nat → Option Binary64) :
    ∃ m, (e.store (Transition.table e.states.size (2 ^ e.choiceWidth) weight?)).result = .ok m := by
  obtain ⟨m, hm⟩ := Matrix.exists_rectangular he.options he.size_le he.size_lt
    (Transition.inRange_table e.states.size (2 ^ e.choiceWidth) weight?)
    (by rw [List.length_map]; exact hroomy.length_table_lt weight?) he.rowEncoding
  refine ⟨m, ?_⟩
  rw [result_store]
  exact hm

section Store

variable {numChoices : Nat} {weight? : Nat → Nat → Nat → Option Binary64} {m : Matrix}

/-- Each row has the cells of its choices, one choice after the other. -/
theorem row_of_store
    (h : (e.store (Transition.table e.states.size numChoices weight?)).result = .ok m)
    (hnonzero : Nonzero weight?) {src : Nat} (hsrc : src < e.states.size) :
    m.row src = .ok ((List.range numChoices).flatMap fun choice =>
      Cell.ofWeights e.states.size (weight? src choice)) := by
  have hm := Matrix.built_of_rectangular (ofEntries_of_store h)
  rw [hm.row_eq hsrc, Entry.storedRow_of_nonzero _ _ (Transition.nonzero_table hnonzero),
    Transition.rowOf_table hsrc]

/-- With a single choice, a row has the cells of that choice. -/
theorem row_of_store_one
    (h : (e.store (Transition.table e.states.size 1 weight?)).result = .ok m)
    (hnonzero : Nonzero weight?) {src : Nat} (hsrc : src < e.states.size) :
    m.row src = .ok (Cell.ofWeights e.states.size (weight? src 0)) := by
  rw [row_of_store h hnonzero hsrc, List.range_one, List.flatMap_singleton]

/-- The weight of a transition is found in the first of its choices. -/
theorem weight?_of_store
    (h : (e.store (Transition.table e.states.size numChoices weight?)).result = .ok m)
    (hnonzero : Nonzero weight?) {src : Nat} (hsrc : src < e.states.size) (dst : Nat) :
    m.weight? src dst = .ok ((((List.range numChoices).flatMap fun choice =>
      Cell.ofWeights e.states.size (weight? src choice)).find? fun c => c.dst == dst).map
        Cell.weight) := by
  have hm := Matrix.built_of_rectangular (ofEntries_of_store h)
  rw [hm.weight?_eq hsrc, Entry.storedRow_of_nonzero _ _ (Transition.nonzero_table hnonzero),
    Transition.rowOf_table hsrc]

theorem cell?_of_store
    (h : (e.store (Transition.table e.states.size numChoices weight?)).result = .ok m)
    (hnonzero : Nonzero weight?) {j : Nat} {c : Cell} (hc : m.storage.cell? j = some c) :
    c.weight.isZero = false := by
  have hm := Matrix.built_of_rectangular (ofEntries_of_store h)
  have hcells : ∀ c ∈ Entry.rowMajor e.states.size ((Transition.table e.states.size numChoices
      weight?).map Transition.toEntry), c.weight.isZero = false := by
    intro c hc
    obtain ⟨entry, hentry, rfl⟩ := Entry.mem_rowMajor hc
    exact Transition.nonzero_table hnonzero entry hentry
  rw [hm.stores.cell?_eq, ColumnStorage.readBack_of_nonzero _ hcells] at hc
  exact hcells c (List.mem_of_getElem? hc)

end Store

/-! ## Deterministic models -/

theorem table_of_matrix {relation : Relation} {m : Matrix}
    (h : (e.matrix relation).result = .ok m) :
    (e.store (Transition.table e.states.size (2 ^ e.choiceWidth)
      (e.firstValue? relation))).result = .ok m := by
  obtain ⟨ts, hts, h⟩ := Traced.result_bind_eq_ok_iff.1 h
  rw [← expand_eq hts]
  exact h

theorem exists_matrix {relation : Relation} (he : e.Storable) (hroomy : e.Roomy)
    (hknown : e.Known relation.paths) : ∃ m, (e.matrix relation).result = .ok m := by
  obtain ⟨ts, hts⟩ := exists_expandTo e.destinations he.check hknown
  obtain ⟨m, hm⟩ := exists_store he hroomy (e.firstValue? relation)
  rw [← expand_eq hts] at hm
  exact ⟨m, Traced.result_bind_eq_ok_iff.2 ⟨ts, hts, hm⟩⟩

/-- The states `00` and `10`. The low bit of a destination is carried by a variable that carries the
high bit of the source, too, and counts there only. -/
def twoStates (choices : Option VariableOrder) : Encoding where
  rows := ⟨[.nth 0, .nth 1]⟩
  cols := ⟨[.nth 2, .nth 0]⟩
  choices := choices
  states := ⟨2, #[0, 2], by decide, by decide, by decide⟩
  options := {}

/-- A contradictory path, a path from the second state, and a path that covers everything. -/
def overlapping : Relation where
  paths := [⟨[(Variable.nth 0).pos, (Variable.nth 0).neg], .one⟩,
    ⟨[(Variable.nth 0).pos], ⟨0x4000000000000000⟩⟩, ⟨[], .one⟩]
  nonzero := by decide

theorem storable_twoStates {choices : Option VariableOrder}
    (h : (twoStates choices).check = .ok ()) : (twoStates choices).Storable :=
  ⟨h, rfl, show 2 ≤ Matrix.maxStates by decide, show 2 < Reservation.limit by decide,
    fun hcounts => by cases hcounts⟩

theorem roomy_twoStates {choices : Option VariableOrder} (h : (twoStates choices).choiceWidth ≤ 1) :
    (twoStates choices).Roomy := by
  have hpow := Nat.pow_le_pow_right (show 0 < 2 by decide) h
  have hlimit : 2 * (2 ^ 1 * 2) < Reservation.limit := by decide
  have hle : 2 * (2 ^ (twoStates choices).choiceWidth * 2) ≤ 2 * (2 ^ 1 * 2) := by omega
  exact Nat.lt_of_le_of_lt hle hlimit

theorem known_overlapping : (twoStates none).Known overlapping.paths := by
  simp only [Known, overlapping, List.forall_mem_cons]
  exact ⟨⟨_, rfl⟩, ⟨_, rfl⟩, ⟨_, rfl⟩, by simp⟩

/-- Where no variable carries a choice, the matrix of a relation gives each transition the value of
the first path that covers it. Rows list the covered destinations in increasing order, and no zero
is stored. -/
theorem weights_of_matrix {relation : Relation} {m : Matrix} (hwidth : e.choiceWidth = 0)
    (h : (e.matrix relation).result = .ok m) :
    (∀ src dst, src < e.states.size → dst < e.states.size →
      m.weight? src dst = .ok (e.firstValue? relation src 0 dst)) ∧
    (∀ src, src < e.states.size → ∃ cells, m.row src = .ok cells ∧
      cells.Pairwise (fun a b => a.dst < b.dst) ∧
      ∀ c, c ∈ cells ↔ c.dst < e.states.size ∧
        e.firstValue? relation src 0 c.dst = some c.weight) ∧
    ∀ j c, m.storage.cell? j = some c → c.weight.isZero = false := by
  have hstore := table_of_matrix h
  rw [hwidth, Nat.pow_zero] at hstore
  have hnonzero := nonzero_firstValue? e relation
  refine ⟨fun src dst hsrc hdst => ?_, fun src hsrc => ?_, fun j c hc => ?_⟩
  · rw [weight?_of_store hstore hnonzero hsrc]
    simp [Cell.find?_ofWeights _ hdst]
  · exact ⟨Cell.ofWeights e.states.size (e.firstValue? relation src 0),
      row_of_store_one hstore hnonzero hsrc, Cell.pairwise_ofWeights _ _,
      fun c => Cell.mem_ofWeights⟩
  · exact cell?_of_store hstore hnonzero hc

theorem weights_of_overlapping : ∃ m, ((twoStates none).matrix overlapping).result = .ok m ∧
    m.weight? 0 1 = .ok (some .one) ∧ m.weight? 1 0 = .ok (some ⟨0x4000000000000000⟩) := by
  obtain ⟨m, hm⟩ := exists_matrix (storable_twoStates rfl) (roomy_twoStates (by decide)) known_overlapping
  obtain ⟨hweight, _, _⟩ := weights_of_matrix rfl hm
  refine ⟨m, hm, ?_, ?_⟩
  · rw [hweight 0 1 (by decide) (by decide)]
    decide
  · rw [hweight 1 0 (by decide) (by decide)]
    decide

end Encoding

end TransitionMatrix
