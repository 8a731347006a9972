import TransitionMatrix.Proofs.Symbolic.Build

/-!
# Weights of paths

The weight of a path is the product of the weights of its steps, from left to right. Only the first
state of a path can be reported as missing: a step that is found leads to a state, because
destinations were checked when the matrix was built, and behind a step that is not found nothing is
looked at any more.
-/

namespace TransitionMatrix

namespace Matrix

variable {m : Matrix} {numRows numCols : Nat} {entries : List Entry} {options : Options}

/-- The weight of the first stored entry from one state to another. A state that is not there has no
entries. -/
def firstWeight? (m : Matrix) (src dst : Nat) : Option Binary64 :=
  ((m.cells src).find? fun c => c.dst == dst).map Cell.weight

/-- What the steps of a path weigh, as far as they are there. -/
def stepWeights (m : Matrix) (path : List Nat) : List (Option Binary64) :=
  List.zipWith m.firstWeight? path path.tail

theorem stepWeights_cons_cons (m : Matrix) (src dst : Nat) (rest : List Nat) :
    m.stepWeights (src :: dst :: rest) = m.firstWeight? src dst :: m.stepWeights (dst :: rest) := rfl

/-! ## One step -/

theorem weight?_of_lt {src : Nat} (hsrc : src < m.numRows) (dst : Nat) :
    m.weight? src dst = .ok (m.firstWeight? src dst) := by
  rw [weight?, checkRow, if_pos hsrc]
  rfl

theorem stepsFrom_of_some {src dst : Nat} {w : Binary64} (hsrc : src < m.numRows)
    (hstep : m.firstWeight? src dst = some w) (acc : Binary64) (rest : List Nat) :
    m.stepsFrom acc (src :: dst :: rest) = m.stepsFrom (acc.mul w) (dst :: rest) := by
  rw [stepsFrom, weight?_of_lt hsrc, hstep]
  rfl

theorem stepsFrom_of_none {src dst : Nat} (hsrc : src < m.numRows)
    (hstep : m.firstWeight? src dst = none) (acc : Binary64) (rest : List Nat) :
    m.stepsFrom acc (src :: dst :: rest) = .ok .zero := by
  rw [stepsFrom, weight?_of_lt hsrc, hstep]
  rfl

/-- A step that is found leads to a state. -/
theorem Built.lt_of_firstWeight? (hm : m.Built numRows numCols entries options) {src dst : Nat}
    {w : Binary64} (hsrc : src < numRows) (hstep : m.firstWeight? src dst = some w) :
    dst < numCols := by
  obtain ⟨c, hc, _⟩ := Option.map_eq_some_iff.1 hstep
  have hdst : c.dst = dst := by simpa using List.find?_some hc
  have hmem := List.mem_map_of_mem (f := Cell.dst) (List.mem_of_find?_eq_some hc)
  rw [hm.cells_eq hsrc, Entry.map_dst_storedRow] at hmem
  obtain ⟨c', hc', heq⟩ := List.mem_map.1 hmem
  obtain ⟨e, he, _, rfl⟩ := Entry.mem_rowOf.1 hc'
  have hlt := (hm.inRange e he).2
  have hcell : e.dst = c.dst := heq
  omega

/-! ## Whole paths -/

/-- Something is missing among options, or all of them are there. -/
theorem none_mem_or_eq_map_some {α : Type} (os : List (Option α)) :
    none ∈ os ∨ ∃ ws : List α, os = ws.map some := by
  induction os with
  | nil => exact Or.inr ⟨[], rfl⟩
  | cons o rest ih =>
    cases o with
    | none => exact Or.inl List.mem_cons_self
    | some w =>
      rcases ih with hmissing | ⟨ws, rfl⟩
      · exact Or.inl (List.mem_cons_of_mem _ hmissing)
      · exact Or.inr ⟨w :: ws, rfl⟩

section Built

variable {n : Nat} (hm : m.Built n n entries options)

include hm

/-- If all steps are there, their weights are multiplied one after another. -/
theorem Built.stepsFrom_of_weights {path : List Nat} {ws : List Binary64} (acc : Binary64)
    (hfirst : ∀ first ∈ path.head?, first < n) (hws : m.stepWeights path = ws.map some) :
    m.stepsFrom acc path = .ok (ws.foldl Binary64.mul acc) := by
  induction path generalizing acc ws with
  | nil =>
    obtain rfl : ws = [] := List.map_eq_nil_iff.1 hws.symm
    rfl
  | cons src rest ih =>
    have hsrc : src < n := hfirst src rfl
    cases rest with
    | nil =>
      obtain rfl : ws = [] := List.map_eq_nil_iff.1 hws.symm
      rfl
    | cons dst rest =>
      rw [stepWeights_cons_cons] at hws
      obtain ⟨w, ws, rfl, hstep, hrest⟩ := List.map_eq_cons_iff.1 hws.symm
      have hdst : dst < n := hm.lt_of_firstWeight? hsrc hstep.symm
      rw [stepsFrom_of_some (hm.numRows_eq ▸ hsrc) hstep.symm, List.foldl_cons]
      refine ih (acc.mul w) ?_ hrest.symm
      rintro first ⟨⟩
      exact hdst

/-- If a step is not there, it does not matter what comes before it or after it. -/
theorem Built.stepsFrom_of_missing {path : List Nat} (acc : Binary64)
    (hfirst : ∀ first ∈ path.head?, first < n) (hmissing : none ∈ m.stepWeights path) :
    m.stepsFrom acc path = .ok .zero := by
  induction path generalizing acc with
  | nil => cases hmissing
  | cons src rest ih =>
    have hsrc : src < n := hfirst src rfl
    cases rest with
    | nil => cases hmissing
    | cons dst rest =>
      cases hstep : m.firstWeight? src dst with
      | none => exact stepsFrom_of_none (hm.numRows_eq ▸ hsrc) hstep acc rest
      | some w =>
        have hdst : dst < n := hm.lt_of_firstWeight? hsrc hstep
        rw [stepWeights_cons_cons, hstep] at hmissing
        rw [stepsFrom_of_some (hm.numRows_eq ▸ hsrc) hstep]
        refine ih (acc.mul w) ?_ ?_
        · rintro first ⟨⟩
          exact hdst
        · simpa using hmissing

/-- The steps of a path that begins at a state are looked up without an error. -/
theorem Built.exists_stepsFrom {path : List Nat} (acc : Binary64)
    (hfirst : ∀ first ∈ path.head?, first < n) : ∃ w, m.stepsFrom acc path = .ok w := by
  rcases none_mem_or_eq_map_some (m.stepWeights path) with hmissing | ⟨ws, hws⟩
  · exact ⟨_, hm.stepsFrom_of_missing acc hfirst hmissing⟩
  · exact ⟨_, hm.stepsFrom_of_weights acc hfirst hws⟩

theorem Built.pathWeight_of_lt {path : List Nat} (hfirst : ∀ first ∈ path.head?, first < n) :
    m.pathWeight path = m.stepsFrom .one path := by
  cases path with
  | nil => rfl
  | cons first rest =>
    show (m.checkRow first >>= fun _ => m.stepsFrom .one (first :: rest)) = _
    rw [hm.checkRow_eq (hfirst first rfl)]
    rfl

theorem Built.pathWeight_of_le {first : Nat} (hle : n ≤ first) (rest : List Nat) :
    m.pathWeight (first :: rest) = .error (.stateOutOfRange first n) := by
  show (m.checkRow first >>= fun _ => m.stepsFrom .one (first :: rest)) = _
  rw [checkRow, hm.numRows_eq, if_neg (Nat.not_lt.2 hle)]
  rfl

/-- A path is refused for its first state only. -/
theorem Built.pathWeight_eq_error_iff {path : List Nat} {err : Error} :
    m.pathWeight path = .error err ↔
      ∃ first rest, path = first :: rest ∧ n ≤ first ∧ err = .stateOutOfRange first n := by
  constructor
  · intro h
    by_cases hfirst : ∀ first ∈ path.head?, first < n
    · obtain ⟨w, hw⟩ := hm.exists_stepsFrom .one hfirst
      rw [hm.pathWeight_of_lt hfirst, hw] at h
      cases h
    · cases path with
      | nil => exact absurd (fun _ hnil => by cases hnil) hfirst
      | cons first rest =>
        have hle : n ≤ first := by
          refine Nat.le_of_not_lt fun hlt => hfirst ?_
          rintro _ ⟨⟩
          exact hlt
        rw [hm.pathWeight_of_le hle] at h
        cases h
        exact ⟨first, rest, rfl, hle, rfl⟩
  · rintro ⟨first, rest, rfl, hle, rfl⟩
    exact hm.pathWeight_of_le hle rest

end Built

/-- A path over a matrix of `n` states, built from entries or from a relation, is refused exactly if
its first state is not there, whatever comes later. Otherwise it weighs the product of the first
stored entries of its steps, one times the first weight and so on from left to right, and zero as soon
as some step has no entry. -/
theorem pathWeight_of_states {m : Matrix} {n : Nat}
    (hm : (∃ entries options, (ofEntries n entries options).result = .ok m) ∨
      ∃ (e : Encoding) (relation : Relation), e.states.size = n ∧
        (e.matrix relation).result = .ok m)
    (path : List Nat) :
    (∀ err, m.pathWeight path = .error err ↔
      ∃ first rest, path = first :: rest ∧ n ≤ first ∧ err = .stateOutOfRange first n) ∧
    ((∀ first ∈ path.head?, first < n) →
      (∀ ws : List Binary64, m.stepWeights path = ws.map some →
        m.pathWeight path = .ok (ws.foldl Binary64.mul .one)) ∧
      (none ∈ m.stepWeights path → m.pathWeight path = .ok .zero)) := by
  obtain ⟨entries, options, hbuilt⟩ : ∃ entries options, m.Built n n entries options := by
    rcases hm with ⟨entries, options, hm⟩ | ⟨e, relation, rfl, hm⟩
    · exact ⟨entries, options, built_of_rectangular hm⟩
    · obtain ⟨ts, _, hstore⟩ := Traced.result_bind_eq_ok_iff.1 hm
      exact ⟨_, _, built_of_rectangular (Encoding.ofEntries_of_store hstore)⟩
  refine ⟨fun err => hbuilt.pathWeight_eq_error_iff, fun hfirst => ⟨fun ws hws => ?_, ?_⟩⟩
  · rw [hbuilt.pathWeight_of_lt hfirst, hbuilt.stepsFrom_of_weights .one hfirst hws]
  · intro hmissing
    rw [hbuilt.pathWeight_of_lt hfirst, hbuilt.stepsFrom_of_missing .one hfirst hmissing]

/-- There and back over the first of two entries; a missing step with states that are not there behind
it; and a path that begins at one of those. -/
theorem pathWeight_of_two_states :
    ∃ m, (ofEntries 2 [⟨0, 1, ⟨0x4000000000000000⟩⟩, ⟨1, 0, .one⟩, ⟨0, 1, .one⟩] {}).result = .ok m ∧
      m.pathWeight [0, 1, 0] = .ok (((Binary64.one.mul ⟨0x4000000000000000⟩)).mul .one) ∧
      m.pathWeight [0, 0, 7, 9] = .ok .zero ∧
      m.pathWeight [7, 0] = .error (.stateOutOfRange 7 2) := by
  obtain ⟨m, hm⟩ : ∃ m, (ofEntries 2 [⟨0, 1, ⟨0x4000000000000000⟩⟩, ⟨1, 0, .one⟩, ⟨0, 1, .one⟩]
      {}).result = .ok m :=
    exists_rectangular rfl (by decide) (by decide) (by unfold InRange; decide) (by decide)
      (by decide)
  have hcells := fun src (hsrc : src < 2) => (built_of_rectangular hm).cells_eq hsrc
  have hthere : m.firstWeight? 0 1 = some ⟨0x4000000000000000⟩ := by
    rw [firstWeight?, hcells 0 (by decide)]
    cases m.isCompact <;> decide
  have hback : m.firstWeight? 1 0 = some .one := by
    rw [firstWeight?, hcells 1 (by decide)]
    cases m.isCompact <;> decide
  have hstay : m.firstWeight? 0 0 = none := by
    rw [firstWeight?, hcells 0 (by decide)]
    cases m.isCompact <;> decide
  have hzero : ∀ first ∈ [0].head?, first < 2 := by
    rintro _ ⟨⟩
    decide
  obtain ⟨_, hround⟩ := pathWeight_of_states (Or.inl ⟨_, _, hm⟩) [0, 1, 0]
  obtain ⟨_, hbroken⟩ := pathWeight_of_states (Or.inl ⟨_, _, hm⟩) [0, 0, 7, 9]
  obtain ⟨herror, _⟩ := pathWeight_of_states (Or.inl ⟨_, _, hm⟩) [7, 0]
  refine ⟨m, hm, (hround hzero).1 [⟨0x4000000000000000⟩, .one] ?_, (hbroken hzero).2 ?_, ?_⟩
  · show [m.firstWeight? 0 1, m.firstWeight? 1 0] = _
    rw [hthere, hback]
    rfl
  · rw [stepWeights_cons_cons, hstay]
    exact List.mem_cons_self
  · exact (herror _).2 ⟨7, [0], rfl, by decide, rfl⟩

end Matrix

end TransitionMatrix
