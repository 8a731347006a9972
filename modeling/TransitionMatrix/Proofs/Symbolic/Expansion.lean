import Mathlib.Data.List.Find
import TransitionMatrix.Proofs.StateSpace.Matching
import TransitionMatrix.Proofs.Symbolic.Completions
import TransitionMatrix.Proofs.Symbolic.Coverage
import TransitionMatrix.Proofs.Symbolic.Transitions

/-!
# Expanding a relation

The transitions that a relation is expanded into are the table of the weights that its paths give:
each transition that is covered by some path occurs once, with the value of the first such path.
What a path contributes is looked at one key at a time, and the first contribution for a key
survives sorting and dropping repetitions.
-/

namespace TransitionMatrix

namespace Encoding

variable {e : Encoding}

/-! ## The transitions of a path -/

/-- The source, the choice and the destination agree with the pattern. -/
def Meets (e : Encoding) (p : CubePattern) (destinations : List Nat) (k : Nat × Nat × Nat) : Prop :=
  k.1 ∈ (e.states.matching p.row.mask p.row.value).map Prod.fst ∧
    k.2.1 ∈ p.choice.completions e.choiceWidth ∧ k.2.2 ∈ destinations

instance (p : CubePattern) (destinations : List Nat) (k : Nat × Nat × Nat) :
    Decidable (e.Meets p destinations k) :=
  inferInstanceAs (Decidable (_ ∧ _ ∧ _))

theorem mem_expandPattern {p : CubePattern} {destinations : List Nat} {weight : Binary64}
    {t : Transition} : t ∈ e.expandPattern p destinations weight ↔
      e.Meets p destinations t.key ∧ t.weight = weight := by
  obtain ⟨src, choice, dst, w⟩ := t
  simp only [expandPattern, Meets, Transition.key, List.mem_flatMap, List.mem_map]
  constructor
  · rintro ⟨at_, hsrc, c, hchoice, d, hdst, heq⟩
    cases heq
    exact ⟨⟨⟨at_, hsrc, rfl⟩, hchoice, hdst⟩, rfl⟩
  · rintro ⟨⟨⟨at_, hsrc, rfl⟩, hchoice, hdst⟩, rfl⟩
    exact ⟨at_, hsrc, choice, hchoice, dst, hdst, rfl⟩

theorem find?_expandPattern (p : CubePattern) (destinations : List Nat) (weight : Binary64)
    (k : Nat × Nat × Nat) :
    (e.expandPattern p destinations weight).find? (fun t => t.key = k)
      = if e.Meets p destinations k then some ⟨k.1, k.2.1, k.2.2, weight⟩ else none := by
  split
  · rename_i hk
    have hmem : ⟨k.1, k.2.1, k.2.2, weight⟩ ∈ e.expandPattern p destinations weight :=
      mem_expandPattern.2 ⟨hk, rfl⟩
    obtain ⟨t, ht⟩ : ∃ t, (e.expandPattern p destinations weight).find?
        (fun t => t.key = k) = some t :=
      Runs.exists_find?_of_mem hmem (by simp [Transition.key])
    have hweight := (mem_expandPattern.1 (List.mem_of_find?_eq_some ht)).2
    have hkey : t.key = k := by simpa using List.find?_some ht
    rw [ht, ← hkey, ← hweight]
    rfl
  · rename_i hk
    rw [List.find?_eq_none]
    intro t ht hkey
    have hkey : t.key = k := by simpa using hkey
    exact hk (hkey ▸ (mem_expandPattern.1 ht).1)

/-! ## The transitions of all paths -/

/-- A path has a transition with the given key, to destinations that depend on the bits it fixes. -/
def reaches (e : Encoding) (destinations : CubePattern → List Nat) (path : Path)
    (k : Nat × Nat × Nat) : Bool :=
  match e.patterns path.cube with
  | .ok (some p) => e.Meets p (destinations p) k
  | _ => false

/-- No path is stopped at an unknown variable. -/
def Known (e : Encoding) (paths : List Path) : Prop :=
  ∀ path ∈ paths, ∃ p?, e.patterns path.cube = .ok p?

theorem known_of_expandPaths {destinations : CubePattern → List Nat} {paths : List Path}
    {ts : List Transition} (h : (e.expandPaths destinations paths).result = .ok ts) :
    e.Known paths := by
  induction paths generalizing ts with
  | nil => simp [Known]
  | cons path rest ih =>
    obtain ⟨p?, hp, h⟩ := Traced.result_bind_eq_ok_iff.1 h
    have hrest : ∃ ts, (e.expandPaths destinations rest).result = .ok ts := by
      cases p? with
      | none =>
        obtain ⟨_, _, h⟩ := Traced.result_bind_eq_ok_iff.1 h
        exact ⟨ts, h⟩
      | some p =>
        obtain ⟨later, hlater, _⟩ := Traced.result_bind_eq_ok_iff.1 h
        exact ⟨later, hlater⟩
    obtain ⟨ts', hts'⟩ := hrest
    intro path' hpath'
    rcases List.mem_cons.1 hpath' with rfl | hmem
    · exact ⟨p?, hp⟩
    · exact ih hts' path' hmem

/-- The first transition with a key is that of the first path that has one. -/
theorem find?_expandPaths {destinations : CubePattern → List Nat} {paths : List Path}
    {ts : List Transition} (h : (e.expandPaths destinations paths).result = .ok ts)
    (k : Nat × Nat × Nat) :
    ts.find? (fun t => t.key = k) =
      (paths.find? fun path => e.reaches destinations path k).map fun path =>
        ⟨k.1, k.2.1, k.2.2, path.value⟩ := by
  induction paths generalizing ts with
  | nil =>
    cases h
    rfl
  | cons path rest ih =>
    obtain ⟨p?, hp, h⟩ := Traced.result_bind_eq_ok_iff.1 h
    have hp : e.patterns path.cube = .ok p? := hp
    cases p? with
    | none =>
      obtain ⟨_, _, h⟩ := Traced.result_bind_eq_ok_iff.1 h
      have hreach : e.reaches destinations path k = false := by rw [reaches, hp]
      rw [List.find?_cons_of_neg (by simp [hreach])]
      exact ih h
    | some p =>
      obtain ⟨later, hlater, h⟩ := Traced.result_bind_eq_ok_iff.1 h
      have hts : e.expandPattern p (destinations p) path.value ++ later = ts := Except.ok.inj h
      have hreach : e.reaches destinations path k = decide (e.Meets p (destinations p) k) := by
        rw [reaches, hp]
      rw [← hts, List.find?_append, find?_expandPattern, ih hlater]
      by_cases hk : e.Meets p (destinations p) k
      · rw [if_pos hk, List.find?_cons_of_pos (by simp [hreach, hk])]
        rfl
      · rw [if_neg hk, List.find?_cons_of_neg (by simp [hreach, hk])]
        rfl

theorem exists_expandPaths (destinations : CubePattern → List Nat) {paths : List Path}
    (h : e.Known paths) :
    ∃ ts, (e.expandPaths destinations paths).result = .ok ts := by
  induction paths with
  | nil => exact ⟨[], rfl⟩
  | cons path rest ih =>
    obtain ⟨p?, hp⟩ := h path List.mem_cons_self
    obtain ⟨later, hlater⟩ := ih fun path' hpath' => h path' (List.mem_cons_of_mem _ hpath')
    cases p? with
    | none =>
      exact ⟨later, Traced.result_bind_eq_ok_iff.2
        ⟨none, hp, Traced.result_bind_eq_ok_iff.2 ⟨(), rfl, hlater⟩⟩⟩
    | some p =>
      exact ⟨_, Traced.result_bind_eq_ok_iff.2
        ⟨some p, hp, Traced.result_bind_eq_ok_iff.2 ⟨later, hlater, rfl⟩⟩⟩

/-! ## The transitions of a relation -/

theorem check_eq_ok_iff : e.check = .ok () ↔
    e.cols.length = e.rows.length ∧ e.states.numBits = e.rows.length ∧ e.choiceWidth ≤ 63 := by
  unfold check
  by_cases hcols : e.cols.length = e.rows.length
  · by_cases hbits : e.states.numBits = e.rows.length
    · by_cases hwidth : 63 < e.choiceWidth
      · simp [hcols, hbits, hwidth]
      · simp [hcols, hbits, hwidth]
        omega
    · simp [hcols, hbits]
  · simp [hcols]

/-- Where the orders agree, all three numbers fit in a word. -/
theorem width_le_of_check (h : e.check = .ok ()) : ∀ component : Component, component.width e ≤ 63 := by
  obtain ⟨hcols, hbits, hchoice⟩ := check_eq_ok_iff.1 h
  have hrows : e.rows.length ≤ 63 := hbits ▸ e.states.numBits_le
  exact Component.forall_iff.2 ⟨hrows, Nat.le_trans (Nat.le_of_eq hcols) hrows, hchoice⟩

/-- An expansion sorts what the paths have and keeps the first transition of each key. -/
theorem eq_distinct_of_expandTo {destinations : CubePattern → List Nat} {relation : Relation}
    {ts : List Transition} (h : (e.expandTo destinations relation).result = .ok ts) :
    e.check = .ok () ∧ ∃ raw, (e.expandPaths destinations relation.paths).result = .ok raw ∧
      ts = Transition.distinct raw := by
  obtain ⟨_, hcheck, h⟩ := Traced.result_bind_eq_ok_iff.1 h
  obtain ⟨raw, hraw, h⟩ := Traced.result_bind_eq_ok_iff.1 h
  refine ⟨hcheck, raw, hraw, ?_⟩
  dsimp only at h
  split at h
  · obtain ⟨_, _, h⟩ := Traced.result_bind_eq_ok_iff.1 h
    exact (Except.ok.inj h).symm
  · exact (Except.ok.inj h).symm

theorem exists_expandTo (destinations : CubePattern → List Nat) {relation : Relation}
    (hcheck : e.check = .ok ()) (h : e.Known relation.paths) :
    ∃ ts, (e.expandTo destinations relation).result = .ok ts := by
  obtain ⟨raw, hraw⟩ := exists_expandPaths destinations h
  refine ⟨Transition.distinct raw, Traced.result_bind_eq_ok_iff.2 ⟨(), hcheck, ?_⟩⟩
  refine Traced.result_bind_eq_ok_iff.2 ⟨raw, hraw, ?_⟩
  dsimp only
  split
  · exact Traced.result_bind_eq_ok_iff.2 ⟨(), rfl, rfl⟩
  · rfl

/-- The sources and choices that meet a pattern are those that have its fixed bits. -/
theorem meets_iff {cube : List Literal} {p : CubePattern} (hcheck : e.check = .ok ())
    (hp : e.patterns cube = .ok (some p)) {destinations : List Nat} {src choice dst : Nat} :
    e.Meets p destinations (src, choice, dst) ↔
      (∃ s, e.states.state? src = some s ∧ p.row.Agrees s) ∧
        (choice < 2 ^ e.choiceWidth ∧ p.choice.Agrees choice) ∧ dst ∈ destinations := by
  obtain ⟨_, hbits, hwidth⟩ := check_eq_ok_iff.1 hcheck
  have hwithin := within_of_patterns hp
  have hrow : p.row.Within e.states.numBits := hbits ▸ hwithin.row
  rw [Meets, StateSpace.mem_map_fst_matching hrow,
    BitPattern.completions_eq_filter hwithin.choice hwidth, List.mem_filter, List.mem_range,
    decide_eq_true_eq]

theorem mem_destinations {cube : List Literal} {p : CubePattern} (hcheck : e.check = .ok ())
    (hp : e.patterns cube = .ok (some p)) {dst : Nat} :
    dst ∈ e.destinations p ↔ ∃ d, e.states.state? dst = some d ∧ p.col.Agrees d := by
  obtain ⟨hcols, hbits, _⟩ := check_eq_ok_iff.1 hcheck
  have hcol : p.col.Within e.states.numBits := by
    rw [hbits, ← hcols]
    exact (within_of_patterns hp).col
  rw [destinations, StateSpace.mem_map_fst_matching hcol]

/-- Between the states of an encoding, a path has the transitions that it covers. -/
theorem reaches_destinations {path : Path} {p? : Option CubePattern} (hcheck : e.check = .ok ())
    (hp : e.patterns path.cube = .ok p?) (src choice dst : Nat) :
    e.reaches e.destinations path (src, choice, dst)
      = (decide (choice < 2 ^ e.choiceWidth) && e.covers path src choice dst) := by
  rw [Bool.eq_iff_iff, Bool.and_eq_true, decide_eq_true_eq, covers_iff, reaches, hp]
  cases p? with
  | none =>
    constructor
    · intro h
      cases h
    · rintro ⟨_, s, d, _, _, hsat⟩
      exact absurd hsat (not_satisfies_of_patterns hp s choice d)
  | some p =>
    simp only [decide_eq_true_eq, meets_iff hcheck hp, mem_destinations hcheck hp]
    constructor
    · rintro ⟨⟨s, hs, hsrc⟩, ⟨hlt, hchoice⟩, d, hd, hdst⟩
      exact ⟨hlt, s, d, hs, hd, (agrees_iff_satisfies hp s choice d).1 ⟨hsrc, hchoice, hdst⟩⟩
    · rintro ⟨hlt, s, d, hs, hd, hsat⟩
      obtain ⟨hsrc, hchoice, hdst⟩ := (agrees_iff_satisfies hp s choice d).2 hsat
      exact ⟨⟨s, hs, hsrc⟩, ⟨hlt, hchoice⟩, d, hd, hdst⟩

theorem lt_size_of_covers {path : Path} {src choice dst : Nat}
    (h : e.covers path src choice dst = true) : src < e.states.size ∧ dst < e.states.size := by
  obtain ⟨s, d, hs, hd, _⟩ := covers_iff.1 h
  exact ⟨StateSpace.lt_size_of_state? hs, StateSpace.lt_size_of_state? hd⟩

/-- A transition with a value is covered by the path that gives it. -/
theorem covers_of_firstValue? {relation : Relation} {src choice dst : Nat} {w : Binary64}
    (h : e.firstValue? relation src choice dst = some w) :
    ∃ path ∈ relation.paths, e.covers path src choice dst = true ∧ path.value = w := by
  obtain ⟨path, hpath, hw⟩ := Option.map_eq_some_iff.1 h
  have hcovers := List.find?_some hpath
  exact ⟨path, List.mem_of_find?_eq_some hpath, hcovers, hw⟩

/-- An expansion is the table of the values of the first path that covers each transition, for
whatever it is that its paths cover. -/
theorem expandTo_eq {destinations : CubePattern → List Nat} {relation : Relation}
    {ts : List Transition} (h : (e.expandTo destinations relation).result = .ok ts)
    {covered : Path → Nat → Nat → Nat → Bool}
    (hreaches : ∀ path ∈ relation.paths, ∀ src choice dst,
      e.reaches destinations path (src, choice, dst)
        = (decide (choice < 2 ^ e.choiceWidth) && covered path src choice dst))
    (hrange : ∀ path src choice dst, covered path src choice dst = true →
      src < e.states.size ∧ dst < e.states.size) :
    ts = Transition.table e.states.size (2 ^ e.choiceWidth) fun src choice dst =>
      (relation.paths.find? fun path => covered path src choice dst).map Path.value := by
  obtain ⟨_, raw, hraw, rfl⟩ := eq_distinct_of_expandTo h
  have hpairwise := Transition.pairwise_distinct raw
  refine Transition.eq_table hpairwise fun t => ?_
  obtain ⟨src, choice, dst, weight⟩ := t
  have hfind : (relation.paths.find? fun path => e.reaches destinations path (src, choice, dst))
      = relation.paths.find? fun path =>
          decide (choice < 2 ^ e.choiceWidth) && covered path src choice dst :=
    List.find?_congr fun path hpath => hreaches path hpath src choice dst
  rw [← Transition.find?_eq_some_iff hpairwise, Transition.find?_distinct, find?_expandPaths hraw]
  simp only [Transition.key, hfind]
  constructor
  · intro hsome
    obtain ⟨path, hpath, heq⟩ := Option.map_eq_some_iff.1 hsome
    have hcovered := List.find?_some hpath
    rw [Bool.and_eq_true, decide_eq_true_eq] at hcovered
    obtain ⟨hchoice, hcovered⟩ := hcovered
    obtain ⟨hsrc, hdst⟩ := hrange path src choice dst hcovered
    simp only [hchoice, decide_true, Bool.true_and] at hpath
    cases heq
    exact ⟨⟨hsrc, hchoice, hdst⟩, by rw [hpath, Option.map_some]⟩
  · rintro ⟨⟨_, hchoice, _⟩, hvalue⟩
    obtain ⟨path, hpath, rfl⟩ := Option.map_eq_some_iff.1 hvalue
    simp only [hchoice, decide_true, Bool.true_and]
    rw [hpath, Option.map_some]

/-- A relation is expanded into the table of the values of the first path that covers each
transition. -/
theorem expand_eq {relation : Relation} {ts : List Transition}
    (h : (e.expand relation).result = .ok ts) :
    ts = Transition.table e.states.size (2 ^ e.choiceWidth) (e.firstValue? relation) := by
  obtain ⟨hcheck, _, hraw, _⟩ := eq_distinct_of_expandTo h
  refine expandTo_eq h (fun path hpath src choice dst => ?_) fun path src choice dst =>
    lt_size_of_covers
  obtain ⟨p?, hp⟩ := known_of_expandPaths hraw path hpath
  exact reaches_destinations hcheck hp src choice dst

end Encoding

end TransitionMatrix
