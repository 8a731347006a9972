import TransitionMatrix.Proofs.Symbolic.BitPattern
import TransitionMatrix.Symbolic.Encoding

/-!
# Transitions covered by a path

A transition between two states, with a choice, gives a value to every variable of an encoding: a
variable carries one bit of the source state, of the destination or of the choice. A path covers the
transitions that satisfy every literal of its cube. Gathering the literals of a cube into patterns
comes to the same: the transitions that a path covers are those that agree with its patterns.
-/

namespace TransitionMatrix

namespace Encoding

variable (e : Encoding)

/-- The literals that hold of a transition, for the encodings of its source, choice and destination.
A variable that occurs again has its value where it occurs first. -/
def literals (src choice dst : Nat) : List Literal :=
  e.rows.cube src ++ e.cols.cube dst ++ e.choices.elim [] fun order => order.cube choice

/-- The transition satisfies every literal of the cube. -/
def Satisfies (src choice dst : Nat) (cube : List Literal) : Prop :=
  ∀ l ∈ cube, (e.literals src choice dst).find? (fun k => k.var == l.var) = some l

instance (src choice dst : Nat) (cube : List Literal) : Decidable (e.Satisfies src choice dst cube) :=
  inferInstanceAs (Decidable (∀ l ∈ cube, _))

/-- The path covers the transition from the state `src` to the state `dst`, given by their indices,
with the choice that is encoded by `choice`. -/
def covers (path : Path) (src choice dst : Nat) : Bool :=
  (e.states.state? src).any fun s => (e.states.state? dst).any fun d =>
    e.Satisfies s choice d path.cube

/-- The value of the first path of a relation that covers a transition. -/
def firstValue? (relation : Relation) (src choice dst : Nat) : Option Binary64 :=
  (relation.paths.find? fun path => e.covers path src choice dst).map Path.value

end Encoding

theorem Encoding.covers_iff {e : Encoding} {path : Path} {src choice dst : Nat} :
    e.covers path src choice dst = true ↔ ∃ s d, e.states.state? src = some s ∧
      e.states.state? dst = some d ∧ e.Satisfies s choice d path.cube := by
  rw [covers, Option.any_eq_true]
  constructor
  · rintro ⟨s, hs, hany⟩
    obtain ⟨d, hd, hsat⟩ := (Option.any_eq_true _ _).1 hany
    exact ⟨s, d, hs, hd, of_decide_eq_true hsat⟩
  · rintro ⟨s, d, hs, hd, hsat⟩
    exact ⟨s, hs, (Option.any_eq_true _ _).2 ⟨d, hd, decide_eq_true hsat⟩⟩

/-! ## Reading a variable -/

theorem VariableOrder.find?_cube (o : VariableOrder) (n : Nat) (v : Variable) :
    (o.cube n).find? (fun k => k.var == v) = (o.bit? v).map fun b => ⟨v, n.testBit b⟩ := by
  obtain ⟨vars⟩ := o
  unfold cube bit? position? length
  simp only
  induction vars with
  | nil => rfl
  | cons v' rest ih =>
    rw [cubeOf, List.idxOf?_cons]
    by_cases hv : v' = v
    · subst hv
      simp
    · rw [List.find?_cons_of_neg (by simpa using hv), ih, if_neg (by simpa using hv)]
      cases hp : rest.idxOf? v with
      | none => rfl
      | some p =>
        obtain ⟨hlt, _⟩ := List.idxOf?_eq_some_iff.1 hp
        have hbit : rest.length - (p + 1) = rest.length - 1 - p := by omega
        simp [hbit]

namespace Component

/-- The number that a component stands for. -/
def number (src chosen dst : Nat) : Component → Nat
  | row => src
  | col => dst
  | choice => chosen

/-- The number of bits of a component. -/
def width (e : Encoding) : Component → Nat
  | row => e.rows.length
  | col => e.cols.length
  | choice => e.choiceWidth

theorem forall_iff {P : Component → Prop} : (∀ component, P component) ↔ P row ∧ P col ∧ P choice := by
  constructor
  · intro h
    exact ⟨h row, h col, h choice⟩
  · rintro ⟨hrow, hcol, hchoice⟩ component
    cases component with
    | row => exact hrow
    | col => exact hcol
    | choice => exact hchoice

end Component

namespace Encoding

variable {e : Encoding}

/-- A variable has the value of the bit where it is located. -/
theorem find?_literals (src choice dst : Nat) (v : Variable) :
    (e.literals src choice dst).find? (fun k => k.var == v)
      = (e.locate? v).map fun at_ => ⟨v, (at_.1.number src choice dst).testBit at_.2⟩ := by
  have hchoices : (e.choices.elim [] fun order => order.cube choice).find? (fun k => k.var == v)
      = (e.choices.bind fun order => order.bit? v).map fun b => ⟨v, choice.testBit b⟩ := by
    cases e.choices with
    | none => rfl
    | some order => exact order.find?_cube choice v
  rw [literals, List.find?_append, List.find?_append, VariableOrder.find?_cube,
    VariableOrder.find?_cube, hchoices, locate?]
  cases e.rows.bit? v with
  | some bit => rfl
  | none =>
    cases e.cols.bit? v with
    | some bit => rfl
    | none =>
      cases e.choices.bind fun order => order.bit? v with
      | some bit => rfl
      | none => rfl

theorem locate?_lt {v : Variable} {component : Component} {bit : Nat}
    (h : e.locate? v = some (component, bit)) : bit < component.width e := by
  rw [locate?] at h
  split at h
  · rename_i bit' hbit
    cases h
    exact VariableOrder.bit?_lt hbit
  · split at h
    · rename_i bit' hbit
      cases h
      exact VariableOrder.bit?_lt hbit
    · obtain ⟨bit', hbit, heq⟩ := Option.map_eq_some_iff.1 h
      obtain ⟨order, horder, hbit⟩ := Option.bind_eq_some_iff.1 hbit
      cases heq
      show bit < e.choiceWidth
      rw [choiceWidth, horder]
      exact VariableOrder.bit?_lt hbit

theorem satisfies_cons {src choice dst : Nat} {l : Literal} {rest : List Literal}
    {component : Component} {bit : Nat} (h : e.locate? l.var = some (component, bit)) :
    e.Satisfies src choice dst (l :: rest) ↔
      (component.number src choice dst).testBit bit = l.positive ∧
        e.Satisfies src choice dst rest := by
  have hl : (e.literals src choice dst).find? (fun k => k.var == l.var) = some l ↔
      (component.number src choice dst).testBit bit = l.positive := by
    obtain ⟨v, positive⟩ := l
    rw [find?_literals, h]
    simp
  rw [Satisfies, List.forall_mem_cons, hl]
  rfl

end Encoding

/-! ## Patterns of a cube -/

namespace CubePattern

/-- The encodings of a source, a choice and a destination have the bits that the pattern fixes. -/
def Agrees (p : CubePattern) (src choice dst : Nat) : Prop :=
  p.row.Agrees src ∧ p.choice.Agrees choice ∧ p.col.Agrees dst

/-- The fixed bits are among those of the encoding. -/
structure Within (p : CubePattern) (e : Encoding) : Prop where
  row : p.row.Within e.rows.length
  col : p.col.Within e.cols.length
  choice : p.choice.Within e.choiceWidth

theorem within_free (e : Encoding) : free.Within e :=
  ⟨BitPattern.within_free _, BitPattern.within_free _, BitPattern.within_free _⟩

theorem agrees_free (src choice dst : Nat) : free.Agrees src choice dst :=
  ⟨BitPattern.agrees_free _, BitPattern.agrees_free _, BitPattern.agrees_free _⟩

variable {p q : CubePattern} {e : Encoding} {component : Component} {bit : Nat} {positive : Bool}

theorem within_of_fix (hp : p.Within e) (hbit : bit < component.width e)
    (h : p.fix component bit positive = some q) : q.Within e := by
  cases component with
  | row =>
    obtain ⟨row, hrow, rfl⟩ := Option.map_eq_some_iff.1 h
    exact ⟨BitPattern.within_of_fix hp.row hbit hrow, hp.col, hp.choice⟩
  | col =>
    obtain ⟨col, hcol, rfl⟩ := Option.map_eq_some_iff.1 h
    exact ⟨hp.row, BitPattern.within_of_fix hp.col hbit hcol, hp.choice⟩
  | choice =>
    obtain ⟨choice, hchoice, rfl⟩ := Option.map_eq_some_iff.1 h
    exact ⟨hp.row, hp.col, BitPattern.within_of_fix hp.choice hbit hchoice⟩

theorem agrees_of_fix (hp : p.Within e) (h : p.fix component bit positive = some q)
    (src choice dst : Nat) : q.Agrees src choice dst ↔
      p.Agrees src choice dst ∧ (component.number src choice dst).testBit bit = positive := by
  unfold Agrees
  cases component with
  | row =>
    obtain ⟨row, hrow, rfl⟩ := Option.map_eq_some_iff.1 h
    rw [BitPattern.agrees_of_fix hp.row hrow]
    constructor
    · rintro ⟨⟨hr, hbit⟩, hc, hd⟩
      exact ⟨⟨hr, hc, hd⟩, hbit⟩
    · rintro ⟨⟨hr, hc, hd⟩, hbit⟩
      exact ⟨⟨hr, hbit⟩, hc, hd⟩
  | col =>
    obtain ⟨col, hcol, rfl⟩ := Option.map_eq_some_iff.1 h
    rw [BitPattern.agrees_of_fix hp.col hcol]
    constructor
    · rintro ⟨hr, hc, hd, hbit⟩
      exact ⟨⟨hr, hc, hd⟩, hbit⟩
    · rintro ⟨⟨hr, hc, hd⟩, hbit⟩
      exact ⟨hr, hc, hd, hbit⟩
  | choice =>
    obtain ⟨order, horder, rfl⟩ := Option.map_eq_some_iff.1 h
    rw [BitPattern.agrees_of_fix hp.choice horder]
    constructor
    · rintro ⟨hr, ⟨hc, hbit⟩, hd⟩
      exact ⟨⟨hr, hc, hd⟩, hbit⟩
    · rintro ⟨⟨hr, hc, hd⟩, hbit⟩
      exact ⟨hr, ⟨hc, hbit⟩, hd⟩

theorem not_agrees_of_fix (h : p.fix component bit positive = none) {src choice dst : Nat}
    (ha : p.Agrees src choice dst) : (component.number src choice dst).testBit bit ≠ positive := by
  cases component with
  | row => exact BitPattern.not_agrees_of_fix (Option.map_eq_none_iff.1 h) ha.1
  | col => exact BitPattern.not_agrees_of_fix (Option.map_eq_none_iff.1 h) ha.2.2
  | choice => exact BitPattern.not_agrees_of_fix (Option.map_eq_none_iff.1 h) ha.2.1

end CubePattern

namespace Encoding

variable {e : Encoding}

/-- The patterns of a cube, on top of those of the bits that are fixed before it: the transitions
that agree are those that agreed and satisfy the cube, and without patterns there are none. -/
theorem restrict_spec {p : CubePattern} (hp : p.Within e) {cube : List Literal}
    {result : Option CubePattern} (h : e.restrict p cube = .ok result) :
    (∀ q, result = some q → q.Within e ∧ ∀ src choice dst,
      q.Agrees src choice dst ↔ p.Agrees src choice dst ∧ e.Satisfies src choice dst cube) ∧
    (result = none → ∀ src choice dst, p.Agrees src choice dst → ¬ e.Satisfies src choice dst cube) := by
  induction cube generalizing p with
  | nil =>
    cases h
    refine ⟨fun q hq => ?_, fun hnone => by cases hnone⟩
    cases hq
    exact ⟨hp, fun src choice dst => by simp [Satisfies]⟩
  | cons l rest ih =>
    rw [restrict] at h
    cases hloc : e.locate? l.var with
    | none =>
      rw [hloc] at h
      cases h
    | some at_ =>
      obtain ⟨component, bit⟩ := at_
      rw [hloc] at h
      dsimp only at h
      cases hfix : p.fix component bit l.positive with
      | none =>
        rw [hfix] at h
        cases h
        refine ⟨fun q hq => (by cases hq), fun _ src choice dst ha hs => ?_⟩
        exact CubePattern.not_agrees_of_fix hfix ha ((satisfies_cons hloc).1 hs).1
      | some p' =>
        rw [hfix] at h
        have hp' := CubePattern.within_of_fix hp (locate?_lt hloc) hfix
        have hagrees := CubePattern.agrees_of_fix hp hfix
        obtain ⟨hsome, hnone⟩ := ih hp' h
        refine ⟨fun q hq => ⟨(hsome q hq).1, fun src choice dst => ?_⟩, fun hr src choice dst ha hs => ?_⟩
        · rw [(hsome q hq).2, hagrees, satisfies_cons hloc, and_assoc]
        · obtain ⟨hl, hrest⟩ := (satisfies_cons hloc).1 hs
          exact hnone hr src choice dst ((hagrees src choice dst).2 ⟨ha, hl⟩) hrest

theorem within_of_patterns {cube : List Literal} {p : CubePattern}
    (h : e.patterns cube = .ok (some p)) : p.Within e :=
  ((restrict_spec (CubePattern.within_free e) h).1 p rfl).1

/-- A transition agrees with the patterns of a cube exactly when it satisfies the cube. -/
theorem agrees_iff_satisfies {cube : List Literal} {p : CubePattern}
    (h : e.patterns cube = .ok (some p)) (src choice dst : Nat) :
    p.Agrees src choice dst ↔ e.Satisfies src choice dst cube := by
  rw [((restrict_spec (CubePattern.within_free e) h).1 p rfl).2]
  exact and_iff_right (CubePattern.agrees_free src choice dst)

/-- No transition satisfies a cube that has no patterns. -/
theorem not_satisfies_of_patterns {cube : List Literal} (h : e.patterns cube = .ok none)
    (src choice dst : Nat) : ¬ e.Satisfies src choice dst cube :=
  (restrict_spec (CubePattern.within_free e) h).2 rfl src choice dst
    (CubePattern.agrees_free src choice dst)

end Encoding

end TransitionMatrix
