import TransitionMatrix.Proofs.Symbolic.Choices
import TransitionMatrix.Proofs.Symbolic.Contradictions

/-!
# Patterns of a cube

The bits that a cube fixes are those that its variables carry: a variable stands for one bit of one of
the three numbers, by its first place in the first order that has it. So the patterns depend on which
literals there are, and neither on their order nor on how often they occur, and there are none exactly
if two literals fix one bit to opposite values.
-/

namespace TransitionMatrix

/-! ## The bit that a variable carries -/

/-- There are `bit` variables behind the first place of the variable. -/
def VariableOrder.Carries (o : VariableOrder) (v : Variable) (bit : Nat) : Prop :=
  ∃ before after, o.vars = before ++ v :: after ∧ v ∉ before ∧ after.length = bit

namespace VariableOrder

theorem bit?_of_split {o : VariableOrder} {v : Variable} {before after : List Variable}
    (hvars : o.vars = before ++ v :: after) (hfirst : v ∉ before) : o.bit? v = some after.length := by
  have hplace : o.position? v = some before.length := by
    rw [position?, hvars, List.idxOf?_eq_some_iff]
    refine ⟨by simp, by simp, fun j hj heq => hfirst ?_⟩
    rw [← heq, List.getElem_append_left hj]
    exact List.getElem_mem hj
  rw [bit?, hplace, Option.map_some, length, hvars, List.length_append, List.length_cons]
  congr 1
  omega

theorem bit?_eq_some_iff {o : VariableOrder} {v : Variable} {bit : Nat} :
    o.bit? v = some bit ↔ o.Carries v bit := by
  constructor
  · intro h
    have hmem : v ∈ o.vars := by
      by_contra hne
      rw [bit?_eq_none_iff.2 hne] at h
      cases h
    obtain ⟨before, after, hvars, hfirst⟩ := List.eq_append_cons_of_mem hmem
    rw [bit?_of_split hvars hfirst, Option.some.injEq] at h
    exact ⟨before, after, hvars, hfirst, h⟩
  · rintro ⟨before, after, hvars, hfirst, rfl⟩
    exact bit?_of_split hvars hfirst

end VariableOrder

/-- The variable carries a bit of one of the three numbers. The orders are asked one after another, and
one that has the variable hides it from those after it. -/
def Encoding.Carries (e : Encoding) (v : Variable) : Component → Nat → Prop
  | .row, bit => e.rows.Carries v bit
  | .col, bit => v ∉ e.rows.vars ∧ e.cols.Carries v bit
  | .choice, bit => v ∉ e.rows.vars ∧ v ∉ e.cols.vars ∧
      ∃ order, e.choices = some order ∧ order.Carries v bit

namespace Encoding

variable {e : Encoding} {cube : List Literal}

theorem locate?_eq_some_iff {v : Variable} {component : Component} {bit : Nat} :
    e.locate? v = some (component, bit) ↔ e.Carries v component bit := by
  unfold locate?
  cases hrow : e.rows.bit? v with
  | some found =>
    cases component <;>
      simp [Carries, ← VariableOrder.bit?_eq_none_iff, ← VariableOrder.bit?_eq_some_iff, hrow]
  | none =>
    cases hcol : e.cols.bit? v with
    | some found =>
      cases component <;>
        simp [Carries, ← VariableOrder.bit?_eq_none_iff, ← VariableOrder.bit?_eq_some_iff, hrow, hcol]
    | none =>
      cases component <;>
        simp [Carries, ← VariableOrder.bit?_eq_none_iff, ← VariableOrder.bit?_eq_some_iff, hrow, hcol,
          Option.bind_eq_some_iff]

end Encoding

/-! ## Patterns by their fixed bits -/

/-- Two patterns that fix the same bits to the same values are one. -/
theorem BitPattern.eq_of_fixed? {p q : BitPattern} {width : Nat} (hp : p.Within width)
    (hq : q.Within width) (h : ∀ bit, p.fixed? bit = q.fixed? bit) : p = q := by
  have hbits : ∀ bit, p.mask.testBit bit = q.mask.testBit bit ∧
      p.value.testBit bit = q.value.testBit bit := by
    intro bit
    have hfixed := h bit
    unfold fixed? at hfixed
    cases hmask : p.mask.testBit bit with
    | true =>
      cases hmask' : q.mask.testBit bit with
      | true => simpa [hmask, hmask'] using hfixed
      | false => simp [hmask, hmask'] at hfixed
    | false =>
      cases hmask' : q.mask.testBit bit with
      | true => simp [hmask, hmask'] at hfixed
      | false => exact ⟨rfl, by rw [hp.value_eq_false hmask, hq.value_eq_false hmask']⟩
  obtain ⟨mask, value⟩ := p
  obtain ⟨mask', value'⟩ := q
  rw [mk.injEq]
  exact ⟨Nat.eq_of_testBit_eq fun bit => (hbits bit).1,
    Nat.eq_of_testBit_eq fun bit => (hbits bit).2⟩

namespace CubePattern

variable {p q : CubePattern} {e : Encoding}

theorem eq_of_fixed? (hp : p.Within e) (hq : q.Within e)
    (h : ∀ component bit, p.fixed? component bit = q.fixed? component bit) : p = q := by
  have hparts : ∀ component, p.part component = q.part component := by
    intro component
    exact BitPattern.eq_of_fixed? (hp.part component) (hq.part component) (h component)
  obtain ⟨row, col, choice⟩ := p
  obtain ⟨row', col', choice'⟩ := q
  rw [mk.injEq]
  exact ⟨hparts .row, hparts .col, hparts .choice⟩

theorem agrees_iff_parts {src choice dst : Nat} : p.Agrees src choice dst ↔
    ∀ component, (p.part component).Agrees (component.number src choice dst) := by
  rw [Component.forall_iff]
  exact and_congr_right fun _ => and_comm

end CubePattern

/-! ## Patterns by the literals of the cube -/

namespace Encoding

variable {e : Encoding} {cube cube' : List Literal}

/-- Without unknown variables, a contradiction is all that a cube can stop for. -/
theorem patterns_eq_none_iff (hknown : ∀ l ∈ cube, ¬ e.Unknown l.var) :
    e.patterns cube = .ok none ↔ e.Contradicts cube := by
  cases hresult : e.patterns cube with
  | error err =>
    obtain ⟨l, hl, hunknown⟩ := (exists_patterns_eq_error_iff.1 ⟨err, hresult⟩).exists_unknown
    exact absurd hunknown (hknown l hl)
  | ok p? =>
    cases p? with
    | none =>
      refine iff_of_true rfl ?_
      by_contra hconsistent
      obtain ⟨p, hp⟩ := exists_patterns_iff.2 ⟨hknown, hconsistent⟩
      cases hresult.symm.trans hp
    | some p =>
      have hconsistent := (exists_patterns_iff.1 ⟨p, hresult⟩).2
      exact iff_of_false (fun heq => by cases heq) hconsistent

theorem exists_patterns_of_ne_none (hknown : ∀ l ∈ cube, ¬ e.Unknown l.var)
    (h : e.patterns cube ≠ .ok none) : ∃ p, e.patterns cube = .ok (some p) :=
  exists_patterns_iff.2 ⟨hknown, fun hcontradicts => h ((patterns_eq_none_iff hknown).2 hcontradicts)⟩

/-- Cubes with the same literals have the same patterns. -/
theorem patterns_congr (hknown : ∀ l ∈ cube, ¬ e.Unknown l.var) (hmem : ∀ l, l ∈ cube' ↔ l ∈ cube) :
    e.patterns cube' = e.patterns cube := by
  have hknown' : ∀ l ∈ cube', ¬ e.Unknown l.var := fun l hl => hknown l ((hmem l).1 hl)
  by_cases hcontradicts : e.Contradicts cube
  · have hcontradicts' : e.Contradicts cube' := hcontradicts.mono fun l hl => (hmem l).2 hl
    rw [(patterns_eq_none_iff hknown).2 hcontradicts, (patterns_eq_none_iff hknown').2 hcontradicts']
  · have hconsistent' : ¬ e.Contradicts cube' := by
      intro hcontradicts'
      exact hcontradicts (hcontradicts'.mono fun l hl => (hmem l).1 hl)
    obtain ⟨p, hp⟩ := exists_patterns_iff.2 ⟨hknown, hcontradicts⟩
    obtain ⟨p', hp'⟩ := exists_patterns_iff.2 ⟨hknown', hconsistent'⟩
    have hsame : p' = p := by
      apply CubePattern.eq_of_fixed? (within_of_patterns hp') (within_of_patterns hp)
      intro component bit
      apply Option.ext
      intro value
      rw [fixed?_of_patterns hp', fixed?_of_patterns hp]
      simp only [hmem]
    rw [hp, hp', hsame]

theorem contradicts_iff : e.Contradicts cube ↔ ∃ k ∈ cube, ∃ l ∈ cube, ∃ component bit,
    e.Carries k.var component bit ∧ e.Carries l.var component bit ∧ k.positive ≠ l.positive := by
  simp only [Contradicts, Prod.exists, locate?_eq_some_iff]

/-- A cube over known variables has no patterns exactly if two of its literals fix one bit to opposite
values. Otherwise each pattern fixes bits of its number only, which fits in a word, and the transitions
that satisfy the cube are those whose numbers have the values of the patterns on the fixed bits. How
often literals occur, and in which order, makes no difference. -/
theorem patterns_of_cube (hcheck : e.check = .ok ()) (hknown : ∀ l ∈ cube, ¬ e.Unknown l.var) :
    (e.patterns cube = .ok none ↔ ∃ k ∈ cube, ∃ l ∈ cube, ∃ component bit,
      e.Carries k.var component bit ∧ e.Carries l.var component bit ∧ k.positive ≠ l.positive) ∧
    (e.patterns cube ≠ .ok none → ∃ p, e.patterns cube = .ok (some p) ∧
      (∀ component, (p.part component).value &&& (p.part component).mask = (p.part component).value ∧
        (p.part component).mask < 2 ^ component.width e ∧ component.width e ≤ 63) ∧
      ∀ src choice dst, e.Satisfies src choice dst cube ↔ ∀ component,
        component.number src choice dst &&& (p.part component).mask = (p.part component).value) ∧
    ∀ cube', (∀ l, l ∈ cube' ↔ l ∈ cube) → e.patterns cube' = e.patterns cube := by
  refine ⟨?_, fun hsome => ?_, fun cube' hmem => patterns_congr hknown hmem⟩
  · rw [patterns_eq_none_iff hknown, contradicts_iff]
  · obtain ⟨p, hp⟩ := exists_patterns_of_ne_none hknown hsome
    have hwithin : ∀ component, (p.part component).Within (component.width e) :=
      (within_of_patterns hp).part
    refine ⟨p, hp, fun component => ?_, fun src choice dst => ?_⟩
    · obtain ⟨hvalue, hmask⟩ := BitPattern.within_iff.1 (hwithin component)
      exact ⟨hvalue, hmask, width_le_of_check hcheck component⟩
    · rw [← agrees_iff_satisfies hp, CubePattern.agrees_iff_parts]
      refine forall_congr' fun component => ?_
      rw [BitPattern.Agrees, (BitPattern.within_iff.1 (hwithin component)).1]

/-- A literal that occurs twice, over a variable that two orders have. -/
def repeatedLiteral : List Literal :=
  [(Variable.nth 0).pos, (Variable.nth 2).neg, (Variable.nth 3).pos, (Variable.nth 0).pos]

theorem patterns_of_repeatedLiteral :
    (twoStates (some oneBit)).patterns repeatedLiteral = .ok (some ⟨⟨2, 2⟩, ⟨2, 0⟩, ⟨1, 1⟩⟩) ∧
    (∀ src choice dst, (twoStates (some oneBit)).Satisfies src choice dst repeatedLiteral ↔
      src &&& 2 = 2 ∧ dst &&& 2 = 0 ∧ choice &&& 1 = 1) ∧
    (twoStates (some oneBit)).patterns repeatedLiteral.reverse.tail
      = (twoStates (some oneBit)).patterns repeatedLiteral ∧
    (twoStates (some oneBit)).patterns (repeatedLiteral ++ [(Variable.nth 0).neg]) = .ok none := by
  have hlocated : ∀ l ∈ repeatedLiteral ++ [(Variable.nth 0).neg],
      ((twoStates (some oneBit)).locate? l.var).isSome = true := by decide
  have hknown : ∀ l ∈ repeatedLiteral ++ [(Variable.nth 0).neg],
      ¬ (twoStates (some oneBit)).Unknown l.var := fun l hl => not_unknown_of_isSome (hlocated l hl)
  have hpatterns : (twoStates (some oneBit)).patterns repeatedLiteral
      = .ok (some ⟨⟨2, 2⟩, ⟨2, 0⟩, ⟨1, 1⟩⟩) := by decide
  obtain ⟨_, hsome, hsame⟩ := patterns_of_cube (show (twoStates (some oneBit)).check = .ok () from rfl)
    (fun l hl => hknown l (List.mem_append_left _ hl))
  obtain ⟨hnone, _⟩ := patterns_of_cube (show (twoStates (some oneBit)).check = .ok () from rfl) hknown
  obtain ⟨p, hp, _, hsatisfies⟩ := hsome (by rw [hpatterns]; decide)
  rw [hpatterns] at hp
  cases hp
  refine ⟨hpatterns, fun src choice dst => ?_, hsame _ ?_, hnone.2 ?_⟩
  · rw [hsatisfies, Component.forall_iff]
    rfl
  · intro l
    simp [repeatedLiteral]
    tauto
  · have hcarries : (twoStates (some oneBit)).Carries (Variable.nth 0) .row 1 :=
      ⟨[], [Variable.nth 1], rfl, by simp, rfl⟩
    exact ⟨(Variable.nth 0).pos, by simp [repeatedLiteral], (Variable.nth 0).neg, by simp, .row, 1,
      hcarries, hcarries, by decide⟩

end Encoding

end TransitionMatrix
