import TransitionMatrix.Proofs.Symbolic.Coverage

/-!
# Cubes that stop early

The literals of a cube are gathered one after another, and the first one that cannot be gathered ends
it: its variable is in none of the orders, or its bit is fixed to the opposite value already. The
literals behind it are not looked at. A cube without such a literal is one whose variables are all
known and that fixes no bit to both values.
-/

namespace TransitionMatrix

theorem VariableOrder.bit?_eq_none_iff {o : VariableOrder} {v : Variable} :
    o.bit? v = none ↔ v ∉ o.vars := by
  rw [bit?, Option.map_eq_none_iff, position?, List.idxOf?_eq_none_iff]

/-! ## Fixed bits -/

namespace BitPattern

/-- The value that a bit is fixed to. -/
def fixed? (p : BitPattern) (bit : Nat) : Option Bool :=
  if p.mask.testBit bit then some (p.value.testBit bit) else none

variable {p q : BitPattern} {bit : Nat} {positive : Bool}

theorem fixed?_of_fix_eq_none (h : p.fix bit positive = none) : p.fixed? bit = some (!positive) := by
  rw [fix] at h
  split at h
  · rename_i hmask
    split at h
    · cases h
    · rename_i hvalue
      rw [fixed?, if_pos hmask, Bool.eq_not_of_ne hvalue]
  · cases h

/-- A bit is fixed by the literal that comes in, or was fixed before. -/
theorem fixed?_of_fix {width : Nat} (hp : p.Within width) (h : p.fix bit positive = some q) {b : Nat}
    {value : Bool} :
    q.fixed? b = some value ↔ b = bit ∧ value = positive ∨ p.fixed? b = some value := by
  rcases fix_cases h with ⟨hmask, hvalue, rfl⟩ | ⟨hmask, rfl⟩
  · refine ⟨Or.inr, ?_⟩
    rintro (⟨rfl, rfl⟩ | hbefore)
    · rw [fixed?, if_pos hmask, hvalue]
    · exact hbefore
  · by_cases heq : bit = b
    · subst heq
      have hvalue := hp.value_eq_false hmask
      cases positive <;> simp [fixed?, hmask, hvalue, eq_comm]
    · have hne : b ≠ bit := fun hb => heq hb.symm
      cases positive <;> simp [fixed?, heq, hne]

end BitPattern

namespace CubePattern

/-- The bits of one of the three numbers. -/
def part (p : CubePattern) : Component → BitPattern
  | .row => p.row
  | .col => p.col
  | .choice => p.choice

/-- The value that a bit of one of the three numbers is fixed to. -/
def fixed? (p : CubePattern) (component : Component) (bit : Nat) : Option Bool :=
  (p.part component).fixed? bit

variable {p q : CubePattern} {e : Encoding} {component : Component} {bit : Nat} {positive : Bool}

theorem Within.part (hp : p.Within e) :
    ∀ component, (p.part component).Within (component.width e) :=
  Component.forall_iff.2 ⟨hp.row, hp.col, hp.choice⟩

theorem fixed?_free (component : Component) (bit : Nat) : free.fixed? component bit = none := by
  cases component <;> simp [free, BitPattern.free, fixed?, CubePattern.part, BitPattern.fixed?]

theorem part_of_fix (h : p.fix component bit positive = some q) :
    (p.part component).fix bit positive = some (q.part component) ∧
      ∀ other, other ≠ component → q.part other = p.part other := by
  cases component with
  | row =>
    obtain ⟨row, hrow, rfl⟩ := Option.map_eq_some_iff.1 h
    refine ⟨hrow, fun other hother => ?_⟩
    cases other <;> first | rfl | exact absurd rfl hother
  | col =>
    obtain ⟨col, hcol, rfl⟩ := Option.map_eq_some_iff.1 h
    refine ⟨hcol, fun other hother => ?_⟩
    cases other <;> first | rfl | exact absurd rfl hother
  | choice =>
    obtain ⟨choice, hchoice, rfl⟩ := Option.map_eq_some_iff.1 h
    refine ⟨hchoice, fun other hother => ?_⟩
    cases other <;> first | rfl | exact absurd rfl hother

theorem fixed?_of_fix_eq_none (h : p.fix component bit positive = none) :
    p.fixed? component bit = some (!positive) := by
  cases component <;> exact BitPattern.fixed?_of_fix_eq_none (Option.map_eq_none_iff.1 h)

/-- A bit is fixed by the literal that comes in, or was fixed before. -/
theorem fixed?_of_fix (hp : p.Within e) (h : p.fix component bit positive = some q)
    {other : Component} {b : Nat} {value : Bool} : q.fixed? other b = some value ↔
      (other, b) = (component, bit) ∧ value = positive ∨ p.fixed? other b = some value := by
  obtain ⟨hfix, hothers⟩ := part_of_fix h
  by_cases heq : other = component
  · subst heq
    rw [fixed?, BitPattern.fixed?_of_fix (hp.part other) hfix, Prod.mk.injEq]
    simp only [true_and, fixed?]
  · rw [fixed?, hothers other heq, Prod.mk.injEq]
    simp only [heq, false_and, false_or, fixed?]

end CubePattern

namespace Encoding

variable {e : Encoding}

/-! ## Where gathering stops -/

/-- The variable is in none of the orders. -/
def Unknown (e : Encoding) (v : Variable) : Prop :=
  v ∉ e.rows.vars ∧ v ∉ e.cols.vars ∧ ∀ order, e.choices = some order → v ∉ order.vars

/-- Two literals of the cube fix the same bit, to opposite values. -/
def Contradicts (e : Encoding) (cube : List Literal) : Prop :=
  ∃ k ∈ cube, ∃ l ∈ cube, ∃ place, e.locate? k.var = some place ∧ e.locate? l.var = some place ∧
    k.positive ≠ l.positive

theorem locate?_eq_none_iff {v : Variable} : e.locate? v = none ↔ e.Unknown v := by
  rw [Unknown, ← VariableOrder.bit?_eq_none_iff, ← VariableOrder.bit?_eq_none_iff, locate?]
  cases e.rows.bit? v with
  | some bit => simp
  | none =>
    cases e.cols.bit? v with
    | some bit => simp
    | none =>
      cases e.choices with
      | none => simp
      | some order => simp [VariableOrder.bit?_eq_none_iff]

theorem not_unknown_of_isSome {v : Variable} (h : (e.locate? v).isSome = true) : ¬ e.Unknown v := by
  intro hunknown
  rw [locate?_eq_none_iff.2 hunknown] at h
  cases h

theorem Contradicts.mono {cube cube' : List Literal} (h : e.Contradicts cube) (hsub : cube ⊆ cube') :
    e.Contradicts cube' := by
  obtain ⟨k, hk, l, hl, hplaces⟩ := h
  exact ⟨k, hsub hk, l, hsub hl, hplaces⟩

theorem restrict_append {p q : CubePattern} {before : List Literal}
    (h : e.restrict p before = .ok (some q)) (after : List Literal) :
    e.restrict p (before ++ after) = e.restrict q after := by
  induction before generalizing p with
  | nil =>
    cases h
    rfl
  | cons l rest ih =>
    rw [List.cons_append, restrict]
    rw [restrict] at h
    cases hplace : e.locate? l.var with
    | none =>
      rw [hplace] at h
      cases h
    | some place =>
      rw [hplace] at h
      dsimp only at h ⊢
      cases hfix : p.fix place.1 place.2 l.positive with
      | none =>
        rw [hfix] at h
        cases h
      | some p' =>
        rw [hfix] at h
        exact ih h

/-- Gathering comes to the end of the cube, or stops at the first literal that cannot be gathered. -/
theorem restrict_cases (e : Encoding) (p : CubePattern) (cube : List Literal) :
    (∃ q, e.restrict p cube = .ok (some q)) ∨
    ∃ before l after q, cube = before ++ l :: after ∧ e.restrict p before = .ok (some q) ∧
      (e.locate? l.var = none ∧ e.restrict p cube = .error (.unknownVariable l.var) ∨
        ∃ component bit, e.locate? l.var = some (component, bit) ∧
          q.fix component bit l.positive = none ∧ e.restrict p cube = .ok none) := by
  induction cube generalizing p with
  | nil => exact Or.inl ⟨p, rfl⟩
  | cons l rest ih =>
    rw [restrict]
    cases hplace : e.locate? l.var with
    | none => exact Or.inr ⟨[], l, rest, p, rfl, rfl, Or.inl ⟨hplace, rfl⟩⟩
    | some place =>
      obtain ⟨component, bit⟩ := place
      dsimp only
      cases hfix : p.fix component bit l.positive with
      | none => exact Or.inr ⟨[], l, rest, p, rfl, rfl, Or.inr ⟨component, bit, hplace, hfix, rfl⟩⟩
      | some p' =>
        rcases ih p' with hend | ⟨before, k, after, q, rfl, hbefore, hstop⟩
        · exact Or.inl hend
        · refine Or.inr ⟨l :: before, k, after, q, rfl, ?_, hstop⟩
          rw [restrict, hplace]
          dsimp only
          rw [hfix]
          exact hbefore

/-- A bit is fixed in the end exactly if it was so in the beginning, or some literal fixes it. -/
theorem fixed?_of_restrict {p q : CubePattern} (hp : p.Within e) {cube : List Literal}
    (h : e.restrict p cube = .ok (some q)) {component : Component} {bit : Nat} {value : Bool} :
    q.fixed? component bit = some value ↔ p.fixed? component bit = some value ∨
      ∃ l ∈ cube, e.locate? l.var = some (component, bit) ∧ l.positive = value := by
  induction cube generalizing p with
  | nil =>
    cases h
    simp
  | cons l rest ih =>
    rw [restrict] at h
    cases hplace : e.locate? l.var with
    | none =>
      rw [hplace] at h
      cases h
    | some place =>
      rw [hplace] at h
      dsimp only at h
      cases hfix : p.fix place.1 place.2 l.positive with
      | none =>
        rw [hfix] at h
        cases h
      | some p' =>
        rw [hfix] at h
        rw [ih (CubePattern.within_of_fix hp (locate?_lt hplace) hfix) h,
          CubePattern.fixed?_of_fix hp hfix, List.exists_mem_cons_iff, hplace, Option.some.injEq]
        constructor
        · rintro ((⟨hat, rfl⟩ | hbefore) | hrest)
          · exact Or.inr (Or.inl ⟨hat.symm, rfl⟩)
          · exact Or.inl hbefore
          · exact Or.inr (Or.inr hrest)
        · rintro (hbefore | ⟨hat, rfl⟩ | hrest)
          · exact Or.inl (Or.inr hbefore)
          · exact Or.inl (Or.inl ⟨hat.symm, rfl⟩)
          · exact Or.inr hrest

/-- The bits that a cube fixes are those of its literals. -/
theorem fixed?_of_patterns {cube : List Literal} {p : CubePattern}
    (h : e.patterns cube = .ok (some p)) {component : Component} {bit : Nat} {value : Bool} :
    p.fixed? component bit = some value ↔
      ∃ l ∈ cube, e.locate? l.var = some (component, bit) ∧ l.positive = value := by
  rw [fixed?_of_restrict (CubePattern.within_free e) h, CubePattern.fixed?_free]
  simp

/-- A literal that cannot be fixed contradicts one before it. -/
theorem contradicts_of_fix_eq_none {before : List Literal} {l : Literal} {q : CubePattern}
    (hbefore : e.patterns before = .ok (some q)) {component : Component} {bit : Nat}
    (hplace : e.locate? l.var = some (component, bit)) (hfix : q.fix component bit l.positive = none) :
    e.Contradicts (before ++ [l]) := by
  obtain ⟨k, hk, hkplace, hkvalue⟩ :=
    (fixed?_of_patterns hbefore).1 (CubePattern.fixed?_of_fix_eq_none hfix)
  refine ⟨k, by simp [hk], l, by simp, _, hkplace, hplace, ?_⟩
  rw [hkvalue]
  cases l.positive <;> decide

/-! ## Cubes that are gathered to the end -/

/-- The literals of a cube that some transition satisfies say what bits the transition has. -/
theorem exists_place_of_satisfies {src choice dst : Nat} {cube : List Literal}
    (h : e.Satisfies src choice dst cube) {l : Literal} (hl : l ∈ cube) :
    ∃ place, e.locate? l.var = some place ∧
      (place.1.number src choice dst).testBit place.2 = l.positive := by
  have hfind := h l hl
  rw [find?_literals] at hfind
  obtain ⟨place, hplace, heq⟩ := Option.map_eq_some_iff.1 hfind
  exact ⟨place, hplace, congrArg Literal.positive heq⟩

/-- A cube is gathered to the end exactly if all its variables are known and no two of its literals
contradict each other. -/
theorem exists_patterns_iff {cube : List Literal} : (∃ p, e.patterns cube = .ok (some p)) ↔
    (∀ l ∈ cube, ¬ e.Unknown l.var) ∧ ¬ e.Contradicts cube := by
  constructor
  · rintro ⟨p, hp⟩
    -- the fixed bits themselves make up a transition that satisfies the cube
    have hsat := (agrees_iff_satisfies hp p.row.value p.choice.value p.col.value).1 ⟨rfl, rfl, rfl⟩
    constructor
    · intro l hl hunknown
      obtain ⟨place, hplace, _⟩ := exists_place_of_satisfies hsat hl
      rw [locate?_eq_none_iff.2 hunknown] at hplace
      cases hplace
    · rintro ⟨k, hk, l, hl, place, hkplace, hlplace, hne⟩
      obtain ⟨place', hplace', hbit⟩ := exists_place_of_satisfies hsat hk
      obtain ⟨place'', hplace'', hbit'⟩ := exists_place_of_satisfies hsat hl
      obtain rfl := Option.some.inj (hkplace.symm.trans hplace')
      obtain rfl := Option.some.inj (hlplace.symm.trans hplace'')
      exact hne (hbit.symm.trans hbit')
  · rintro ⟨hknown, hconsistent⟩
    rcases restrict_cases e .free cube with
      hend | ⟨before, l, after, q, rfl, hbefore, ⟨hplace, _⟩ | ⟨component, bit, hplace, hfix, _⟩⟩
    · exact hend
    · exact absurd (locate?_eq_none_iff.1 hplace) (hknown l (by simp))
    · exact absurd ((contradicts_of_fix_eq_none hbefore hplace hfix).mono (by simp)) hconsistent

/-! ## Cubes that come to an unknown variable -/

/-- Gathering comes to a literal with an unknown variable: nothing before it contradicts itself. -/
def ReachesUnknown (e : Encoding) (cube : List Literal) : Prop :=
  ∃ before l after, cube = before ++ l :: after ∧ e.Unknown l.var ∧ ¬ e.Contradicts before

theorem ReachesUnknown.exists_unknown {cube : List Literal} (h : e.ReachesUnknown cube) :
    ∃ l ∈ cube, e.Unknown l.var := by
  obtain ⟨before, l, after, rfl, hunknown, _⟩ := h
  exact ⟨l, by simp, hunknown⟩

/-- Without contradictions, an unknown variable is come to wherever it stands. -/
theorem reachesUnknown_iff {cube : List Literal} (h : ¬ e.Contradicts cube) :
    e.ReachesUnknown cube ↔ ∃ l ∈ cube, e.Unknown l.var := by
  constructor
  · exact ReachesUnknown.exists_unknown
  · rintro ⟨l, hl, hunknown⟩
    obtain ⟨before, after, rfl⟩ := List.append_of_mem hl
    exact ⟨before, l, after, rfl, hunknown, fun hbefore => h (hbefore.mono (by simp))⟩

theorem restrict_of_unknown {p q : CubePattern} {before after : List Literal} {l : Literal}
    (h : e.restrict p before = .ok (some q)) (hunknown : e.Unknown l.var) :
    e.restrict p (before ++ l :: after) = .error (.unknownVariable l.var) := by
  rw [restrict_append h, restrict, locate?_eq_none_iff.2 hunknown]

/-- An unknown variable is the only reason for a cube to fail. -/
theorem exists_patterns_eq_error_iff {cube : List Literal} :
    (∃ err, e.patterns cube = .error err) ↔ e.ReachesUnknown cube := by
  constructor
  · rintro ⟨err, herr⟩
    rcases restrict_cases e .free cube with
      ⟨q, hend⟩ | ⟨before, l, after, q, rfl, hbefore, ⟨hplace, _⟩ | ⟨_, _, _, _, hnone⟩⟩
    · cases hend.symm.trans herr
    · exact ⟨before, l, after, rfl, locate?_eq_none_iff.1 hplace,
        (exists_patterns_iff.1 ⟨q, hbefore⟩).2⟩
    · cases hnone.symm.trans herr
  · rintro ⟨before, l, after, rfl, hunknown, hconsistent⟩
    rcases restrict_cases e .free before with
      ⟨q, hend⟩ | ⟨earlier, k, rest, q, rfl, hearlier, ⟨hplace, _⟩ | ⟨component, bit, hplace, hfix, _⟩⟩
    · exact ⟨_, restrict_of_unknown hend hunknown⟩
    · -- an earlier literal has an unknown variable as well, and is come to first
      rw [List.append_assoc, List.cons_append]
      exact ⟨_, restrict_of_unknown hearlier (locate?_eq_none_iff.1 hplace)⟩
    · exact absurd ((contradicts_of_fix_eq_none hearlier hplace hfix).mono (by simp)) hconsistent

theorem error_of_patterns {cube : List Literal} {err : Error} (h : e.patterns cube = .error err) :
    ∃ v, err = .unknownVariable v := by
  rcases restrict_cases e .free cube with
    ⟨q, hend⟩ | ⟨_, l, _, _, _, _, ⟨_, herr⟩ | ⟨_, _, _, _, hnone⟩⟩
  · cases hend.symm.trans h
  · exact ⟨l.var, Except.error.inj (h.symm.trans herr)⟩
  · cases hnone.symm.trans h

end Encoding

end TransitionMatrix
