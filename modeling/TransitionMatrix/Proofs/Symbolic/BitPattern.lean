import Mathlib.Data.List.Basic
import TransitionMatrix.Symbolic.BitPattern

/-!
# Numbers that agree with a pattern

A number agrees with a pattern if it has the fixed bits of the pattern. Fixing one more bit leaves
the numbers that have that bit too. Of the numbers of a given width, one agrees for each way to fill
in the free bits.
-/

namespace TransitionMatrix

namespace BitPattern

/-- The number has the bits that the pattern fixes. -/
def Agrees (p : BitPattern) (n : Nat) : Prop := n &&& p.mask = p.value &&& p.mask

instance (p : BitPattern) (n : Nat) : Decidable (p.Agrees n) :=
  inferInstanceAs (Decidable (n &&& p.mask = p.value &&& p.mask))

theorem agrees_iff {p : BitPattern} {n : Nat} :
    p.Agrees n ↔ ∀ b, p.mask.testBit b = true → n.testBit b = p.value.testBit b := by
  constructor
  · intro h b hb
    have hbit := congrArg (fun x => x.testBit b) h
    simpa [Nat.testBit_and, hb] using hbit
  · intro h
    apply Nat.eq_of_testBit_eq
    intro b
    rw [Nat.testBit_and, Nat.testBit_and]
    cases hb : p.mask.testBit b with
    | false => simp
    | true => rw [h b hb]

/-- The fixed bits are among the low `width` bits, and the ones of the value among the fixed bits. -/
structure Within (p : BitPattern) (width : Nat) : Prop where
  /-- Only fixed bits are set. -/
  mask_of_value : ∀ b, p.value.testBit b = true → p.mask.testBit b = true
  /-- Only low bits are fixed. -/
  lt_width : ∀ b, p.mask.testBit b = true → b < width

theorem Within.value_eq_false {p : BitPattern} {width b : Nat} (hp : p.Within width)
    (hmask : p.mask.testBit b = false) : p.value.testBit b = false := by
  by_contra hne
  rw [hp.mask_of_value b (by simpa using hne)] at hmask
  cases hmask

theorem agrees_free (n : Nat) : free.Agrees n := by simp [Agrees, free]

theorem within_free (width : Nat) : free.Within width where
  mask_of_value := fun b hb => by simp [free] at hb
  lt_width := fun b hb => by simp [free] at hb

/-! ## Fixing a bit -/

section Fix

variable {p q : BitPattern} {width bit : Nat} {positive : Bool}

theorem testBit_or_two_pow (m bit b : Nat) :
    (m ||| 2 ^ bit).testBit b = (m.testBit b || decide (bit = b)) := by
  rw [Nat.testBit_or, Nat.testBit_two_pow]

/-- A fixed bit is the only change. -/
theorem fix_cases (h : p.fix bit positive = some q) :
    (p.mask.testBit bit = true ∧ p.value.testBit bit = positive ∧ q = p) ∨
    (p.mask.testBit bit = false ∧
      q = ⟨p.mask ||| 2 ^ bit, if positive then p.value ||| 2 ^ bit else p.value⟩) := by
  rw [fix] at h
  cases hm : p.mask.testBit bit with
  | true =>
    rw [hm, if_pos rfl] at h
    split at h
    · rename_i hv
      exact Or.inl ⟨rfl, hv, (Option.some.inj h).symm⟩
    · cases h
  | false =>
    rw [hm] at h
    exact Or.inr ⟨rfl, (Option.some.inj h).symm⟩

theorem within_of_fix (hp : p.Within width) (hbit : bit < width) (h : p.fix bit positive = some q) :
    q.Within width := by
  rcases fix_cases h with ⟨_, _, rfl⟩ | ⟨_, rfl⟩
  · exact hp
  · refine ⟨fun b hb => ?_, fun b hb => ?_⟩
    · show (p.mask ||| 2 ^ bit).testBit b = true
      rw [testBit_or_two_pow]
      by_cases heq : bit = b
      · simp [heq]
      · have hb' : p.value.testBit b = true := by
          cases positive with
          | false => exact hb
          | true =>
            have hor : (p.value ||| 2 ^ bit).testBit b = true := hb
            rw [testBit_or_two_pow] at hor
            simpa [heq] using hor
        rw [hp.mask_of_value b hb', Bool.true_or]
    · have hor : (p.mask ||| 2 ^ bit).testBit b = true := hb
      rw [testBit_or_two_pow, Bool.or_eq_true, decide_eq_true_eq] at hor
      rcases hor with hmask | rfl
      · exact hp.lt_width b hmask
      · exact hbit

/-- The numbers that agree with one more fixed bit are those that have it among those that agreed. -/
theorem agrees_of_fix (hp : p.Within width) (h : p.fix bit positive = some q) (n : Nat) :
    q.Agrees n ↔ p.Agrees n ∧ n.testBit bit = positive := by
  rcases fix_cases h with ⟨hm, hv, rfl⟩ | ⟨hm, rfl⟩
  · constructor
    · intro hq
      refine ⟨hq, ?_⟩
      rw [agrees_iff.1 hq bit hm, hv]
    · exact And.left
  · have hvalue := hp.value_eq_false hm
    have hbits : ∀ b, (if positive then p.value ||| 2 ^ bit else p.value).testBit b
        = if bit = b then positive else p.value.testBit b := by
      intro b
      by_cases heq : bit = b
      · subst heq
        cases positive <;> simp [hvalue]
      · cases positive <;> simp [heq]
    rw [agrees_iff, agrees_iff]
    simp only [testBit_or_two_pow, hbits, Bool.or_eq_true, decide_eq_true_eq]
    constructor
    · intro hq
      refine ⟨fun b hb => ?_, ?_⟩
      · have hne : bit ≠ b := by
          rintro rfl
          rw [hb] at hm
          cases hm
        simpa [hne] using hq b (Or.inl hb)
      · simpa using hq bit (Or.inr rfl)
    · rintro ⟨hq, hbit⟩ b hb
      by_cases heq : bit = b
      · subst heq
        simpa using hbit
      · rw [if_neg heq]
        exact hq b (hb.resolve_right heq)

/-- Where a bit cannot be fixed, the numbers that agree have the opposite bit. -/
theorem not_agrees_of_fix (h : p.fix bit positive = none) {n : Nat} (hn : p.Agrees n) :
    n.testBit bit ≠ positive := by
  rw [fix] at h
  split at h
  · rename_i hm
    split at h
    · cases h
    · rename_i hv
      rw [agrees_iff.1 hn bit hm]
      exact hv
  · cases h

end Fix

/-! ## How many numbers agree -/

/-- The number has the fixed bits below the given width. -/
def AgreesBelow (p : BitPattern) (width n : Nat) : Prop :=
  ∀ b < width, p.mask.testBit b = true → n.testBit b = p.value.testBit b

instance (p : BitPattern) (width n : Nat) : Decidable (p.AgreesBelow width n) :=
  inferInstanceAs (Decidable (∀ b < width, _))

theorem agreesBelow_succ_of_lt {p : BitPattern} {width n : Nat} (hn : n < 2 ^ width) :
    p.AgreesBelow (width + 1) n ↔
      p.AgreesBelow width n ∧ (p.mask.testBit width = true → p.value.testBit width = false) := by
  have htop : n.testBit width = false := Nat.testBit_lt_two_pow hn
  constructor
  · intro h
    refine ⟨fun b hb => h b (by omega), fun hm => ?_⟩
    rw [← h width (by omega) hm, htop]
  · rintro ⟨h, hlast⟩ b hb hm
    rcases Nat.lt_succ_iff_lt_or_eq.1 hb with hlt | rfl
    · exact h b hlt hm
    · rw [htop, hlast hm]

theorem agreesBelow_succ_add {p : BitPattern} {width n : Nat} (hn : n < 2 ^ width) :
    p.AgreesBelow (width + 1) (2 ^ width + n) ↔
      p.AgreesBelow width n ∧ (p.mask.testBit width = true → p.value.testBit width = true) := by
  have htop : (2 ^ width + n).testBit width = true := by
    rw [Nat.testBit_two_pow_add_eq, Nat.testBit_lt_two_pow hn]
    rfl
  constructor
  · intro h
    refine ⟨fun b hb hm => ?_, fun hm => ?_⟩
    · rw [← h b (by omega) hm, Nat.testBit_two_pow_add_gt hb]
    · rw [← h width (by omega) hm, htop]
  · rintro ⟨h, hlast⟩ b hb hm
    rcases Nat.lt_succ_iff_lt_or_eq.1 hb with hlt | rfl
    · rw [Nat.testBit_two_pow_add_gt hlt, h b hlt hm]
    · rw [htop, hlast hm]

theorem countP_and_const (P : Nat → Prop) [DecidablePred P] (Q : Prop) [Decidable Q]
    (ns : List Nat) : ns.countP (fun n => P n ∧ Q) = if Q then ns.countP fun n => P n else 0 := by
  by_cases hQ : Q <;> simp [hQ]

/-- Each free bit doubles the numbers that agree, and each fixed bit leaves as many as there were. -/
theorem countP_agreesBelow (p : BitPattern) (width : Nat) :
    (List.range (2 ^ width)).countP (fun n => p.AgreesBelow width n)
      = 2 ^ (List.range width).countP fun b => !p.mask.testBit b := by
  induction width with
  | zero => simp [AgreesBelow]
  | succ width ih =>
    -- the numbers of one more bit are those without it, and then those with it
    have hrange : List.range (2 ^ (width + 1))
        = List.range (2 ^ width) ++ (List.range (2 ^ width)).map (2 ^ width + ·) := by
      rw [Nat.pow_succ, Nat.mul_two, List.range_add]
    have hlow : (List.range (2 ^ width)).countP (fun n => p.AgreesBelow (width + 1) n)
        = if p.mask.testBit width = true → p.value.testBit width = false then
            2 ^ (List.range width).countP fun b => !p.mask.testBit b
          else 0 := by
      rw [← ih, ← countP_and_const]
      refine List.countP_congr fun n hn => ?_
      rw [decide_eq_true_eq, decide_eq_true_eq]
      exact agreesBelow_succ_of_lt (List.mem_range.1 hn)
    have hhigh : (List.range (2 ^ width)).countP (fun n => p.AgreesBelow (width + 1) (2 ^ width + n))
        = if p.mask.testBit width = true → p.value.testBit width = true then
            2 ^ (List.range width).countP fun b => !p.mask.testBit b
          else 0 := by
      rw [← ih, ← countP_and_const]
      refine List.countP_congr fun n hn => ?_
      rw [decide_eq_true_eq, decide_eq_true_eq]
      exact agreesBelow_succ_add (List.mem_range.1 hn)
    have hmap : ((List.range (2 ^ width)).map (2 ^ width + ·)).countP
        (fun n => p.AgreesBelow (width + 1) n)
        = (List.range (2 ^ width)).countP fun n => p.AgreesBelow (width + 1) (2 ^ width + n) :=
      List.countP_map
    rw [hrange, List.countP_append, hmap, hlow, hhigh, List.range_succ, List.countP_append,
      List.countP_singleton, Nat.pow_add]
    cases p.mask.testBit width <;> cases p.value.testBit width <;> simp [Nat.mul_two]

theorem agreesBelow_iff_agrees {p : BitPattern} {width : Nat} (hp : p.Within width) {n : Nat} :
    p.AgreesBelow width n ↔ p.Agrees n := by
  rw [agrees_iff]
  exact ⟨fun h b hb => h b (hp.lt_width b hb) hb, fun h b _ hb => h b hb⟩

/-- There is one number for each way to fill in the free bits. -/
theorem length_filter_agrees {p : BitPattern} {width : Nat} (hp : p.Within width) :
    ((List.range (2 ^ width)).filter fun n => p.Agrees n).length
      = 2 ^ (List.range width).countP fun b => !p.mask.testBit b := by
  rw [← countP_agreesBelow, ← List.countP_eq_length_filter]
  refine List.countP_congr fun n _ => ?_
  rw [decide_eq_true_eq, decide_eq_true_eq, agreesBelow_iff_agrees hp]

/-! ## Patterns as numbers -/

theorem within_iff {p : BitPattern} {width : Nat} :
    p.Within width ↔ p.value &&& p.mask = p.value ∧ p.mask < 2 ^ width := by
  constructor
  · rintro ⟨hvalue, hmask⟩
    refine ⟨Nat.eq_of_testBit_eq fun b => ?_, Nat.lt_pow_two_of_testBit _ fun b hb => ?_⟩
    · rw [Nat.testBit_and]
      cases hb : p.value.testBit b with
      | false => rfl
      | true => rw [hvalue b hb, Bool.true_and]
    · by_contra hne
      have := hmask b (by simpa using hne)
      omega
  · rintro ⟨hvalue, hmask⟩
    refine ⟨fun b hb => ?_, fun b hb => ?_⟩
    · rw [← hvalue, Nat.testBit_and, Bool.and_eq_true] at hb
      exact hb.2
    · by_contra hne
      have hpow : 2 ^ width ≤ 2 ^ b := Nat.pow_le_pow_right (by omega) (by omega)
      rw [Nat.testBit_lt_two_pow (Nat.lt_of_lt_of_le hmask hpow)] at hb
      cases hb

theorem Within.value_lt {p : BitPattern} {width : Nat} (hp : p.Within width) :
    p.value < 2 ^ width := by
  obtain ⟨hvalue, hmask⟩ := within_iff.1 hp
  rw [← hvalue]
  exact Nat.lt_of_le_of_lt Nat.and_le_right hmask

end BitPattern

end TransitionMatrix
