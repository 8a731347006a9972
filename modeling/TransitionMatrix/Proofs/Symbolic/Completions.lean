import Mathlib.Data.List.Sort
import Mathlib.Logic.Function.Iterate
import TransitionMatrix.Proofs.Symbolic.BitPattern
import TransitionMatrix.Symbolic.Completions

/-!
# The numbers that are gone through

What is left to be gone through are the numbers with the ones to be filled in next or larger ones, in
increasing order: counting up skips none of them and ends with the largest. From the start, these are
the numbers that agree with the pattern.
-/

namespace TransitionMatrix

namespace Completions

/-! ## Asking for one number after another -/

/-- What is left after a number of calls. -/
def after (c : Completions) (calls : Nat) : Completions := (fun c => c.next.2)^[calls] c

theorem after_succ (c : Completions) (calls : Nat) : c.after (calls + 1) = c.next.2.after calls :=
  Function.iterate_succ_apply _ _ _

/-- Where no number is left, a call changes nothing. -/
theorem next_of_none {c : Completions} (h : c.ones? = none) : c.next = (none, c) := by
  unfold next
  split
  · rfl
  · rename_i ones hones
    rw [hones] at h
    cases h

theorem next_of_some {c : Completions} {ones : UInt64} (h : c.ones? = some ones) :
    ∃ rest, c.next = (some (c.value ||| ones).toNat, rest) ∧ rest.free = c.free ∧
      rest.value = c.value ∧ rest.ones? = countUp? c.free ones := by
  unfold next
  split
  · rename_i hnone
    rw [hnone] at h
    cases h
  · rename_i ones' hones
    rw [hones] at h
    cases h
    exact ⟨_, rfl, rfl, rfl, rfl⟩

theorem toList_of_none {c : Completions} (h : c.ones? = none) : c.toList = [] := by
  rw [toList, next_of_none h]

theorem toList_of_next {c rest : Completions} {n : Nat} (h : c.next = (some n, rest)) :
    c.toList = n :: rest.toList := by
  rw [toList]
  split
  · rename_i hnone
    rw [hnone] at h
    cases h
  · rename_i hsome
    rw [hsome] at h
    cases h
    rfl

/-- Calls give the numbers that are left, and nothing when there are no more. -/
theorem next_after (c : Completions) (calls : Nat) : (c.after calls).next.1 = c.toList[calls]? := by
  induction calls generalizing c with
  | zero =>
    show c.next.1 = _
    cases hones : c.ones? with
    | none => rw [next_of_none hones, toList_of_none hones, List.getElem?_nil]
    | some ones =>
      obtain ⟨rest, hnext, _⟩ := next_of_some hones
      rw [hnext, toList_of_next hnext, List.getElem?_cons_zero]
  | succ calls ih =>
    rw [after_succ, ih]
    cases hones : c.ones? with
    | none => rw [next_of_none hones, toList_of_none hones, List.getElem?_nil, List.getElem?_nil]
    | some ones =>
      obtain ⟨rest, hnext, _⟩ := next_of_some hones
      rw [hnext, toList_of_next hnext, List.getElem?_cons_succ]

/-! ## What is left -/

/-- Going through the numbers, one call at a time: there is no number left, or one and then those that
are left after it. -/
@[elab_as_elim]
theorem induct {motive : Completions → Prop} (ended : ∀ c, c.ones? = none → motive c)
    (called : ∀ c ones rest, c.ones? = some ones →
      c.toList = (c.value ||| ones).toNat :: rest.toList → rest.free = c.free →
      rest.value = c.value → rest.ones? = countUp? c.free ones → motive rest → motive c)
    (c : Completions) : motive c := by
  induction c using toList.induct with
  | case1 c rest hnext =>
    refine ended c ?_
    cases hones : c.ones? with
    | none => rfl
    | some ones =>
      obtain ⟨_, hsome, _⟩ := next_of_some hones
      rw [hnext] at hsome
      cases hsome
  | case2 c n rest hnext ih =>
    cases hones : c.ones? with
    | none =>
      rw [next_of_none hones] at hnext
      cases hnext
    | some ones =>
      obtain ⟨_, hsome, hfree, hvalue, hrest⟩ := next_of_some hones
      rw [hnext] at hsome
      cases hsome
      exact called c ones rest hones (toList_of_next hnext) hfree hvalue hrest ih

/-- The numbers with the ones to be filled in next, or larger ones. -/
theorem mem_toList {c : Completions} {n : Nat} : n ∈ c.toList ↔ ∃ ones, c.ones? = some ones ∧
    ∃ filled, filled &&& c.free = filled ∧ ones.toNat ≤ filled.toNat ∧
      n = (c.value ||| filled).toNat := by
  induction c using induct with
  | ended c hnone => simp [toList_of_none hnone, hnone]
  | called c ones rest hones hlist hfree hvalue hrest ih =>
    have hwithin := c.ones_and_free ones hones
    rw [hlist, List.mem_cons, ih, hfree, hvalue, hrest, hones]
    constructor
    · rintro (rfl | ⟨other, hother, filled, hfilled, hle, rfl⟩)
      · exact ⟨ones, rfl, ones, hwithin, Nat.le_refl _, rfl⟩
      · obtain ⟨hlt, _⟩ := lt_of_countUp? hwithin hother
        exact ⟨ones, rfl, filled, hfilled, by omega, rfl⟩
    · rintro ⟨_, ⟨⟩, filled, hfilled, hle, rfl⟩
      rcases Nat.eq_or_lt_of_le hle with heq | hlt
      · rw [UInt64.toNat_inj.1 heq]
        exact Or.inl rfl
      · refine Or.inr ?_
        cases hother : countUp? c.free ones with
        | none =>
          -- there is nothing larger to be filled in
          have hmost := toNat_le_of_and hfilled
          rw [countUp?_eq_none_iff.1 hother] at hlt
          omega
        | some other =>
          obtain ⟨_, hleast⟩ := lt_of_countUp? hwithin hother
          exact ⟨other, rfl, filled, hfilled, hleast filled hfilled hlt, rfl⟩

theorem toNat_value_or {free value filled : UInt64} (hvalue : value &&& free = 0)
    (hfilled : filled &&& free = filled) :
    (value ||| filled).toNat = value.toNat + filled.toNat := by
  have hand : value.toBitVec &&& filled.toBitVec = 0#64 := by
    have hwords : value &&& filled = 0 := by
      rw [← hfilled, UInt64.and_comm filled, ← UInt64.and_assoc, hvalue, UInt64.zero_and]
    rw [← UInt64.toBitVec_and, hwords, UInt64.toBitVec_zero]
  have hsum := BitVec.toNat_add_of_and_eq_zero hand
  rw [BitVec.add_eq_or_of_and_eq_zero _ _ hand] at hsum
  exact hsum

/-- More ones filled in make a larger number, as all other bits are in other places. -/
theorem pairwise_toList {c : Completions} (hplaces : c.value &&& c.free = 0) :
    c.toList.Pairwise (· < ·) := by
  induction c using induct with
  | ended c hnone =>
    rw [toList_of_none hnone]
    exact List.Pairwise.nil
  | called c ones rest hones hlist hfree hvalue hrest ih =>
    have hwithin := c.ones_and_free ones hones
    rw [hlist, List.pairwise_cons]
    refine ⟨fun n hn => ?_, ih (by rw [hvalue, hfree, hplaces])⟩
    obtain ⟨other, hother, filled, hfilled, hle, rfl⟩ := mem_toList.1 hn
    rw [hrest] at hother
    rw [hfree] at hfilled
    obtain ⟨hlt, _⟩ := lt_of_countUp? hwithin hother
    rw [hvalue, toNat_value_or hplaces hwithin, toNat_value_or hplaces hfilled]
    omega

/-! ## From the start -/

section Start

variable {p : BitPattern} {width : Nat} (hp : p.Within width) (hwidth : width ≤ 63)

include hp hwidth

theorem toNat_value_start : (start p width).value.toNat = p.value := by
  have hlt : p.value < 2 ^ 64 :=
    Nat.lt_of_lt_of_le hp.value_lt (Nat.pow_le_pow_right (by omega) (by omega))
  exact UInt64.toNat_ofNat_of_lt' hlt

/-- The bits to be filled in are the low ones that are not fixed. -/
theorem testBit_free_start (b : Nat) :
    (start p width).free.toNat.testBit b = (decide (b < width) && !p.mask.testBit b) := by
  have hpow : 2 ^ width ≤ 2 ^ 63 := Nat.pow_le_pow_right (by omega) hwidth
  have hmask := (BitPattern.within_iff.1 hp).2
  have hsize : UInt64.size = 2 ^ 64 := rfl
  have hlow : (UInt64.ofNat (2 ^ width - 1)).toNat = 2 ^ width - 1 :=
    UInt64.toNat_ofNat_of_lt' (show _ < 2 ^ 64 by omega)
  have hfixed : (UInt64.ofNat p.mask).toNat = p.mask :=
    UInt64.toNat_ofNat_of_lt' (show _ < 2 ^ 64 by omega)
  show (~~~UInt64.ofNat p.mask &&& UInt64.ofNat (2 ^ width - 1)).toNat.testBit b = _
  rw [UInt64.toNat_and, UInt64.toNat_not, hlow, hfixed, Nat.testBit_and, Nat.testBit_two_pow_sub_one,
    hsize, show 2 ^ 64 - 1 - p.mask = 2 ^ 64 - (p.mask + 1) by omega,
    Nat.testBit_two_pow_sub_succ (by omega)]
  by_cases hb : b < width
  · simp [hb, show b < 64 by omega]
  · simp [hb]

theorem value_and_free_start : (start p width).value &&& (start p width).free = 0 := by
  refine UInt64.toNat_inj.1 (Nat.eq_of_testBit_eq fun b => ?_)
  rw [UInt64.toNat_and, Nat.testBit_and, toNat_value_start hp hwidth, testBit_free_start hp hwidth]
  cases hb : p.value.testBit b with
  | false => simp
  | true => simp [hp.mask_of_value b hb]

/-- Ones are filled in in the low places that are not fixed. -/
theorem testBit_filled {filled : UInt64} (hfilled : filled &&& (start p width).free = filled) {b : Nat}
    (hb : filled.toNat.testBit b = true) : b < width ∧ p.mask.testBit b = false := by
  rw [← toNat_and_toNat hfilled, Nat.testBit_and, Bool.and_eq_true,
    testBit_free_start hp hwidth b] at hb
  simpa using hb.2

/-- Filling in free bits of the value gives a number that agrees. -/
theorem agrees_of_filled {filled : UInt64} (hfilled : filled &&& (start p width).free = filled) :
    ((start p width).value ||| filled).toNat < 2 ^ width ∧
      p.Agrees ((start p width).value ||| filled).toNat := by
  rw [UInt64.toNat_or, toNat_value_start hp hwidth, BitPattern.agrees_iff]
  refine ⟨Nat.lt_pow_two_of_testBit _ fun b hb => ?_, fun b hb => ?_⟩
  · rw [Nat.testBit_or, Bool.or_eq_false_iff]
    have hpow : 2 ^ width ≤ 2 ^ b := Nat.pow_le_pow_right (by omega) hb
    refine ⟨Nat.testBit_lt_two_pow (Nat.lt_of_lt_of_le hp.value_lt hpow), ?_⟩
    by_contra hone
    obtain ⟨hlow, _⟩ := testBit_filled hp hwidth hfilled (by simpa using hone)
    omega
  · have hnone : filled.toNat.testBit b = false := by
      by_contra hone
      obtain ⟨_, hfree⟩ := testBit_filled hp hwidth hfilled (by simpa using hone)
      rw [hfree] at hb
      cases hb
    rw [Nat.testBit_or, hnone, Bool.or_false]

/-- A number that agrees is the value with its own free bits filled in. -/
theorem exists_filled {n : Nat} (hlt : n < 2 ^ width) (hagrees : p.Agrees n) :
    ∃ filled, filled &&& (start p width).free = filled ∧
      n = ((start p width).value ||| filled).toNat := by
  have hpow : 2 ^ width ≤ 2 ^ 63 := Nat.pow_le_pow_right (by omega) hwidth
  refine ⟨UInt64.ofNat n &&& (start p width).free, by rw [UInt64.and_assoc, UInt64.and_self], ?_⟩
  refine Nat.eq_of_testBit_eq fun b => ?_
  rw [UInt64.toNat_or, UInt64.toNat_and, toNat_value_start hp hwidth,
    UInt64.toNat_ofNat_of_lt' (show n < 2 ^ 64 by omega), Nat.testBit_or, Nat.testBit_and,
    testBit_free_start hp hwidth b]
  cases hm : p.mask.testBit b with
  | true =>
    rw [BitPattern.agrees_iff.1 hagrees b hm]
    simp
  | false =>
    have hv := hp.value_eq_false hm
    by_cases hb : b < width
    · simp [hv, hb]
    · have hhigh : 2 ^ width ≤ 2 ^ b := Nat.pow_le_pow_right (by omega) (by omega)
      simp [hv, hb, Nat.testBit_lt_two_pow (Nat.lt_of_lt_of_le hlt hhigh)]

end Start

end Completions

namespace BitPattern

/-- The completions are the numbers of the given width that agree, in increasing order. -/
theorem completions_eq_filter {p : BitPattern} {width : Nat} (hp : p.Within width)
    (hwidth : width ≤ 63) :
    p.completions width = (List.range (2 ^ width)).filter fun n => p.Agrees n := by
  refine List.Pairwise.eq_of_mem_iff
    (Completions.pairwise_toList (Completions.value_and_free_start hp hwidth))
    (List.Pairwise.filter _ List.pairwise_lt_range) fun n => ?_
  rw [List.mem_filter, List.mem_range, decide_eq_true_eq, completions, Completions.mem_toList]
  constructor
  · rintro ⟨_, _, filled, hfilled, _, rfl⟩
    exact Completions.agrees_of_filled hp hwidth hfilled
  · rintro ⟨hlt, hagrees⟩
    obtain ⟨filled, hfilled, hn⟩ := Completions.exists_filled hp hwidth hlt hagrees
    exact ⟨0, rfl, filled, hfilled, Nat.zero_le _, hn⟩

/-- Going through the numbers that agree with a pattern comes to an end. It gives all numbers of the
width that have the fixed bits of the pattern, each of them once and in increasing order, one for each
way to fill in the free bits; the calls after that give nothing, however many there are. -/
theorem completions_of_width {p : BitPattern} {width : Nat} (hp : p.Within width)
    (hwidth : width ≤ 63) :
    (∀ n, n ∈ p.completions width ↔ n < 2 ^ width ∧ n &&& p.mask = p.value) ∧
    (p.completions width).Pairwise (· < ·) ∧
    (p.completions width).length
      = 2 ^ ((List.range width).countP fun b => !p.mask.testBit b) ∧
    (∀ calls (h : calls < (p.completions width).length),
      ((Completions.start p width).after calls).next.1 = some (p.completions width)[calls]) ∧
    ∀ calls, (p.completions width).length ≤ calls →
      ((Completions.start p width).after calls).next.1 = none := by
  refine ⟨fun n => ?_, ?_, ?_, fun calls hcalls => ?_, fun calls hcalls => ?_⟩
  · rw [completions_eq_filter hp hwidth, List.mem_filter, List.mem_range, decide_eq_true_eq, Agrees,
      (within_iff.1 hp).1]
  · exact Completions.pairwise_toList (Completions.value_and_free_start hp hwidth)
  · rw [completions_eq_filter hp hwidth, length_filter_agrees hp]
  · rw [Completions.next_after]
    exact List.getElem?_eq_getElem hcalls
  · rw [Completions.next_after]
    exact List.getElem?_eq_none hcalls

/-- Only the first and the last of 63 bits are free. -/
def freeEnds : BitPattern := ⟨2 ^ 62 - 2, 2⟩

/-- The carry goes from the last bit to the first over the 61 bits between them. -/
theorem completions_of_freeEnds :
    freeEnds.completions 63 = [2, 3, 2 ^ 62 + 2, 2 ^ 62 + 3] ∧
    (freeEnds.completions 63).length = 2 ^ 2 ∧
    ((Completions.start freeEnds 63).after 3).next.1 = some (2 ^ 62 + 3) ∧
    ∀ calls, 4 ≤ calls → ((Completions.start freeEnds 63).after calls).next.1 = none := by
  have hwithin : freeEnds.Within 63 := within_iff.2 (by decide)
  have hlist : freeEnds.completions 63 = [2, 3, 2 ^ 62 + 2, 2 ^ 62 + 3] := by decide +kernel
  obtain ⟨_, _, hlength, hcalls, hended⟩ := completions_of_width hwithin (Nat.le_refl 63)
  have hcount : (freeEnds.completions 63).length = 2 ^ 2 := by rw [hlength]; decide
  refine ⟨hlist, hcount, ?_, fun calls h => hended calls (by omega)⟩
  rw [hcalls 3 (by omega)]
  simp only [hlist]
  rfl

end BitPattern

end TransitionMatrix
