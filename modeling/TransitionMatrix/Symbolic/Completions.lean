import TransitionMatrix.Symbolic.BitPattern

/-!
# Filling in free bits

The numbers that agree with a pattern differ in the free bits only, and are gone through from the
smallest to the largest. The free bits count upwards as if there were no others: to subtract the word
that has ones in all free places is to add ones in all other places and one more, and these ones hand
the carry on from each free place to the next.
-/

namespace TransitionMatrix

namespace Completions

/-! ## Counting in some of the places -/

/-- The word after `ones`, of those with ones in the places of `free` only. The last of these is `free`
itself. -/
def countUp? (free ones : UInt64) : Option UInt64 :=
  if ones = free then none else some ((ones - free) &&& free)

/-- The ones of a number are among those of another if the lowest one is, and the others are. -/
theorem and_eq_self_iff_halves {c f : Nat} :
    c &&& f = c ↔ c / 2 &&& f / 2 = c / 2 ∧ c % 2 ≤ f % 2 := by
  have hdiv := @Nat.and_div_two c f
  have hmod := @Nat.and_mod_two_eq_one c f
  omega

/-- Ones in all other places leave the given places as they are. -/
theorem others_add_and {w f c : Nat} (hf : f < 2 ^ w) (hc : c &&& f = c) :
    (2 ^ w - 1 - f + c) &&& f = c := by
  induction w generalizing f c with
  | zero =>
    obtain rfl : f = 0 := by omega
    rw [← hc, Nat.and_zero, Nat.and_zero]
  | succ w ih =>
    obtain ⟨hhigh, hlow⟩ := and_eq_self_iff_halves.1 hc
    have hrest := ih (f := f / 2) (by omega) hhigh
    have hdiv := @Nat.and_div_two (2 ^ (w + 1) - 1 - f + c) f
    have hmod := @Nat.and_mod_two_eq_one (2 ^ (w + 1) - 1 - f + c) f
    have hhalf : (2 ^ (w + 1) - 1 - f + c) / 2 = 2 ^ w - 1 - f / 2 + c / 2 := by omega
    rw [hhalf, hrest] at hdiv
    omega

/-- One more than that is the next number with ones in the given places only. -/
theorem next_among {w f c : Nat} (hf : f < 2 ^ w) (hc : c &&& f = c) (hne : c ≠ f) :
    c < (2 ^ w - f + c) &&& f ∧ ∀ d, d &&& f = d → c < d → (2 ^ w - f + c) &&& f ≤ d := by
  induction w generalizing f c with
  | zero =>
    obtain rfl : f = 0 := by omega
    rw [Nat.and_zero] at hc
    exact absurd hc.symm hne
  | succ w ih =>
    obtain ⟨hhigh, hlow⟩ := and_eq_self_iff_halves.1 hc
    have hdiv := @Nat.and_div_two (2 ^ (w + 1) - f + c) f
    have hmod := @Nat.and_mod_two_eq_one (2 ^ (w + 1) - f + c) f
    by_cases hcarry : c % 2 = f % 2
    · -- the lowest place is full or not among the given ones, and the carry goes to the others
      obtain ⟨hlt, hleast⟩ := ih (f := f / 2) (by omega) hhigh (by omega)
      have hhalf : (2 ^ (w + 1) - f + c) / 2 = 2 ^ w - f / 2 + c / 2 := by omega
      rw [hhalf] at hdiv
      refine ⟨by omega, fun d hd hcd => ?_⟩
      obtain ⟨hdhigh, hdlow⟩ := and_eq_self_iff_halves.1 hd
      have := hleast (d / 2) hdhigh (by omega)
      omega
    · have hrest := others_add_and (f := f / 2) (w := w) (by omega) hhigh
      have hhalf : (2 ^ (w + 1) - f + c) / 2 = 2 ^ w - 1 - f / 2 + c / 2 := by omega
      rw [hhalf, hrest] at hdiv
      exact ⟨by omega, fun d _ hcd => by omega⟩

section CountUp

variable {free ones other : UInt64}

theorem toNat_and_toNat (h : ones &&& free = ones) : ones.toNat &&& free.toNat = ones.toNat := by
  rw [← UInt64.toNat_and, h]

theorem toNat_le_of_and (h : ones &&& free = ones) : ones.toNat ≤ free.toNat := by
  rw [← toNat_and_toNat h]
  exact Nat.and_le_right

theorem countUp?_eq_none_iff : countUp? free ones = none ↔ ones = free := by
  unfold countUp?
  split <;> simp_all

theorem and_of_countUp? (hnext : countUp? free ones = some other) : other &&& free = other := by
  unfold countUp? at hnext
  split at hnext
  · cases hnext
  · cases hnext
    rw [UInt64.and_assoc, UInt64.and_self]

/-- Counting up leads to the next word of those that are counted. -/
theorem lt_of_countUp? (h : ones &&& free = ones) (hnext : countUp? free ones = some other) :
    ones.toNat < other.toNat ∧
      ∀ later, later &&& free = later → ones.toNat < later.toNat → other.toNat ≤ later.toNat := by
  unfold countUp? at hnext
  split at hnext
  · cases hnext
  · rename_i hne
    have hne : ones.toNat ≠ free.toNat := fun heq => hne (UInt64.toNat_inj.1 heq)
    have hle := toNat_le_of_and h
    have hlt := free.toNat_lt
    have hvalue : other.toNat = (2 ^ 64 - free.toNat + ones.toNat) &&& free.toNat := by
      cases hnext
      rw [UInt64.toNat_and, UInt64.toNat_sub, Nat.mod_eq_of_lt (by omega)]
    obtain ⟨habove, hleast⟩ := next_among hlt (toNat_and_toNat h) hne
    rw [hvalue]
    exact ⟨habove, fun later hlater => hleast _ (toNat_and_toNat hlater)⟩

end CountUp

end Completions

/-! ## Going through the numbers -/

/-- How far the numbers that agree with a pattern have been gone through. -/
structure Completions where
  /-- Ones in the places that are filled in. -/
  free : UInt64
  /-- The bits in the other places. -/
  value : UInt64
  /-- The ones that are filled in for the next number, if there is a next number. -/
  ones? : Option UInt64
  /-- Ones are filled in in free places only. -/
  ones_and_free : ∀ ones ∈ ones?, ones &&& free = ones

namespace Completions

/-- Nothing is gone through yet. -/
def start (p : BitPattern) (width : Nat) : Completions where
  free := ~~~UInt64.ofNat p.mask &&& UInt64.ofNat (2 ^ width - 1)
  value := UInt64.ofNat p.value
  ones? := some 0
  ones_and_free := by
    rintro _ ⟨⟩
    exact UInt64.zero_and

/-- The next number, and what is left to be gone through. -/
def next (c : Completions) : Option Nat × Completions :=
  match c.ones? with
  | none => (none, c)
  | some ones =>
    (some (c.value ||| ones).toNat,
      { c with
        ones? := countUp? c.free ones
        ones_and_free := fun _ => and_of_countUp? })

/-- An upper bound for the number of numbers that are left. -/
def remaining (c : Completions) : Nat :=
  c.ones?.elim 0 fun ones => c.free.toNat + 1 - ones.toNat

theorem remaining_lt_of_next {c rest : Completions} {n : Nat} (h : c.next = (some n, rest)) :
    rest.remaining < c.remaining := by
  unfold next at h
  split at h
  · cases h
  · rename_i ones hones
    have hfree := c.ones_and_free ones hones
    have hle := toNat_le_of_and hfree
    have hremaining : c.remaining = c.free.toNat + 1 - ones.toNat := by
      rw [remaining, hones, Option.elim_some]
    cases h
    rw [hremaining]
    show (countUp? c.free ones).elim 0 (fun ones => c.free.toNat + 1 - ones.toNat)
      < c.free.toNat + 1 - ones.toNat
    cases hnext : countUp? c.free ones with
    | none =>
      show 0 < c.free.toNat + 1 - ones.toNat
      omega
    | some other =>
      obtain ⟨hlt, _⟩ := lt_of_countUp? hfree hnext
      show c.free.toNat + 1 - other.toNat < c.free.toNat + 1 - ones.toNat
      omega

/-- All numbers that are left. -/
def toList (c : Completions) : List Nat :=
  match _h : c.next with
  | (none, _) => []
  | (some n, rest) => n :: rest.toList
termination_by c.remaining
decreasing_by exact remaining_lt_of_next _h

end Completions

/-- The numbers of `width` bits that agree with the pattern, in increasing order. -/
def BitPattern.completions (p : BitPattern) (width : Nat) : List Nat :=
  (Completions.start p width).toList

end TransitionMatrix
