import TransitionMatrix.Arithmetic

/-!
# Words

Offsets and counts are kept in words of 64 bits. A sum that needs more bits loses them and starts
again at zero, and a difference below zero goes on from the largest word. Nothing reports either.
-/

namespace TransitionMatrix

namespace Word

/-- The number of words: one more than the largest. -/
def size : Nat := 2 ^ 64

/-- The sum of two words. -/
def add (a b : Nat) : Nat := (a + b) % size

/-- The difference of two words. -/
def sub (a b : Nat) : Nat := (size - b + a) % size

/-- The sum of words, added to `start` from left to right. -/
def sum (start : Nat) (words : List Nat) : Nat := words.foldl add start

/-! ## Sums that fit -/

theorem add_lt (a b : Nat) : add a b < size := Nat.mod_lt _ (by decide)

/-- A sum is never larger than the numbers together. -/
theorem add_le (a b : Nat) : add a b ≤ a + b := Nat.mod_le _ _

theorem add_eq {a b : Nat} (h : a + b < size) : add a b = a + b := Nat.mod_eq_of_lt h

/-- A sum that is not below the first of two words fits. -/
theorem fits_of_le_add {a b : Nat} (hb : b < size) (hle : a ≤ add a b) : a + b < size := by
  refine Nat.lt_of_not_le fun hover => ?_
  have hsplit : a + b = a + b - size + size := by omega
  have hadd : add a b ≤ a + b - size := by
    rw [add, hsplit, Nat.add_mod_right, Nat.add_sub_cancel]
    exact Nat.mod_le _ _
  omega

theorem sub_lt (a b : Nat) : sub a b < size := Nat.mod_lt _ (by decide)

theorem sub_eq {a b : Nat} (hle : b ≤ a) (hlt : a < size) : sub a b = a - b := by
  have hsplit : size - b + a = a - b + size := by omega
  rw [sub, hsplit, Nat.add_mod_right, Nat.mod_eq_of_lt (by omega)]

/-- The difference finds the number that was added, whether or not the sum fits. -/
theorem sub_add {a b : Nat} (ha : a < size) (hb : b < size) : sub (add a b) a = b := by
  by_cases hfit : a + b < size
  · rw [add_eq hfit, sub_eq (Nat.le_add_right a b) hfit, Nat.add_sub_cancel_left]
  · have hadd : add a b = a + b - size := by
      rw [add, Nat.mod_eq_sub_mod (by omega), Nat.mod_eq_of_lt (by omega)]
    have hsplit : size - a + (a + b - size) = b := by omega
    rw [hadd, sub, hsplit, Nat.mod_eq_of_lt hb]

@[simp] theorem sum_nil (start : Nat) : sum start [] = start := rfl

@[simp] theorem sum_cons (start word : Nat) (words : List Nat) :
    sum start (word :: words) = sum (add start word) words := rfl

theorem sum_append (start : Nat) (words later : List Nat) :
    sum start (words ++ later) = sum (sum start words) later :=
  List.foldl_append

theorem sum_eq {start : Nat} {words : List Nat} (h : start + words.sum < size) :
    sum start words = start + words.sum := by
  induction words generalizing start with
  | nil => simp
  | cons word rest ih =>
    rw [List.sum_cons, ← Nat.add_assoc] at h
    rw [sum_cons, add_eq (by omega), ih h, List.sum_cons, Nat.add_assoc]

theorem sum_lt {start : Nat} {words : List Nat} (h : start < size) : sum start words < size := by
  induction words generalizing start with
  | nil => exact h
  | cons word rest ih =>
    rw [sum_cons]
    exact ih (add_lt start word)

/-- Of numbers that add up to a word each one is a word. -/
theorem lt_of_sum_lt {words : List Nat} (h : words.sum < size) : ∀ word ∈ words, word < size := by
  induction words with
  | nil => simp
  | cons word rest ih =>
    rw [List.sum_cons] at h
    rw [List.forall_mem_cons]
    exact ⟨by omega, ih (by omega)⟩

/-- A sum of words is the sum of the numbers exactly if that is a word. -/
theorem sum_eq_iff {words : List Nat} : sum 0 words = words.sum ↔ words.sum < size := by
  constructor
  · intro h
    rw [← h]
    exact sum_lt (by decide)
  · intro h
    rw [sum_eq (by omega), Nat.zero_add]

end Word

end TransitionMatrix
