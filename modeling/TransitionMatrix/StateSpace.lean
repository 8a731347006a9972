import TransitionMatrix.Arithmetic
import TransitionMatrix.Bisect
import TransitionMatrix.Runs
import TransitionMatrix.Span
import TransitionMatrix.Text.Record
import TransitionMatrix.Violation

/-!
# State spaces

The reachable states of a model are bit vectors over its state variables, the first variable being
the most significant bit. A state space lists their encodings in increasing order, and the place of
an encoding in that list is the state's index: this is the order in which a walk through an
offset-labelled decision diagram, depth first, meets the states.
-/

namespace TransitionMatrix

/-- The reachable states over a number of bits. -/
structure StateSpace where
  /-- The number of bits of an encoding. -/
  numBits : Nat
  /-- The encodings, by index. -/
  states : Array Nat
  /-- Encodings are 63-bit numbers. -/
  numBits_le : numBits ≤ 63
  /-- Encodings are listed in increasing order, each one once. -/
  increasing : states.toList.Pairwise (· < ·)
  /-- Encodings fit their bits. -/
  lt_two_pow : ∀ s ∈ states.toList, s < 2 ^ numBits
deriving DecidableEq

namespace StateSpace

theorem le_last_of_increasing {xs : List Nat} (h : xs.Pairwise (· < ·)) :
    ∀ s ∈ xs, s ≤ xs.getLast?.getD 0 := by
  induction xs with
  | nil => simp
  | cons x xs ih =>
    obtain ⟨hx, hxs⟩ := List.pairwise_cons.1 h
    cases xs with
    | nil => simp
    | cons y ys =>
      have ih := ih hxs
      rw [List.getLast?_cons_cons]
      intro s hs
      rcases List.mem_cons.1 hs with rfl | hs
      · exact Nat.le_trans (Nat.le_of_lt (hx y List.mem_cons_self)) (ih y List.mem_cons_self)
      · exact ih s hs

/-- The state space of the given encodings, in any order and with repetitions. -/
def ofEncodings (numBits : Nat) (encodings : List Nat) : Except Violation StateSpace :=
  if hb : numBits ≤ 63 then
    let states := sortedDistinct encodings
    let largest := states.getLast?.getD 0
    if hl : largest < 2 ^ numBits then
      .ok ⟨numBits, states.toArray, hb, pairwise_sortedDistinct encodings, fun s hs =>
        Nat.lt_of_le_of_lt (le_last_of_increasing (pairwise_sortedDistinct encodings) s hs) hl⟩
    else .error (.stateTooWide largest numBits)
  else .error .tooManyBits

/-- The state space in which every encoding is reachable. -/
def full (numBits : Nat) : Except Violation StateSpace :=
  if numBits ≤ 63 then ofEncodings numBits (List.range (2 ^ numBits)) else .error .tooManyBits

variable (space : StateSpace)

def size : Nat := space.states.size

/-- The encoding of the state with the given index. -/
def state? (index : Nat) : Option Nat := space.states[index]?

/-- The index of the state with the given encoding, if it is reachable. -/
def indexOf? (encoding : Nat) : Option Nat :=
  let i := Bisect.partitionPoint space.states (· < encoding)
  if space.states[i]? = some encoding then some i else none

/-- The number of ones that lead the low `width` bits of a number. -/
def leadingOnes (n : Nat) : Nat → Nat
  | 0 => 0
  | width + 1 => if n.testBit width then leadingOnes n width + 1 else 0

/-- The range of indices of the states that agree with `value` in their first `fixed` bits. Bits of
`value` beyond the encoding count: with any of them set, no state agrees. -/
def agreeing (fixed value : Nat) : Span :=
  if fixed = 0 then ⟨0, space.size⟩
  else
    let shift := space.numBits - fixed
    ⟨Bisect.partitionPoint space.states fun s => decide (s >>> shift < value >>> shift),
      Bisect.partitionPoint space.states fun s => decide (s >>> shift ≤ value >>> shift)⟩

/-- The states that agree with `value` on the bits of `mask`, as pairs of index and encoding. The
fixed bits in front narrow the search to a range of indices; the others are checked state by
state. -/
def matching (mask value : Nat) : List (Nat × Nat) :=
  let mask := mask % 2 ^ space.numBits
  (space.agreeing (leadingOnes mask space.numBits) value).positions.filterMap fun i =>
    (space.state? i).bind fun s => if s &&& mask = value &&& mask then some (i, s) else none

def fieldText : String :=
  Text.record "Odd" [("num_bits", toString space.numBits), ("num_states", toString space.size)]

end StateSpace

end TransitionMatrix
