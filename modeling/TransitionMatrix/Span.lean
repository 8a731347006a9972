import TransitionMatrix.Word

/-!
# Ranges of positions
-/

namespace TransitionMatrix

/-- The half-open range of positions `lo, lo + 1, …, hi - 1`. -/
structure Span where
  lo : Nat
  hi : Nat
deriving DecidableEq, Repr

namespace Span

/-- The number of positions; a range that ends before it begins has none. -/
def length (s : Span) : Nat := s.hi - s.lo

/-- The difference of the ends, as a word: the number of positions unless the range ends before it
begins. -/
def width (s : Span) : Nat := Word.sub s.hi s.lo

def positions (s : Span) : List Nat := List.range' s.lo s.length

@[simp] theorem mem_positions {s : Span} {j : Nat} : j ∈ s.positions ↔ s.lo ≤ j ∧ j < s.hi := by
  simp only [positions, length, List.mem_range'_1]
  omega

@[simp] theorem length_positions (s : Span) : s.positions.length = s.length := by
  simp [positions]

theorem width_eq_length {s : Span} (hle : s.lo ≤ s.hi) (hlt : s.hi < Word.size) :
    s.width = s.length := Word.sub_eq hle hlt

end Span

end TransitionMatrix
