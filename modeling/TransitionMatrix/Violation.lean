/-!
# Violated conditions

Some values are meaningless whatever they are used for: a variable number zero, a state that does
not fit its bits. The functions that make such values check the condition once and report what was
violated; a value that was made satisfies it from then on.
-/

namespace TransitionMatrix

/-- A condition that a value under construction fails. -/
inductive Violation where
  /-- Zero is kept for terminals and numbers no variable. -/
  | zeroVariable
  /-- A signed literal carries its variable's number and a sign, so it is not zero. -/
  | zeroLiteral
  /-- States are enumerated over at most 63 bits. -/
  | tooManyBits
  /-- The largest of some states needs more bits than there are. -/
  | stateTooWide (state bits : Nat)
deriving DecidableEq, Repr

namespace Violation

/-- The condition in words. -/
def message : Violation → String
  | zeroVariable => "Variable IDs must be >= 1"
  | zeroLiteral => "Literal must be non-zero"
  | tooManyBits => "State encodings must have at most 63 bits"
  | stateTooWide state bits => s!"State {state} does not fit in {bits} bits"

end Violation

end TransitionMatrix
