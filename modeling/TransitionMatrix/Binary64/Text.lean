import TransitionMatrix.Binary64
import TransitionMatrix.Decimal.Layout

/-!
# Binary64 numbers in writing

A weight is written with the fewest digits that read back as the same number, in positional
notation at every size: whole numbers have no point, and the negative zero keeps its sign. Amounts
are written with a fixed number of places instead, rounded from the exact value.
-/

namespace TransitionMatrix

namespace Binary64

def signText (w : Binary64) : String := if w.isNegative then "-" else ""

/-- The fewest digits that read back, never with an exponent. -/
def text (w : Binary64) : String :=
  if w.isNaN then "NaN"
  else if w.isInfinite then w.signText ++ "inf"
  else if w.isZero then w.signText ++ "0"
  else w.signText ++ (Decimal.shortest w.significand w.exponent w.narrowBelow).positional

/-- The exact value rounded to `places` digits after the point. -/
def fixedText (w : Binary64) (places : Nat) : String :=
  if w.isNaN then "NaN"
  else if w.isInfinite then w.signText ++ "inf"
  else w.signText ++
    Decimal.fixed (w.significand * 2 ^ w.exponent.toNat) (2 ^ (-w.exponent).toNat) places

end Binary64

end TransitionMatrix
