import TransitionMatrix.Decimal.Shortest

/-!
# Decimal numbers in writing

Two layouts: the positional one writes every digit a decimal has and no more, never with an
exponent; the fixed one rounds an exact quotient to a given number of places, a half going to the
even neighbour.
-/

namespace TransitionMatrix

namespace Decimal

/-- The last `places` decimal digits of `n`, zeros included. -/
def lastDigits (n : Nat) : Nat → List Char
  | 0 => []
  | places + 1 => lastDigits (n / 10) places ++ [Nat.digitChar (n % 10)]

/-- A list of digits without the zeros at its end. -/
def dropZeros (digits : List Char) : List Char := (digits.reverse.dropWhile (· = '0')).reverse

/-- All digits of the number and no exponent; a whole number has no decimal point. -/
def positional (x : Decimal) : String :=
  if 0 ≤ x.exponent then toString (x.digits * 10 ^ x.exponent.toNat)
  else
    let places := (-x.exponent).toNat
    let whole := toString (x.digits / 10 ^ places)
    match dropZeros (lastDigits x.digits places) with
    | [] => whole
    | fraction => whole ++ "." ++ String.ofList fraction

/-- The whole number nearest to `n / d`, the even one of two. -/
def roundDiv (n d : Nat) : Nat :=
  let q := n / d
  let r := n % d
  if 2 * r < d then q
  else if d < 2 * r then q + 1
  else if q % 2 = 0 then q
  else q + 1

/-- The quotient `n / d` with exactly `places` digits after the point. -/
def fixed (n d places : Nat) : String :=
  let scaled := roundDiv (n * 10 ^ places) d
  toString (scaled / 10 ^ places) ++ "." ++ String.ofList (lastDigits scaled places)

/-! ## First facts -/

@[simp] theorem length_lastDigits (n places : Nat) : (lastDigits n places).length = places := by
  induction places generalizing n with
  | zero => rfl
  | succ k ih => simp [lastDigits, ih]

end Decimal

end TransitionMatrix
