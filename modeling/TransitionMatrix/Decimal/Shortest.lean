import TransitionMatrix.Arithmetic

/-!
# Shortest decimals

A binary number `m · 2 ^ q` stands for every real that rounds to it. Among the decimals in that
interval the shortest ones are found by trying grids: with one digit, with two, and so on, the
grid's two points around the number are tested in exact natural-number arithmetic. The first grid
with a point in the interval is taken; of two such points the nearer one, and of two equally near
ones the larger.

Seventeen digits always suffice for a binary64 number, so the search is bounded by that.
-/

namespace TransitionMatrix

/-- The decimal number `digits · 10 ^ exponent`. -/
structure Decimal where
  /-- The digits, read as one natural number. -/
  digits : Nat
  /-- The power of ten of the last digit. -/
  exponent : Int
deriving DecidableEq, Repr

namespace Decimal

/-- The number of decimal digits of `n`; none for zero. -/
def digitCount (n : Nat) : Nat :=
  if h : n = 0 then 0 else digitCount (n / 10) + 1
termination_by n
decreasing_by exact Nat.div_lt_self (Nat.pos_of_ne_zero h) (by decide)

/-- The reals that round to one binary number: everything from `low / unit` to `high / unit`. -/
structure RoundingInterval where
  low : Nat
  value : Nat
  high : Nat
  unit : Nat
  /-- Whether the ends round to the number too. -/
  closed : Bool

namespace RoundingInterval

/-- The interval of `m · 2 ^ q`: half a gap to either side, where the gap below is a quarter unit
shorter when `narrow` is set. Ties go to the even significand, so the ends belong to the interval
when `m` is even. -/
def ofBinary (m : Nat) (q : Int) (narrow : Bool) : RoundingInterval :=
  let scale := 2 ^ (q - 2).toNat
  { low := (4 * m - (if narrow then 1 else 2)) * scale
    value := 4 * m * scale
    high := (4 * m + 2) * scale
    unit := 2 ^ (2 - q).toNat
    closed := m % 2 = 0 }

/-- Whether `d · 10 ^ p` lies in the interval. -/
def covers (i : RoundingInterval) (d : Nat) (p : Int) : Bool :=
  let point := d * 10 ^ p.toNat * i.unit
  let scale := 10 ^ (-p).toNat
  if i.closed then decide (i.low * scale ≤ point) && decide (point ≤ i.high * scale)
  else decide (i.low * scale < point) && decide (point < i.high * scale)

/-- The largest `d` for which `d · 10 ^ p` is not above the number. -/
def floorAt (i : RoundingInterval) (p : Int) : Nat :=
  i.value * 10 ^ (-p).toNat / (10 ^ p.toNat * i.unit)

/-- Whether the number lies below the middle between `d · 10 ^ p` and its successor. -/
def belowMiddle (i : RoundingInterval) (d : Nat) (p : Int) : Bool :=
  decide (2 * (i.value * 10 ^ (-p).toNat) < (2 * d + 1) * (10 ^ p.toNat * i.unit))

/-- The multiple of `10 ^ p` in the interval that is nearest to the number, if there is one. -/
def nearest? (i : RoundingInterval) (p : Int) : Option Decimal :=
  let d := i.floorAt p
  match i.covers d p, i.covers (d + 1) p with
  | true, true => some ⟨if i.belowMiddle d p then d else d + 1, p⟩
  | true, false => some ⟨d, p⟩
  | false, true => some ⟨d + 1, p⟩
  | false, false => none

/-- The least `k` for which the number is below `10 ^ k`. -/
def decade (i : RoundingInterval) : Int :=
  if i.unit ≤ i.value then digitCount (i.value / i.unit)
  else 1 - (digitCount ((i.unit + i.value - 1) / i.value - 1) : Nat)

/-- Tries the grid of `10 ^ p` and, `rest` times at most, the next finer one. -/
def search (i : RoundingInterval) : Nat → Int → Decimal
  | 0, p => ⟨i.floorAt p, p⟩
  | rest + 1, p => (i.nearest? p).getD (i.search rest (p - 1))

end RoundingInterval

/-- The shortest decimal that rounds to `m · 2 ^ q`, for a positive `m`. -/
def shortest (m : Nat) (q : Int) (narrow : Bool) : Decimal :=
  let i := RoundingInterval.ofBinary m q narrow
  i.search 17 (i.decade - 1)

end Decimal

end TransitionMatrix
