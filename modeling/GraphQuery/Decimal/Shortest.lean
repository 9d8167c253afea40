import GraphQuery.Binary64.Basic

/-!
# Shortest decimals

The shortest decimal of a finite binary64 magnitude is, among the decimals that round to it, one
with the fewest digits, and among those the nearest to it; of two equally near ones it is the
greater.

The magnitudes that round to a given one form an interval around it, whose ends belong to it
exactly when the significand is even. On a grid of powers of ten only the two neighbours of the
magnitude have to be looked at: if any point of the grid lies in the interval, one of them does.

## Main definitions

* `Decimal`: a whole number scaled by a power of ten.
* `Decimal.shortest`: the shortest decimal of a positive finite magnitude.
-/

namespace GraphQuery

/-- The decimal `digits * 10 ^ exponent`. -/
structure Decimal where
  digits : Nat
  exponent : Int
  deriving DecidableEq, Repr

namespace Decimal

/-- The magnitudes that round to one binary64 magnitude, in quarters of a unit: from `low` through
`value` to `high`, with the ends if `closed`. -/
structure RoundingInterval where
  low : Nat
  value : Nat
  high : Nat
  closed : Bool

/-- The rounding interval of a finite magnitude. Below a power of two the next smaller magnitude
is only half as far away. -/
def RoundingInterval.around (x : Binary64) : RoundingInterval where
  low := 4 * x.units - (if x.fractionField = 0 ∧ 1 < x.exponentField then 1 else 2) * x.spacing
  value := 4 * x.units
  high := 4 * x.units + 2 * x.spacing
  closed := x.significand % 2 == 0

/-- The number of quarter units in one. -/
def quartersPerOne : Nat := 4 * Binary64.unitsPerOne

/-- Whether `num / den` quarter units lie in the interval. -/
def RoundingInterval.contains (i : RoundingInterval) (num den : Nat) : Bool :=
  if i.closed then i.low * den ≤ num && num ≤ i.high * den
  else i.low * den < num && num < i.high * den

/-- Whether a number of quarter units is at least `10 ^ exponent`. -/
def reaches (quarters : Nat) (exponent : Int) : Bool :=
  quartersPerOne * Nat.pow 10 exponent.toNat ≤ quarters * Nat.pow 10 (-exponent).toNat

/-- The greatest `e` for which `10 ^ e` does not exceed a positive number of quarter units.

For a leading bit at `2 ^ b` let `least` be `0.30103 * b`, rounded down. The number is at least
`10 ^ least` and less than `10 ^ (least + 2)`: the factor is the decimal logarithm of two to five
places, which is enough for all exponents of binary64. One comparison tells the two candidates
apart. -/
def leadingExponent (quarters : Nat) : Int :=
  let bits : Int := quarters.log2 - quartersPerOne.log2
  let least := bits * 30103 / 100000
  if reaches quarters (least + 1) then least + 1 else least

/-- The nearer one of the neighbours of the interval's value on the grid of multiples of
`10 ^ exponent`, if it lies in the interval. -/
def onGrid? (i : RoundingInterval) (exponent : Int) : Option Decimal :=
  -- a point `d` of the grid is `d * num / den` quarter units
  let num := quartersPerOne * Nat.pow 10 exponent.toNat
  let den := Nat.pow 10 (-exponent).toNat
  let below := i.value * den / num
  let above := below + 1
  let belowFits := i.contains (below * num) den
  let aboveFits := i.contains (above * num) den
  let belowNearer := 2 * (i.value * den - below * num) < num
  if belowFits && (belowNearer || !aboveFits) then some ⟨below, exponent⟩
  else if aboveFits then some ⟨above, exponent⟩
  else none

/-- The same decimal without zeros at the end of its digits. -/
def trimZeros : Nat → Decimal → Decimal
  | 0, d => d
  | fuel + 1, d =>
    if d.digits ≠ 0 ∧ d.digits % 10 = 0 then trimZeros fuel ⟨d.digits / 10, d.exponent + 1⟩ else d

/-- The most digits that the shortest decimal of a binary64 number needs. -/
def maxDigits : Nat := 17

/-- The shortest decimal of a positive finite magnitude. -/
def shortest (x : Binary64) : Decimal :=
  let interval := RoundingInterval.around x
  let leading := leadingExponent interval.value
  let candidate :=
    (List.range maxDigits).findSome? fun (n : Nat) => onGrid? interval (leading - n)
  trimZeros maxDigits (candidate.getD ⟨x.units, 0⟩)

end Decimal

end GraphQuery
