import GraphQuery.Decimal.Shortest

/-!
# The text of a binary64 number

A number is written with the digits of its shortest decimal. From `10 ^ -4` up to `10 ^ 16` it is
written positionally, with at least one digit after the point; other numbers are written with an
exponent, as in `1e16` and `1.5e-5`.

## Main definitions

* `Layout`: which numbers are written positionally.
* `Binary64.text`: the text of a number.
-/

namespace GraphQuery

/-- Which decimals are written positionally: those whose leading digit stands at a power of ten
from `least` to `greatest`. -/
structure Layout where
  least : Int
  greatest : Int

namespace Layout

/-- The layout of floating-point values: positional from `10 ^ -4` up to, not including,
`10 ^ 16`. -/
def value : Layout := ⟨-4, 15⟩

/-- A decimal with a point and at least one digit on either side of it. -/
def positional (digits : List Char) (exponent : Int) : List Char :=
  if 0 ≤ exponent then digits ++ List.replicate exponent.toNat '0' ++ ['.', '0']
  else
    let places := (-exponent).toNat
    -- at least one digit stands before the point
    let padded := List.replicate (places + 1 - digits.length) '0' ++ digits
    padded.take (padded.length - places) ++ '.' :: padded.drop (padded.length - places)

/-- A decimal with one digit before the point and an exponent. -/
def scientific (digits : List Char) (leading : Int) : List Char :=
  let mantissa := match digits with
    | first :: second :: rest => first :: '.' :: second :: rest
    | short => short
  mantissa ++ 'e' :: (toString leading).toList

/-- The text of a decimal. -/
def write (layout : Layout) (d : Decimal) : List Char :=
  let digits := Nat.toDigits 10 d.digits
  let leading := d.exponent + (digits.length - 1 : Nat)
  if layout.least ≤ leading ∧ leading ≤ layout.greatest then positional digits d.exponent
  else scientific digits leading

end Layout

/-- The text of a binary64 number: `NaN`, `inf`, `0.0` or its shortest decimal, with a minus sign
before a negative number. -/
def Binary64.text (x : Binary64) : List Char :=
  if x.isNaN then "NaN".toList
  else
    let sign := if x.isNegative then ['-'] else []
    let body :=
      if x.isInfinite then "inf".toList
      else if x.isZero then "0.0".toList
      else Layout.value.write (Decimal.shortest x)
    sign ++ body

end GraphQuery
