import GraphQuery.Binary64.Basic

/-!
# Arithmetic on binary64 numbers

Sum, difference, product and quotient are the exact result rounded once; the remainder is exact.
An operation on a NaN gives the first NaN operand, made quiet; an operation without a result
(`∞ - ∞`, `0 * ∞`, `0 / 0`, a remainder by zero) gives the invalid NaN.

## Main definitions

* `Binary64.add`, `Binary64.sub`, `Binary64.mul`, `Binary64.div`, `Binary64.rem`.
-/

namespace GraphQuery

namespace Binary64

/-- The NaN of an operation without a result. -/
def invalid : Binary64 := ⟨0xfff8000000000000⟩

/-- A NaN with its quiet bit set, sign and payload kept. -/
def quiet (x : Binary64) : Binary64 := ⟨x.bits ||| 0x0008000000000000⟩

/-- The NaN that two operands hand on, if one of them is a NaN. -/
def nanOperand? (x y : Binary64) : Option Binary64 :=
  if x.isNaN then some x.quiet else if y.isNaN then some y.quiet else none

/-- The sum of two operands that are not NaN. A sum of zero is negative only if both operands
are. -/
def addNumbers (x y : Binary64) : Binary64 :=
  if x.isInfinite then
    if y.isInfinite && x.isNegative != y.isNegative then invalid else x
  else if y.isInfinite then y
  else
    let sum := x.signedUnits + y.signedUnits
    if sum = 0 then zero (x.isNegative && y.isNegative)
    else ofSignMagnitude (sum < 0) (roundUnits sum.natAbs 1)

def add (x y : Binary64) : Binary64 := (nanOperand? x y).getD (addNumbers x y)

def sub (x y : Binary64) : Binary64 := (nanOperand? x y).getD (addNumbers x y.neg)

def mul (x y : Binary64) : Binary64 :=
  let negative := x.isNegative != y.isNegative
  (nanOperand? x y).getD <|
    if x.isInfinite || y.isInfinite then
      if x.isZero || y.isZero then invalid else infinity negative
    else ofSignMagnitude negative (roundUnits (x.units * y.units) unitsPerOne)

def div (x y : Binary64) : Binary64 :=
  let negative := x.isNegative != y.isNegative
  (nanOperand? x y).getD <|
    if x.isInfinite then
      if y.isInfinite then invalid else infinity negative
    else if y.isInfinite then zero negative
    else if y.isZero then
      if x.isZero then invalid else infinity negative
    else ofSignMagnitude negative (roundUnits (x.units * unitsPerOne) y.units)

/-- The remainder of the quotient truncated toward zero; it has the sign of the dividend. -/
def rem (x y : Binary64) : Binary64 :=
  (nanOperand? x y).getD <|
    if x.isInfinite || y.isZero then invalid
    else if y.isInfinite then x
    else ofSignMagnitude x.isNegative (roundUnits (x.units % y.units) 1)

end Binary64

end GraphQuery
