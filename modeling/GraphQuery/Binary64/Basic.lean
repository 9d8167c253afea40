/-!
# Binary64 numbers

A binary64 number is a 64-bit word: a sign bit, an exponent of eleven bits and a fraction of
fifty-two bits. The word itself is the number here, so two numbers are equal exactly when their
bits are: the two zeros differ, and so do NaNs of different payloads.

Every finite magnitude is a whole number of *units* of `2 ^ -1074`, the least positive binary64
number. In units, arithmetic on finite numbers is arithmetic on natural numbers followed by one
rounding, and the words of magnitudes grow with the magnitudes themselves.

## Main definitions

* `Binary64`: the type of words.
* `Binary64.units`: a finite magnitude in units of `2 ^ -1074`.
* `Binary64.compare?`: numeric comparison, which fails on NaN and identifies the zeros.
* `Binary64.roundUnits`: the word of the magnitude nearest to a quotient of units.
-/

namespace GraphQuery

/-- A binary64 number, held as its 64-bit word. -/
structure Binary64 where
  bits : UInt64
  deriving DecidableEq, Inhabited

namespace Binary64

/-! ### Parts of a word -/

/-- The word with the sign bit alone. -/
def signBit : Nat := 0x8000000000000000

/-- The number of magnitudes with one exponent: a fraction has fifty-two bits. -/
def binadeSize : Nat := 0x10000000000000

/-- The word of positive infinity; a greater magnitude is a NaN. -/
def infinityMagnitude : Nat := 2047 * binadeSize

/-- The word without its sign bit. -/
def magnitude (x : Binary64) : Nat := x.bits.toNat % signBit

/-- Whether the sign bit is set. -/
def isNegative (x : Binary64) : Bool := signBit ≤ x.bits.toNat

def isNaN (x : Binary64) : Bool := infinityMagnitude < x.magnitude

def isInfinite (x : Binary64) : Bool := x.magnitude == infinityMagnitude

/-- Whether the number is one of the two zeros. -/
def isZero (x : Binary64) : Bool := x.magnitude == 0

/-- The number with the given sign and magnitude word. -/
def ofSignMagnitude (negative : Bool) (magnitude : Nat) : Binary64 :=
  ⟨UInt64.ofNat ((if negative then signBit else 0) + magnitude)⟩

def zero (negative : Bool) : Binary64 := ofSignMagnitude negative 0

def infinity (negative : Bool) : Binary64 := ofSignMagnitude negative infinityMagnitude

/-- A positive quiet NaN without payload. -/
def nan : Binary64 := ⟨0x7ff8000000000000⟩

/-- The number with the opposite sign; a NaN keeps its payload. -/
def neg (x : Binary64) : Binary64 := ofSignMagnitude (!x.isNegative) x.magnitude

/-! ### Units -/

/-- The exponent field of the word. -/
def exponentField (x : Binary64) : Nat := x.magnitude / binadeSize

/-- The fraction field of the word. -/
def fractionField (x : Binary64) : Nat := x.magnitude % binadeSize

/-- The distance, in units, from a finite magnitude to the next greater one. -/
def spacing (x : Binary64) : Nat := Nat.pow 2 (x.exponentField - 1)

/-- The fraction with the leading bit that a positive exponent implies. -/
def significand (x : Binary64) : Nat :=
  if x.exponentField = 0 then x.fractionField else binadeSize + x.fractionField

/-- A finite magnitude as a number of units of `2 ^ -1074`. -/
def units (x : Binary64) : Nat := x.significand * x.spacing

/-- A finite number as a signed number of units. -/
def signedUnits (x : Binary64) : Int := if x.isNegative then -x.units else x.units

/-! ### Comparison -/

/-- The magnitude with its sign; it orders all words but those of NaN numerically. -/
def signedMagnitude (x : Binary64) : Int :=
  if x.isNegative then -(x.magnitude : Int) else x.magnitude

/-- Numeric comparison: NaN compares with nothing, and the two zeros are equal. -/
def compare? (x y : Binary64) : Option Ordering :=
  if x.isNaN || y.isNaN then none else some (compare x.signedMagnitude y.signedMagnitude)

/-- Numeric equality: NaN equals nothing, and the two zeros are equal. -/
def numericEq (x y : Binary64) : Bool := x.compare? y == some .eq

/-! ### Rounding -/

/-- The whole number nearest to `num / den`; a half goes to the even neighbour. -/
def roundHalfEven (num den : Nat) : Nat :=
  let quotient := num / den
  let twice := 2 * (num % den)
  if twice < den then quotient
  else if den < twice then quotient + 1
  else quotient + quotient % 2

/-- The magnitude word nearest to `num / den` units, ties going to the even word. From the middle
between the greatest finite magnitude and the next power of two on, it is that of infinity.

With `53 + shift` bits before the point the quotient is rounded to a multiple of `2 ^ shift`, and
`shift` counts the exponent steps, so a carry out of the significand lands in the exponent. -/
def roundUnits (num den : Nat) : Nat :=
  let shift := (num / den).log2 - 52
  min (shift * binadeSize + roundHalfEven num (den * Nat.pow 2 shift)) infinityMagnitude

/-- The number of units in one. -/
def unitsPerOne : Nat := Nat.pow 2 1074

/-- The binary64 number nearest to an integer. -/
def ofInt (n : Int) : Binary64 :=
  ofSignMagnitude (n < 0) (roundUnits (n.natAbs * unitsPerOne) 1)

end Binary64

end GraphQuery
