import GraphQuery.Binary64.Basic

/-!
# Numerals

How a text is read as a number. An integer numeral is an optional sign and digits, and it has to
fit in 64 bits. A binary64 numeral is an optional sign followed by `inf`, `infinity` or `nan` in
any case, or by digits with an optional point among or beside them and an optional exponent; it
denotes the binary64 number nearest to the decimal.

## Main definitions

* `Numeral.int64?`: reads an integer.
* `Numeral.binary64?`: reads a binary64 number.
-/

namespace GraphQuery

namespace Numeral

/-- Splits a sign off a text; the flag tells whether it is a minus. -/
def splitSign : List Char → Bool × List Char
  | '-' :: rest => (true, rest)
  | '+' :: rest => (false, rest)
  | text => (false, text)

/-- The number that a non-empty list of digits denotes. -/
def natural? (text : List Char) : Option Nat :=
  if text.isEmpty || !text.all Char.isDigit then none else some (Nat.ofDigitChars 10 text 0)

/-- The integer that a sign and digits denote, if it fits in 64 bits. -/
def int64? (text : List Char) : Option Int64 := do
  let (negative, digits) := splitSign text
  let n ← natural? digits
  let i : Int := if negative then -n else n
  if Int64.minValue.toInt ≤ i ∧ i ≤ Int64.maxValue.toInt then some (Int64.ofInt i) else none

/-- The binary64 magnitude word nearest to `digits * 10 ^ exponent`. Decimals that are certain to
round to zero or to overflow are not computed. -/
def decimalMagnitude (digits : Nat) (exponent : Int) : Nat :=
  let leading := exponent + (Nat.toDigits 10 digits).length
  if digits = 0 ∨ leading < -330 then 0
  else if 310 < leading then Binary64.infinityMagnitude
  else
    Binary64.roundUnits (digits * Nat.pow 10 exponent.toNat * Binary64.unitsPerOne)
      (Nat.pow 10 (-exponent).toNat)

/-- The exponent that follows the digits of a decimal: nothing, or an `e` with a signed number. -/
def exponent? : List Char → Option Int
  | [] => some 0
  | e :: rest =>
    if e = 'e' ∨ e = 'E' then do
      let (negative, digits) := splitSign rest
      let n ← natural? digits
      some (if negative then -n else n)
    else none

/-- The magnitude word of an unsigned decimal. -/
def magnitude? (text : List Char) : Option Nat := do
  let whole := text.takeWhile Char.isDigit
  let rest := text.dropWhile Char.isDigit
  let (places, rest) := match rest with
    | '.' :: rest => (rest.takeWhile Char.isDigit, rest.dropWhile Char.isDigit)
    | rest => ([], rest)
  let digits ← natural? (whole ++ places)
  let exponent ← exponent? rest
  some (decimalMagnitude digits (exponent - places.length))

/-- The binary64 number that a text denotes. -/
def binary64? (text : List Char) : Option Binary64 :=
  let (negative, rest) := splitSign text
  let word := String.ofList (rest.map Char.toLower)
  if word = "inf" ∨ word = "infinity" then some (.infinity negative)
  else if word = "nan" then some (if negative then Binary64.nan.neg else Binary64.nan)
  else (magnitude? rest).map (Binary64.ofSignMagnitude negative)

end Numeral

end GraphQuery
