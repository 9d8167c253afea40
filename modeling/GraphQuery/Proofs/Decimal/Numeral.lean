import GraphQuery.Decimal.Numeral
import GraphQuery.Value.Text

/-!
# Integers are read back from their decimal text

## Main results

* `Numeral.int64?_intChars`: the text of an integer is read as this integer.
* `Value.intChars_inj`: different integers have different texts.
-/

namespace GraphQuery

namespace Value

/-- Whether a character stands in the text of an integer. -/
def isIntChar (c : Char) : Bool := c.isDigit || c == '-'

theorem isIntChar_of_mem_intChars {i : Int} {c : Char} (h : c ∈ intChars i) :
    isIntChar c = true := by
  have hdigit {n : Nat} (hc : c ∈ Nat.toDigits 10 n) : isIntChar c = true := by
    rw [isIntChar, Nat.isDigit_of_mem_toDigits (by decide) (by decide) hc, Bool.true_or]
  cases i with
  | ofNat n => exact hdigit h
  | negSucc n =>
    rcases List.mem_cons.1 h with rfl | h
    · rfl
    · exact hdigit h

/-- The text of an integer is not empty. -/
theorem exists_intChars_eq_cons (i : Int) : ∃ c rest, intChars i = c :: rest := by
  cases i with
  | ofNat n => exact List.exists_cons_of_ne_nil Nat.toDigits_ne_nil
  | negSucc n => exact ⟨_, _, rfl⟩

end Value

namespace Numeral

theorem natural?_toDigits (n : Nat) : natural? (Nat.toDigits 10 n) = some n := by
  have hdigits : (Nat.toDigits 10 n).all Char.isDigit = true :=
    List.all_eq_true.2 fun c hc => Nat.isDigit_of_mem_toDigits (by decide) (by decide) hc
  rw [natural?, List.isEmpty_eq_false_iff.2 Nat.toDigits_ne_nil, hdigits,
    Nat.ofDigitChars_ten_toDigits]
  rfl

/-- Digits have no sign before them. -/
theorem splitSign_toDigits (n : Nat) :
    splitSign (Nat.toDigits 10 n) = (false, Nat.toDigits 10 n) := by
  obtain ⟨c, rest, hcons⟩ := List.exists_cons_of_ne_nil (@Nat.toDigits_ne_nil n 10)
  have hdigit : c.isDigit = true :=
    Nat.isDigit_of_mem_toDigits (by decide) (by decide) (hcons ▸ List.mem_cons_self)
  rw [hcons, splitSign]
  · rintro _ ⟨⟩
    exact absurd hdigit (by decide)
  · rintro _ ⟨⟩
    exact absurd hdigit (by decide)

theorem int64?_of_split {text digits : List Char} {negative : Bool} {i : Int64} {n : Nat}
    (hsplit : splitSign text = (negative, digits)) (hn : natural? digits = some n)
    (hi : (if negative then -(n : Int) else n) = i.toInt) : int64? text = some i := by
  simp only [int64?, hsplit, hn, hi, i.minValue_le_toInt, i.toInt_le, Option.bind_eq_bind,
    Option.bind_some, and_self, if_true, i.ofInt_toInt]

/-- The text of an integer is read as this integer. -/
theorem int64?_intChars (i : Int64) : int64? (Value.intChars i.toInt) = some i := by
  cases hi : i.toInt with
  | ofNat n =>
    exact int64?_of_split (splitSign_toDigits n) (natural?_toDigits n) hi.symm
  | negSucc n =>
    exact int64?_of_split rfl (natural?_toDigits (n + 1)) (by rw [hi]; rfl)

end Numeral

/-- Different integers have different texts. -/
theorem Value.intChars_inj {i j : Int64} (h : intChars i.toInt = intChars j.toInt) : i = j :=
  Option.some.inj ((Numeral.int64?_intChars i).symm.trans (h ▸ Numeral.int64?_intChars j))

end GraphQuery
