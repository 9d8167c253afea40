import Mathlib.Data.Int.ModEq
import GraphQuery.Expr.Eval

/-!
# Arithmetic on integers

Integers have 64 bits, and arithmetic on them wraps around: every result is congruent to the exact
one modulo `2 ^ 64`. So the laws of a ring hold, whatever overflows on the way, and a quotient and a
remainder give back the dividend even where the quotient overflows, at the least integer divided by
`-1`. Nothing fails but a division by zero.

## Main definitions

* `ArithmeticOp.divides`: the operators that cannot be applied to zero on the right.
* `ArithmeticOp.exact`: the exact results of the operators on integers.

## Main results

* `ArithmeticOp.onInts_eq_error_iff`: when an operator on integers fails.
* `ArithmeticOp.onInts_modEq`: otherwise the result is the exact one modulo `2 ^ 64`.
* `quotient_mul_add_remainder`: the dividend from quotient and remainder.
* `Expr.eval_integers`: the arithmetic of expressions whose values are integers.
-/

namespace GraphQuery

/-! ### Words of 64 bits -/

variable {m n : Int64}

/-- An integer is congruent to the word that stands for it. -/
theorem bmod_modEq (k : Int) : k.bmod (2 ^ 64) ≡ k [ZMOD 2 ^ 64] := Int.bmod_emod

/-- Quotient and remainder give back the dividend, even if the quotient wraps around. -/
theorem quotient_mul_add_remainder (m n : Int64) : m / n * n + m % n = m := by
  rw [← Int64.toInt_inj, Int64.toInt_add, Int64.toInt_mul, Int64.toInt_div, Int64.toInt_mod,
    Int.bmod_mul_bmod, Int.bmod_add_bmod, Int.tdiv_mul_add_tmod]
  exact Int64.toInt_bmod m

/-- A remainder is less than the divisor in magnitude. -/
theorem natAbs_remainder_lt (m : Int64) (hn : n ≠ 0) :
    (m % n).toInt.natAbs < n.toInt.natAbs := by
  have hpos : 0 < n.toInt.natAbs := by
    rw [Int.natAbs_pos, ← Int64.toInt_zero]
    exact fun heq => hn (Int64.toInt_inj.1 heq)
  rw [Int64.toInt_mod, Int.natAbs_tmod]
  exact Nat.mod_lt _ hpos

/-- A remainder is zero or has the sign of the dividend. -/
theorem remainder_sign (m n : Int64) : m % n = 0 ∨ (m % n).toInt.sign = m.toInt.sign := by
  rw [← Int64.toInt_inj, Int64.toInt_zero, ← Int.sign_eq_zero_iff_zero, Int64.toInt_mod,
    Int.sign_tmod]
  split
  · exact .inl rfl
  · exact .inr rfl

/-! ### Operators on integers -/

namespace ArithmeticOp

/-- Whether an operator divides by its right operand. -/
def divides : ArithmeticOp → Bool
  | .div | .mod => true
  | .add | .sub | .mul => false

/-- The exact result of an operator on integers; quotients are truncated toward zero. -/
def exact (op : ArithmeticOp) (m n : Int) : Int :=
  match op with
  | .add => m + n
  | .sub => m - n
  | .mul => m * n
  | .div => m.tdiv n
  | .mod => m.tmod n

/-- Only a division by zero fails. -/
theorem onInts_eq_error_iff {op : ArithmeticOp} {err : EvalError} :
    op.onInts m n = .error err ↔ op.divides = true ∧ n = 0 ∧ err = .divisionByZero := by
  cases op with
  | add | sub | mul => simp [onInts, divides]
  | div | mod => by_cases hn : n = 0 <;> simp [onInts, divides, hn, eq_comm]

/-- Otherwise the result of an operator is the exact one modulo `2 ^ 64`. -/
theorem onInts_modEq {op : ArithmeticOp} (h : op.divides = true → n ≠ 0) :
    ∃ r : Int64, op.onInts m n = .ok (.int r) ∧
      r.toInt ≡ op.exact m.toInt n.toInt [ZMOD 2 ^ 64] := by
  cases op with
  | add => exact ⟨m + n, rfl, Int64.toInt_add m n ▸ bmod_modEq _⟩
  | sub => exact ⟨m - n, rfl, Int64.toInt_sub m n ▸ bmod_modEq _⟩
  | mul => exact ⟨m * n, rfl, Int64.toInt_mul m n ▸ bmod_modEq _⟩
  | div => exact ⟨m / n, if_neg (h rfl), Int64.toInt_div m n ▸ bmod_modEq _⟩
  | mod => exact ⟨m % n, if_neg (h rfl), Int64.toInt_mod m n ▸ Int.ModEq.refl _⟩

end ArithmeticOp

/-! ### Expressions -/

namespace Expr

variable {a b c : Expr} {lookup : Lookup}

theorem eval_arithmetic_ints (op : ArithmeticOp) (ha : a.eval lookup = .ok (.int m))
    (hb : b.eval lookup = .ok (.int n)) : (arithmetic op a b).eval lookup = op.onInts m n := by
  rw [eval, ha, hb]
  rfl

theorem eval_minus_int (ha : a.eval lookup = .ok (.int m)) :
    (unary .minus a).eval lookup = .ok (.int (-m)) := by
  rw [eval, ha]
  rfl

section Laws

variable {k m n : Int64} (ha : a.eval lookup = .ok (.int k)) (hb : b.eval lookup = .ok (.int m))
  (hc : c.eval lookup = .ok (.int n))

include ha hb

section Three

include hc

theorem eval_add_assoc :
    (arithmetic .add (arithmetic .add a b) c).eval lookup =
      (arithmetic .add a (arithmetic .add b c)).eval lookup := by
  have hleft := eval_arithmetic_ints .add (eval_arithmetic_ints .add ha hb) hc
  have hright := eval_arithmetic_ints .add ha (eval_arithmetic_ints .add hb hc)
  rw [hleft, hright, ArithmeticOp.onInts, ArithmeticOp.onInts, Int64.add_assoc]

theorem eval_mul_add :
    (arithmetic .mul a (arithmetic .add b c)).eval lookup =
      (arithmetic .add (arithmetic .mul a b) (arithmetic .mul a c)).eval lookup := by
  have hleft := eval_arithmetic_ints .mul ha (eval_arithmetic_ints .add hb hc)
  have hright := eval_arithmetic_ints .add (eval_arithmetic_ints .mul ha hb)
    (eval_arithmetic_ints .mul ha hc)
  rw [hleft, hright, ArithmeticOp.onInts, ArithmeticOp.onInts, Int64.mul_add]

end Three

theorem eval_sub_eq_add_minus :
    (arithmetic .sub a b).eval lookup = (arithmetic .add a (unary .minus b)).eval lookup := by
  rw [eval_arithmetic_ints .sub ha hb, eval_arithmetic_ints .add ha (eval_minus_int hb),
    ArithmeticOp.onInts, ArithmeticOp.onInts, Int64.sub_eq_add_neg]

theorem eval_mod_of_ne_zero (hm : m ≠ 0) :
    (arithmetic .mod a b).eval lookup = .ok (.int (k % m)) :=
  (eval_arithmetic_ints .mod ha hb).trans (if_neg hm)

/-- The quotient times the divisor and the remainder add up to the dividend. -/
theorem eval_div_mul_add_mod (hm : m ≠ 0) :
    (arithmetic .add (arithmetic .mul (arithmetic .div a b) b) (arithmetic .mod a b)).eval lookup =
      .ok (.int k) := by
  have hquotient : (arithmetic .div a b).eval lookup = .ok (.int (k / m)) :=
    (eval_arithmetic_ints .div ha hb).trans (if_neg hm)
  have hproduct := eval_arithmetic_ints .mul hquotient hb
  rw [eval_arithmetic_ints .add hproduct (eval_mod_of_ne_zero ha hb hm), ArithmeticOp.onInts,
    quotient_mul_add_remainder]

end Laws

/-- On expressions whose values are integers the operators have the exact results modulo `2 ^ 64`,
and only a division by zero fails. Sums are associative, products distribute over them, and a
difference is a sum. A quotient times its divisor and the remainder add up to the dividend; the
remainder is less than the divisor in magnitude, and it is zero or has the sign of the dividend. -/
theorem eval_integers {k m n : Int64} (ha : a.eval lookup = .ok (.int k))
    (hb : b.eval lookup = .ok (.int m)) (hc : c.eval lookup = .ok (.int n)) :
    let outcome := fun e : Expr => e.eval lookup
    (∀ op, (op.divides = true → m ≠ 0) → ∃ r : Int64, outcome (arithmetic op a b) = .ok (.int r) ∧
        r.toInt ≡ op.exact k.toInt m.toInt [ZMOD 2 ^ 64]) ∧
      (∃ r : Int64, outcome (unary .minus a) = .ok (.int r) ∧ r.toInt ≡ -k.toInt [ZMOD 2 ^ 64]) ∧
      (∀ op err, outcome (arithmetic op a b) = .error err ↔
        op.divides = true ∧ m = 0 ∧ err = .divisionByZero) ∧
      outcome (arithmetic .add (arithmetic .add a b) c) =
        outcome (arithmetic .add a (arithmetic .add b c)) ∧
      outcome (arithmetic .mul a (arithmetic .add b c)) =
        outcome (arithmetic .add (arithmetic .mul a b) (arithmetic .mul a c)) ∧
      outcome (arithmetic .sub a b) = outcome (arithmetic .add a (unary .minus b)) ∧
      (m ≠ 0 →
        outcome (arithmetic .add (arithmetic .mul (arithmetic .div a b) b) (arithmetic .mod a b)) =
            .ok (.int k) ∧
          ∃ r : Int64, outcome (arithmetic .mod a b) = .ok (.int r) ∧
            r.toInt.natAbs < m.toInt.natAbs ∧ (r = 0 ∨ r.toInt.sign = k.toInt.sign)) := by
  intro outcome
  have hints (op : ArithmeticOp) : outcome (arithmetic op a b) = op.onInts k m :=
    eval_arithmetic_ints op ha hb
  refine ⟨fun op h => ?_, ?_, fun op err => ?_, eval_add_assoc ha hb hc, eval_mul_add ha hb hc,
    eval_sub_eq_add_minus ha hb, fun hm => ⟨eval_div_mul_add_mod ha hb hm, ?_⟩⟩
  · rw [hints]
    exact ArithmeticOp.onInts_modEq h
  · exact ⟨-k, eval_minus_int ha, Int64.toInt_neg k ▸ bmod_modEq _⟩
  · rw [hints]
    exact ArithmeticOp.onInts_eq_error_iff
  · exact ⟨k % m, eval_mod_of_ne_zero ha hb hm, natAbs_remainder_lt k hm, remainder_sign k m⟩

/-- The least integer divided by `-1` is the least integer, and nothing remains. -/
theorem eval_integers_min :
    (constant (.int Int64.minValue)).eval (fun _ => none) = .ok (.int Int64.minValue) ∧
      (constant (.int (-1))).eval (fun _ => none) = .ok (.int (-1)) ∧ (-1 : Int64) ≠ 0 ∧
      (arithmetic .div (constant (.int Int64.minValue)) (constant (.int (-1)))).eval
        (fun _ => none) = .ok (.int Int64.minValue) ∧
      (arithmetic .add
        (arithmetic .mul (arithmetic .div (constant (.int Int64.minValue)) (constant (.int (-1))))
          (constant (.int (-1))))
        (arithmetic .mod (constant (.int Int64.minValue)) (constant (.int (-1))))).eval
          (fun _ => none) = .ok (.int Int64.minValue) := by
  have hmin : (constant (.int Int64.minValue)).eval (fun _ => none) =
      .ok (.int Int64.minValue) := rfl
  have hminus : (constant (.int (-1))).eval (fun _ => none) = .ok (.int (-1)) := rfl
  have hne : (-1 : Int64) ≠ 0 := by decide
  obtain ⟨-, -, -, -, -, -, hback⟩ := eval_integers hmin hminus hmin
  exact ⟨hmin, hminus, hne, rfl, (hback hne).1⟩

end Expr

end GraphQuery
