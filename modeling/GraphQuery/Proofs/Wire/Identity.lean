import GraphQuery.Proofs.Expr.Equality
import GraphQuery.Proofs.Wire.Unique

/-!
# Equality and the wire form

Equality of expressions is what the wire form tells apart, origins left aside: two expressions are
equal exactly if they have the same bytes once their origins are taken away. What is equal behaves
alike, in every surrounding.

## Main results

* `Wire.every_writable_withoutOrigins`: without origins an expression can still be written.
* `Wire.beq_identity`: equality by bytes, as an equivalence, and as a congruence.
-/

namespace GraphQuery

namespace Wire

/-- What can be written can be written without its origin. -/
theorem Writable.withoutOrigin {e e' : Expr} (h : Expr.SameRoot e e') (hw : Writable e) :
    Writable e'.withoutOrigin := by
  refine ⟨(Expr.isPlaceholder_withoutOrigin h).trans hw.1, ?_⟩
  have hfits := hw.2
  cases h with
  | logical op hlength | list hlength => exact Nat.lt_of_le_of_lt (Nat.le_of_eq hlength.symm) hfits
  | comprehension | quantified => exact ⟨hfits.1, by simp⟩
  | reduce => exact ⟨hfits.1, hfits.2.1, by simp⟩
  | _ => exact hfits

theorem every_writable_withoutOrigins {e : Expr} (h : e.Every Writable) :
    e.withoutOrigins.Every Writable :=
  Expr.every_mapNodes Expr.children_withoutOrigin Writable.withoutOrigin h

/-- Expressions that can be written are equal exactly if they have the same bytes without their
origins. -/
theorem beq_iff_encode {a b : Expr} (ha : a.Every Writable) :
    (a == b) = true ↔ ∃ bytes,
      encode a.withoutOrigins = .ok bytes ∧ encode b.withoutOrigins = .ok bytes := by
  rw [Expr.beq_eq_true_iff]
  constructor
  · intro hsame
    obtain ⟨bytes, hbytes⟩ :=
      encode_isOk_iff.2 (every_writable_iff.1 (every_writable_withoutOrigins ha))
    exact ⟨bytes, hbytes, hsame ▸ hbytes⟩
  · rintro ⟨bytes, hbytes, hbytes'⟩
    exact eq_of_encode_eq hbytes hbytes'

/-- Equality of expressions is identity of their wire forms up to origins. It is an equivalence,
whatever constants are in the expressions, and it tells constants apart by type and floats by their
bits. Equal expressions have the same outcomes over every lookup, bind the same names, and are alike
in being constant and in being resolved. -/
theorem beq_identity :
    (∀ a b : Expr, a.Every Writable → ((a == b) = true ↔ ∃ bytes,
        encode a.withoutOrigins = .ok bytes ∧ encode b.withoutOrigins = .ok bytes)) ∧
      Equivalence (fun a b : Expr => (a == b) = true) ∧
      (∀ v w : Value, (Expr.constant v == .constant w) = true ↔ v = w) ∧
      (∀ x y : Binary64, (Expr.constant (.float x) == .constant (.float y)) = true ↔
        x.bits = y.bits) ∧
      (Expr.constant (.float (.zero false)) == .constant (.float (.zero true))) = false ∧
      (∀ (n : Int64) (x : Binary64),
        (Expr.constant (.int n) == .constant (.float x)) = false) ∧
      ∀ a b : Expr, (a == b) = true → (∀ lookup, a.eval lookup = b.eval lookup) ∧
        a.innerVars = b.innerVars ∧ a.isConstant = b.isConstant ∧
        a.checkResolved = b.checkResolved := by
  refine ⟨fun a b ha => beq_iff_encode ha, Expr.equivalence_beq,
    fun v w => Expr.constant_beq_iff, fun x y => ?_, rfl, fun n x => rfl, fun a b h => ?_⟩
  · rw [Expr.constant_beq_iff, Value.float.injEq, Binary64.mk.injEq]
  · have hkeeps {α : Type} (g : Expr → α) (hg : ∀ e : Expr, g e.withoutOrigins = g e) : g a = g b :=
      Expr.eq_of_beq_of_withoutOrigins hg h
    exact ⟨fun lookup => hkeeps (·.eval lookup) fun e => e.eval_withoutOrigins lookup,
      hkeeps _ Expr.innerVars_withoutOrigins, hkeeps _ Expr.isConstant_withoutOrigins,
      hkeeps _ Expr.checkResolved_withoutOrigins⟩

/-- A comprehension over a NaN, with an origin and without. -/
theorem beq_identity_nan :
    (∃ bytes, encode (Expr.comprehension "x" (.constant (.float .nan)) none none
        (some "[x in nan]")).withoutOrigins = .ok bytes ∧
      encode (Expr.comprehension "x" (.constant (.float .nan)) none none none).withoutOrigins =
        .ok bytes) ∧
      ∀ lookup, (Expr.comprehension "x" (.constant (.float .nan)) none none
          (some "[x in nan]")).eval lookup =
        (Expr.comprehension "x" (.constant (.float .nan)) none none none).eval lookup := by
  have hfits : TextFits "x" ∧ TextFits "[x in nan]" := by
    simp only [TextFits]
    decide
  have hwritable : (Expr.comprehension "x" (.constant (.float .nan)) none none
      (some "[x in nan]")).Every Writable :=
    Expr.every_comprehension.2 ⟨⟨rfl, hfits.1, by simpa using hfits.2⟩,
      Expr.every_constant.2 ⟨rfl, trivial⟩, by simp, by simp⟩
  obtain ⟨hbytes, -, -, -, -, -, hcongruence⟩ := beq_identity
  exact ⟨(hbytes _ _ hwritable).1 rfl, (hcongruence _ _ rfl).1⟩

end Wire

end GraphQuery
