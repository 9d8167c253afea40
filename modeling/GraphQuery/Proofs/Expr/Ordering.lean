import GraphQuery.Proofs.Expr.Comparison
import GraphQuery.Proofs.Value.Shape

/-!
# Ordering values of the same shape

The comparisons that need an order fail where there is none. So of values of the same shape they
have an answer unless the comparison comes to a NaN; then they fail, and the error blames the types
of the operands, although these are types that compare.

## Main results

* `RelationalOp.apply_of_not_meetsNaN`, `RelationalOp.apply_of_meetsNaN`: comparisons of values of
  the same shape.
* `Expr.eval_order_of_sameShape`: when the comparisons that need an order have an answer.
* `Expr.eval_order_nan`: numbers that cannot be ordered.
-/

namespace GraphQuery

variable {op : RelationalOp} {a b : Value}

namespace RelationalOp

theorem ne_mem_of_needsOrder (hop : op.needsOrder = true) : op ≠ .mem := by
  rintro rfl
  cases hop

/-- Values of the same shape can be ordered if their comparison comes to no NaN. -/
theorem apply_of_not_meetsNaN (hop : op.needsOrder = true) (hshape : a.sameShape b = true)
    (hnan : a.meetsNaN b = false) : ∃ holds, op.apply a b = .ok (.bool holds) := by
  obtain ⟨ha, hb⟩ := Value.ne_null_of_sameShape hshape
  have hsome : a.order? b ≠ none := fun hnone =>
    Bool.eq_false_iff.1 hnan ((Value.order?_eq_none_iff hshape).1 hnone)
  obtain ⟨o, ho⟩ := Option.ne_none_iff_exists'.1 hsome
  exact ⟨op.holds o, apply_of_order? ha hb (ne_mem_of_needsOrder hop) ho⟩

/-- Values of the same shape cannot be ordered if their comparison comes to a NaN. -/
theorem apply_of_meetsNaN (hop : op.needsOrder = true) (hshape : a.sameShape b = true)
    (hnan : a.meetsNaN b = true) :
    op.apply a b = .error (.invalidOperands (.relational op) a.type (some b.type)) := by
  obtain ⟨ha, hb⟩ := Value.ne_null_of_sameShape hshape
  exact apply_of_order?_eq_none ha hb hop ((Value.order?_eq_none_iff hshape).2 hnan)

theorem apply_of_needsOrder (hop : op.needsOrder = true) (a b : Value) :
    op.apply a b = if a.isNull || b.isNull then .ok .null else op.byOrder a b := by
  cases op with
  | eq | ne | mem => cases hop
  | _ => rfl

/-- A comparison that needs an order can only fail because there is none. -/
theorem eq_of_apply_eq_error (hop : op.needsOrder = true) {err : EvalError}
    (h : op.apply a b = .error err) :
    err = .invalidOperands (.relational op) a.type (some b.type) := by
  rw [apply_of_needsOrder hop, byOrder] at h
  split at h
  · cases h
  · split at h
    · cases h
    · exact (Except.error.inj h).symm

end RelationalOp

namespace Expr

variable {left right : Expr} {lookup : Lookup}

/-- The comparisons that need an order have an answer on values of the same shape, unless their
comparison comes to a NaN; then they blame the types of the operands. In no other way do they fail:
the only values on which they do are those that are not of the same shape, or come to a NaN. -/
theorem eval_order_of_sameShape (hleft : left.eval lookup = .ok a)
    (hright : right.eval lookup = .ok b) (hop : op.needsOrder = true) :
    let outcome := (relational op left right).eval lookup
    let failure := EvalError.invalidOperands (.relational op) a.type (some b.type)
    (a.sameShape b = true →
        (a.meetsNaN b = false → ∃ holds, outcome = .ok (.bool holds)) ∧
          (a.meetsNaN b = true → outcome = .error failure)) ∧
      ∀ err, outcome = .error err →
        err = failure ∧ (a.sameShape b = false ∨ a.meetsNaN b = true) := by
  intro outcome failure
  have houtcome : outcome = op.apply a b := eval_relational op hleft hright
  rw [houtcome]
  refine ⟨fun hshape => ⟨RelationalOp.apply_of_not_meetsNaN hop hshape,
    RelationalOp.apply_of_meetsNaN hop hshape⟩, fun err herr => ?_⟩
  refine ⟨RelationalOp.eq_of_apply_eq_error hop herr, ?_⟩
  cases hshape : a.sameShape b with
  | false => exact .inl rfl
  | true =>
      refine .inr (Bool.of_not_eq_false fun hnan => ?_)
      obtain ⟨holds, hok⟩ := RelationalOp.apply_of_not_meetsNaN hop hshape hnan
      cases herr.symm.trans hok

/-- A NaN at the end of a list does no harm if an element before it decides. -/
theorem eval_order_of_sameShape_lists :
    (constant (.list [.int 1, .float .nan])).eval (fun _ => none) =
        .ok (.list [.int 1, .float .nan]) ∧
      Value.sameShape (.list [.int 1, .float .nan]) (.list [.int 2, .int 0]) = true ∧
      Value.meetsNaN (.list [.int 1, .float .nan]) (.list [.int 2, .int 0]) = false ∧
      ∃ holds, (relational .lt (constant (.list [.int 1, .float .nan]))
        (constant (.list [.int 2, .int 0]))).eval (fun _ => none) = .ok (.bool holds) := by
  have hleft : (constant (.list [.int 1, .float .nan])).eval (fun _ => none) =
      .ok (.list [.int 1, .float .nan]) := rfl
  have hright : (constant (.list [.int 2, .int 0])).eval (fun _ => none) =
      .ok (.list [.int 2, .int 0]) := rfl
  have hless : RelationalOp.lt.needsOrder = true := rfl
  have hshape : Value.sameShape (.list [.int 1, .float .nan]) (.list [.int 2, .int 0]) = true := rfl
  have hnan : Value.meetsNaN (.list [.int 1, .float .nan]) (.list [.int 2, .int 0]) = false := by
    decide
  obtain ⟨hsame, -⟩ := eval_order_of_sameShape hleft hright hless
  exact ⟨hleft, hshape, hnan, (hsame hshape).1 hnan⟩

/-- The quotient of two zeros is a NaN. It has the shape of every number, and no order beside any
of them. -/
theorem eval_order_nan :
    (arithmetic .div (constant (.float (.zero false))) (constant (.float (.zero false)))).eval
        (fun _ => none) = .ok (.float .invalid) ∧
      Value.sameShape (.float .invalid) (.int 1) = true ∧
      ∀ op ∈ [RelationalOp.lt, .le, .gt, .ge],
        (relational op
            (arithmetic .div (constant (.float (.zero false))) (constant (.float (.zero false))))
            (constant (.int 1))).eval (fun _ => none) =
          .error (.invalidOperands (.relational op) .float (some .int)) := by
  have hquotient : (arithmetic .div (constant (.float (.zero false)))
      (constant (.float (.zero false)))).eval (fun _ => none) = .ok (.float .invalid) := by
    rfl
  refine ⟨hquotient, rfl, fun op hop => ?_⟩
  have hneeds : op.needsOrder = true := by
    simp only [List.mem_cons, List.not_mem_nil, or_false] at hop
    rcases hop with rfl | rfl | rfl | rfl <;> rfl
  have hnan : Value.meetsNaN (.float .invalid) (.int 1) = true := by decide
  rw [eval_relational op hquotient rfl]
  exact RelationalOp.apply_of_meetsNaN hneeds rfl hnan

end Expr

end GraphQuery
