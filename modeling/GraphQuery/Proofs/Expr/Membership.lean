import GraphQuery.Proofs.Expr.Comparison
import GraphQuery.Proofs.Expr.Quantifiers
import GraphQuery.Proofs.Expr.Scoping

/-!
# Membership and the `any` quantifier

`a IN l` compares a value with the elements of a list, `any(y IN l WHERE y == a)` evaluates a
comparison for each of them. The two ask the same question as long as the variable is not free in
`a`, which then has its value at every element. The comparison is null at an element that is null,
where membership finds no equality: neither of them counts such an element.

## Main results

* `RelationalOp.isTruthy_apply_eq`: whether a comparison for equality counts as true.
* `Expr.filterTest_eq_label`: the test for equality with an expression in which the variable is not
  free.
* `Expr.eval_mem_eq_any`: membership is what `any` says of equality.
-/

namespace GraphQuery

variable {v item : Value}

/-- A comparison with a value that is not null counts as true exactly if the two are equal. It is
null if the other one is null, and then they are not equal. -/
theorem RelationalOp.isTruthy_apply_eq (hv : v ≠ .null) (item : Value) :
    Value.isTruthy <$> RelationalOp.eq.apply item v = .ok (item.looseEq v) := by
  by_cases hitem : item = .null
  · subst hitem
    have hunequal : Value.null.looseEq v = false := by
      rw [Value.looseEq_comm]
      cases v with
      | null => exact absurd rfl hv
      | _ => rfl
    rw [hunequal]
    rfl
  · rw [apply_eq hitem hv]
    rfl

/-- Whether a value is in a list. -/
theorem RelationalOp.apply_mem_list (hv : v ≠ .null) (items : List Value) :
    RelationalOp.mem.apply v (.list items) = .ok (.bool (items.any (·.looseEq v))) := by
  simp [apply, membership, isNull_eq_false hv]

namespace Expr

variable {left collection : Expr} {binder : String} {lookup : Lookup}

/-- An expression has the same outcome under a variable that is not free in it. -/
theorem eval_bind_of_not_mem (h : binder ∉ left.freeNames) (item : Value) :
    left.eval (lookup.bind binder item) = left.eval lookup :=
  eval_congr fun name hname => if_neg fun heq : name = binder => h (heq ▸ hname)

/-- The test for equality with an expression that has a value, by equality with this value. -/
theorem filterTest_eq_label (hbinder : binder ∉ left.freeNames) (hleft : left.eval lookup = .ok v)
    (hv : v ≠ .null) (item : Value) :
    (relational .eq (label binder) left).filterTest binder lookup item =
      .ok (item.looseEq v) := by
  have hlabel : (label binder).eval (lookup.bind binder item) = .ok item := by
    rw [eval, Lookup.bind, if_pos rfl]
  have hsame := (eval_bind_of_not_mem hbinder item).trans hleft
  rw [filterTest, eval_relational .eq hlabel hsame, ← RelationalOp.isTruthy_apply_eq hv item]
  exact bind_pure_comp _ _

/-- That a value other than null is in a list, and that `any` element of the list equals it, have
the same truth value: whether an element of the list is equal to it. -/
theorem eval_mem_eq_any {items : List Value} (hbinder : binder ∉ left.freeNames)
    (hleft : left.eval lookup = .ok v) (hv : v ≠ .null)
    (hitems : collection.eval lookup = .ok (.list items)) (origin : Option String) :
    (relational .mem left collection).eval lookup = .ok (.bool (items.any (·.looseEq v))) ∧
      (quantified .any binder collection (some (relational .eq (label binder) left)) origin).eval
        lookup = .ok (.bool (items.any (·.looseEq v))) := by
  have htest : (relational .eq (label binder) left).filterTest binder lookup =
      fun item => pure (item.looseEq v) := funext (filterTest_eq_label hbinder hleft hv)
  have helements : collection.elements lookup = .ok items := by
    rw [elements, hitems]
    rfl
  constructor
  · rw [eval_relational .mem hleft hitems, RelationalOp.apply_mem_list hv]
  · rw [eval_quantified_filter (by decide), helements, htest]
    exact congrArg (Value.bool <$> ·) List.anyM_pure

/-- In `[NULL, [NULL], NaN, 1.0]` only the last element equals `k`, which is the integer 1. The
variable `y` has a value outside as well. -/
theorem eval_mem_eq_any_mixed :
    "y" ∉ (label "k").freeNames ∧
      (relational .mem (label "k") (constant (.list
        [.null, .list [.null], .float .nan, .float ⟨0x3ff0000000000000⟩]))).eval
          (Bindings.ofList [("k", .int 1), ("y", .null)]).lookup = .ok (.bool true) ∧
      (quantified .any "y" (constant (.list
        [.null, .list [.null], .float .nan, .float ⟨0x3ff0000000000000⟩]))
          (some (relational .eq (label "y") (label "k"))) none).eval
            (Bindings.ofList [("k", .int 1), ("y", .null)]).lookup = .ok (.bool true) := by
  have hfree : "y" ∉ (label "k").freeNames := by decide
  have hk : (label "k").eval (Bindings.ofList [("k", .int 1), ("y", .null)]).lookup =
      .ok (.int 1) := rfl
  have hlist : (constant (.list
      [.null, .list [.null], .float .nan, .float ⟨0x3ff0000000000000⟩])).eval
        (Bindings.ofList [("k", .int 1), ("y", .null)]).lookup =
      .ok (.list [.null, .list [.null], .float .nan, .float ⟨0x3ff0000000000000⟩]) := rfl
  have hone : [Value.null, .list [.null], .float .nan, .float ⟨0x3ff0000000000000⟩].any
      (·.looseEq (.int 1)) = true := by decide +kernel
  have hsame := eval_mem_eq_any hfree hk Value.noConfusion hlist none
  rw [hone] at hsame
  exact ⟨hfree, hsame⟩

end Expr

end GraphQuery
