import GraphQuery.Expr.Eval
import GraphQuery.Proofs.Value.Compare

/-!
# Comparisons in expressions

The comparisons of two operands that are not null are one comparison. If the operands have an
order, each of them says whether this order is one of those that it allows; the equality of values
is no exception, because it agrees with the order. If they have none, the comparisons that need an
order fail, each on its own behalf, and only equality has an answer.

## Main definitions

* `RelationalOp.mirror`: the comparison that holds of the operands the other way round.

## Main results

* `RelationalOp.apply_of_order?`: the comparisons of operands that have an order.
* `Expr.eval_comparisons`: the comparisons of two operands agree with each other, also the other
  way round.
-/

namespace GraphQuery

namespace RelationalOp

/-- The comparison that holds of two operands the other way round. -/
def mirror : RelationalOp → RelationalOp
  | .lt => .gt
  | .gt => .lt
  | .le => .ge
  | .ge => .le
  | .eq => .eq
  | .ne => .ne
  | .mem => .mem

theorem holds_mirror (op : RelationalOp) (o : Ordering) : op.mirror.holds o.swap = op.holds o := by
  cases op <;> cases o <;> rfl

theorem mirror_ne_mem {op : RelationalOp} (h : op ≠ .mem) : op.mirror ≠ .mem := by
  cases op with
  | mem => exact absurd rfl h
  | _ => decide

/-- Whether a comparison needs the order of its operands. -/
def needsOrder : RelationalOp → Bool
  | .lt | .le | .gt | .ge => true
  | .eq | .ne | .mem => false

variable {op : RelationalOp} {a b : Value}

theorem isNull_eq_false {v : Value} (h : v ≠ .null) : v.isNull = false := by
  cases v with
  | null => exact absurd rfl h
  | _ => rfl

section NotNull

variable (ha : a ≠ .null) (hb : b ≠ .null)

include ha hb

theorem apply_eq : RelationalOp.eq.apply a b = .ok (.bool (a.looseEq b)) := by
  simp [apply, isNull_eq_false ha, isNull_eq_false hb]

theorem apply_ne : RelationalOp.ne.apply a b = .ok (.bool !a.looseEq b) := by
  simp [apply, isNull_eq_false ha, isNull_eq_false hb]

theorem apply_byOrder (hop : op.needsOrder = true) : op.apply a b = op.byOrder a b := by
  cases op with
  | eq | ne | mem => cases hop
  | _ => simp [apply, isNull_eq_false ha, isNull_eq_false hb]

/-- A comparison of operands that have an order says whether it allows this order. -/
theorem apply_of_order? (hop : op ≠ .mem) {o : Ordering} (h : a.order? b = some o) :
    op.apply a b = .ok (.bool (op.holds o)) := by
  have heq := Value.looseEq_of_order? h
  cases op with
  | mem => exact absurd rfl hop
  | eq => rw [apply_eq ha hb, heq]; rfl
  | ne => rw [apply_ne ha hb, heq]; cases o <;> rfl
  | _ => rw [apply_byOrder ha hb rfl, byOrder, h]

/-- A comparison that needs an order fails where there is none. -/
theorem apply_of_order?_eq_none (hop : op.needsOrder = true) (h : a.order? b = none) :
    op.apply a b = .error (.invalidOperands (.relational op) a.type (some b.type)) := by
  rw [apply_byOrder ha hb hop, byOrder, h]

/-- A comparison and its mirror on the operands the other way round both hold, both do not, or both
fail. -/
theorem apply_mirror (hop : op ≠ .mem) :
    (∃ holds, op.apply a b = .ok (.bool holds) ∧ op.mirror.apply b a = .ok (.bool holds)) ∨
      (op.apply a b = .error (.invalidOperands (.relational op) a.type (some b.type)) ∧
        op.mirror.apply b a =
          .error (.invalidOperands (.relational op.mirror) b.type (some a.type))) := by
  have hswap := Value.order?_swap a b
  have hcomm := Value.looseEq_comm b a
  cases h : a.order? b with
  | some o =>
      rw [h] at hswap
      refine .inl ⟨op.holds o, apply_of_order? ha hb hop h, ?_⟩
      rw [apply_of_order? hb ha (mirror_ne_mem hop) hswap, holds_mirror]
  | none =>
    rw [h] at hswap
    cases op with
    | mem => exact absurd rfl hop
    | eq => exact .inl ⟨a.looseEq b, apply_eq ha hb, by rw [mirror, apply_eq hb ha, hcomm]⟩
    | ne => exact .inl ⟨!a.looseEq b, apply_ne ha hb, by rw [mirror, apply_ne hb ha, hcomm]⟩
    | _ =>
        exact .inr ⟨apply_of_order?_eq_none ha hb rfl h,
          apply_of_order?_eq_none hb ha rfl hswap⟩

end NotNull

end RelationalOp

namespace Expr

variable {left right : Expr} {a b : Value} {lookup : Lookup}

theorem eval_relational (op : RelationalOp) (hleft : left.eval lookup = .ok a)
    (hright : right.eval lookup = .ok b) :
    (relational op left right).eval lookup = op.apply a b := by
  rw [eval, hleft, hright]
  rfl

/-- The comparisons of two operands that are not null agree with each other. Either all that need
an order fail, each for itself, or all have an answer: one of less, equal and greater holds, and the
others are as these say. Inequality always negates equality. The other way round each comparison
has the answer of its mirror, or both fail; for values, equality is symmetric and the order is
reversed. -/
theorem eval_comparisons (hleft : left.eval lookup = .ok a) (hright : right.eval lookup = .ok b)
    (ha : a ≠ .null) (hb : b ≠ .null) :
    let outcome := fun op => (relational op left right).eval lookup
    let exchanged := fun op => (relational op right left).eval lookup
    ((∀ op ∈ [RelationalOp.lt, .le, .gt, .ge],
          outcome op = .error (.invalidOperands (.relational op) a.type (some b.type))) ∨
        ∃ less equal greater, [less, equal, greater].count true = 1 ∧
          outcome .lt = .ok (.bool less) ∧ outcome .eq = .ok (.bool equal) ∧
          outcome .gt = .ok (.bool greater) ∧ outcome .le = .ok (.bool (less || equal)) ∧
          outcome .ge = .ok (.bool (greater || equal))) ∧
      (∃ equal, outcome .eq = .ok (.bool equal) ∧ outcome .ne = .ok (.bool !equal)) ∧
      (∀ op, op ≠ .mem →
        (∃ holds, outcome op = .ok (.bool holds) ∧ exchanged op.mirror = .ok (.bool holds)) ∨
          (outcome op = .error (.invalidOperands (.relational op) a.type (some b.type)) ∧
            exchanged op.mirror =
              .error (.invalidOperands (.relational op.mirror) b.type (some a.type)))) ∧
      b.order? a = (a.order? b).map Ordering.swap ∧ b.looseEq a = a.looseEq b := by
  intro outcome exchanged
  have houtcome (op : RelationalOp) : outcome op = op.apply a b := eval_relational op hleft hright
  have hexchanged (op : RelationalOp) : exchanged op = op.apply b a :=
    eval_relational op hright hleft
  simp only [houtcome, hexchanged]
  refine ⟨?_, ⟨_, RelationalOp.apply_eq ha hb, RelationalOp.apply_ne ha hb⟩,
    fun op => RelationalOp.apply_mirror ha hb, Value.order?_swap a b, Value.looseEq_comm b a⟩
  cases h : a.order? b with
  | none =>
      refine .inl fun op hop => RelationalOp.apply_of_order?_eq_none ha hb ?_ h
      simp only [List.mem_cons, List.not_mem_nil, or_false] at hop
      rcases hop with rfl | rfl | rfl | rfl <;> rfl
  | some o =>
      have hall {op : RelationalOp} (hop : op ≠ .mem) : op.apply a b = .ok (.bool (op.holds o)) :=
        RelationalOp.apply_of_order? ha hb hop h
      refine .inr ⟨o.isLT, o.isEq, o.isGT, ?_, hall (by decide), hall (by decide),
        hall (by decide), ?_, ?_⟩
      · cases o <;> rfl
      · rw [hall (by decide), ← Ordering.isLE_eq_isLT_or_isEq]
        rfl
      · rw [hall (by decide), ← Ordering.isGE_eq_isGT_or_isEq]
        rfl

/-- Two lists of a map are equal and have no order all the same. -/
theorem eval_comparisons_maps :
    (constant (.list [.map []])).eval (fun _ => none) = .ok (.list [.map []]) ∧
      Value.list [.map []] ≠ .null ∧
      (relational .eq (constant (.list [.map []])) (constant (.list [.map []]))).eval
          (fun _ => none) = .ok (.bool true) ∧
      ∀ op ∈ [RelationalOp.lt, .le, .gt, .ge],
        (relational op (constant (.list [.map []])) (constant (.list [.map []]))).eval
            (fun _ => none) = .error (.invalidOperands (.relational op) .list (some .list)) := by
  have hmaps : (constant (.list [.map []])).eval (fun _ => none) = .ok (.list [.map []]) := rfl
  have hnull : Value.list [.map []] ≠ .null := Value.noConfusion
  refine ⟨hmaps, hnull, rfl, ?_⟩
  rcases (eval_comparisons hmaps hmaps hnull hnull).1 with hfail | ⟨less, equal, greater, -, hlt, -⟩
  · exact hfail
  · cases hlt

end Expr

end GraphQuery
