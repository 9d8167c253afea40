import GraphQuery.Proofs.Expr.Resolving
import GraphQuery.Proofs.Expr.Scoping

/-!
# Equality up to origins

Values are equal as their equality says: it compares floats by their bits. Expressions are equal
as theirs says if they are so once the origins are taken away everywhere, so it is an equivalence.
Neither the outcome of an evaluation nor anything that is read off the nodes one by one depends on
an origin.

## Main definitions

* `Expr.withoutOrigins`: the expression without its origins, at any depth.

## Main results

* `Expr.beq_iff`: equality is equality without origins.
* `Expr.equivalence_beq`: equality is an equivalence.
* `Expr.eq_of_beq_of_withoutOrigins`: equal expressions have in common what origins do not matter
  for, such as their outcomes, their bound names and whether they are constant.
-/

namespace GraphQuery

/-! ### Values -/

namespace Value

mutual

theorem beq_iff : ∀ v w : Value, v.beq w = true ↔ v = w
  | .null, w | .bool _, w | .int _, w | .float _, w | .string _, w => by
    cases w <;> simp [beq]
  | .list as, w => by cases w <;> simp [beq, beqItems_iff as]
  | .map as, w => by cases w <;> simp [beq, beqEntries_iff as]

theorem beqItems_iff : ∀ as bs : List Value, beqItems as bs = true ↔ as = bs
  | [], bs => by cases bs <;> simp [beqItems]
  | a :: as, bs => by cases bs <;> simp [beqItems, beq_iff a, beqItems_iff as]

theorem beqEntries_iff : ∀ as bs : List (String × Value), beqEntries as bs = true ↔ as = bs
  | [], bs => by cases bs <;> simp [beqEntries]
  | (key, a) :: as, bs => by
    cases bs <;> simp [beqEntries, beq_iff a, beqEntries_iff as, Prod.ext_iff]

end

instance : LawfulBEq Value where
  eq_of_beq := (beq_iff _ _).1
  rfl := (beq_iff _ _).2 rfl

end Value

/-! ### Expressions -/

namespace Expr

/-- The expression without its origins, at any depth. -/
def withoutOrigins (e : Expr) : Expr := e.mapNodes withoutOrigin

theorem children_withoutOrigin (e : Expr) : e.withoutOrigin.children = e.children := by
  cases e <;> rfl

theorem eval_withoutOrigin (e : Expr) (lookup : Lookup) :
    e.withoutOrigin.eval lookup = e.eval lookup := by
  cases e <;> rfl

mutual

theorem beq_iff : ∀ a b : Expr, a.beq b = true ↔ a.withoutOrigins = b.withoutOrigins
  | .constant _, b | .label _, b | .placeholder .., b => by
    cases b <;> simp [beq, withoutOrigins, mapNodes, withoutOrigin]
  | .unary _ operand, b => by
    cases b <;> simp [beq, withoutOrigins, mapNodes, withoutOrigin, beq_iff operand]
  | .arithmetic _ left right, b | .relational _ left right, b => by
    cases b <;> simp [beq, withoutOrigins, mapNodes, withoutOrigin, beq_iff left, beq_iff right,
      and_assoc]
  | .logical _ operands, b | .list operands, b => by
    cases b <;> simp [beq, withoutOrigins, mapNodes, withoutOrigin, beqAll_iff operands]
  | .attr object _, b => by
    cases b <;> simp [beq, withoutOrigins, mapNodes, withoutOrigin, beq_iff object]
  | .comprehension _ collection filter mapping _, b => by
    cases b <;> simp [beq, withoutOrigins, mapNodes, withoutOrigin, beq_iff collection,
      beqPart_iff filter, beqPart_iff mapping, and_assoc]
  | .quantified _ _ collection filter _, b => by
    cases b <;> simp [beq, withoutOrigins, mapNodes, withoutOrigin, beq_iff collection,
      beqPart_iff filter, and_assoc]
  | .reduce _ initial _ collection mapping _, b => by
    cases b <;> simp [beq, withoutOrigins, mapNodes, withoutOrigin, beq_iff initial,
      beq_iff collection, beq_iff mapping, and_assoc]

theorem beqAll_iff : ∀ as bs : List Expr,
    beqAll as bs = true ↔ mapNodesAll withoutOrigin as = mapNodesAll withoutOrigin bs
  | [], bs => by cases bs <;> simp [beqAll, mapNodesAll]
  | a :: as, bs => by
    cases bs <;> simp [beqAll, mapNodesAll, beq_iff a, beqAll_iff as, withoutOrigins]

theorem beqPart_iff : ∀ a b : Option Expr,
    beqPart a b = true ↔ mapNodesPart withoutOrigin a = mapNodesPart withoutOrigin b
  | none, b => by cases b <;> simp [beqPart, mapNodesPart]
  | some a, b => by cases b <;> simp [beqPart, mapNodesPart, beq_iff a, withoutOrigins]

end

/-- Expressions are equal exactly if they are the same without their origins. -/
theorem beq_eq_true_iff {a b : Expr} : (a == b) = true ↔ a.withoutOrigins = b.withoutOrigins :=
  beq_iff a b

/-- Equality of expressions is an equivalence, whatever values are in them. -/
theorem equivalence_beq : Equivalence fun a b : Expr => (a == b) = true where
  refl _ := beq_eq_true_iff.2 rfl
  symm h := beq_eq_true_iff.2 (beq_eq_true_iff.1 h).symm
  trans h h' := beq_eq_true_iff.2 ((beq_eq_true_iff.1 h).trans (beq_eq_true_iff.1 h'))

/-- Constants are equal only if their values are. -/
theorem constant_beq_iff {v w : Value} : (constant v == constant w) = true ↔ v = w :=
  Value.beq_iff v w

/-! ### What origins do not matter for -/

/-- Whether an expression can be constant as far as its root is concerned. -/
def rootIsConstant : Expr → Bool
  | .label _ | .placeholder .. | .comprehension .. | .quantified .. | .reduce .. => false
  | _ => true

/-- An expression is constant if all its nodes can be. -/
theorem isConstant_eq (e : Expr) : e.isConstant = e.nodes.all rootIsConstant := by
  induction e using induction_on_children with
  | step e ih =>
    have hparts : e.children.all isConstant = (e.children.flatMap nodes).all rootIsConstant := by
      rw [List.all_flatMap, Bool.eq_iff_iff, List.all_eq_true, List.all_eq_true]
      exact forall₂_congr fun c hc => by rw [ih c hc]
    rw [nodes_eq, List.all_cons, ← hparts]
    cases e <;> simp [isConstant, rootIsConstant, areConstant_eq, children]

theorem binders_withoutOrigin {e e' : Expr} (h : SameRoot e e') :
    e'.withoutOrigin.binders = e.binders := by
  cases h <;> rfl

theorem isPlaceholder_withoutOrigin {e e' : Expr} (h : SameRoot e e') :
    e'.withoutOrigin.isPlaceholder = e.isPlaceholder := by
  cases h <;> rfl

theorem rootIsConstant_withoutOrigin {e e' : Expr} (h : SameRoot e e') :
    e'.withoutOrigin.rootIsConstant = e.rootIsConstant := by
  cases h <;> rfl

/-- What is read off the nodes without regard to origins is the same without them. -/
theorem map_nodes_withoutOrigins {α : Type} {g : Expr → α}
    (hg : ∀ {e e' : Expr}, SameRoot e e' → g e'.withoutOrigin = g e) (e : Expr) :
    e.withoutOrigins.nodes.map g = e.nodes.map g :=
  map_nodes_mapNodes children_withoutOrigin hg e

theorem eval_withoutOrigins (e : Expr) (lookup : Lookup) :
    e.withoutOrigins.eval lookup = e.eval lookup :=
  eval_mapNodes eval_withoutOrigin e lookup

theorem innerVars_withoutOrigins (e : Expr) : e.withoutOrigins.innerVars = e.innerVars := by
  simp only [innerVars, List.flatMap_def, map_nodes_withoutOrigins binders_withoutOrigin]

theorem isResolved_withoutOrigins (e : Expr) : e.withoutOrigins.isResolved = e.isResolved := by
  have hsame := map_nodes_withoutOrigins isPlaceholder_withoutOrigin e
  have hall (e : Expr) : e.isResolved = (e.nodes.map isPlaceholder).all (!·) := by
    rw [isResolved, List.all_map]
    rfl
  rw [hall, hsame, ← hall]

theorem isConstant_withoutOrigins (e : Expr) : e.withoutOrigins.isConstant = e.isConstant := by
  have hsame := map_nodes_withoutOrigins rootIsConstant_withoutOrigin e
  have hall (e : Expr) : e.isConstant = (e.nodes.map rootIsConstant).all id := by
    rw [isConstant_eq, List.all_map]
    rfl
  rw [hall, hsame, ← hall]

theorem checkResolved_withoutOrigins (e : Expr) :
    e.withoutOrigins.checkResolved = e.checkResolved := by
  rw [checkResolved_eq, checkResolved_eq, isResolved_withoutOrigins]

/-- What is the same for every expression and for it without its origins is the same for equal
expressions. -/
theorem eq_of_beq_of_withoutOrigins {α : Type} {g : Expr → α}
    (hg : ∀ e : Expr, g e.withoutOrigins = g e) {a b : Expr} (h : (a == b) = true) : g a = g b := by
  rw [← hg a, beq_eq_true_iff.1 h, hg b]

end Expr

end GraphQuery
