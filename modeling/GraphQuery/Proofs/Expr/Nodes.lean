import GraphQuery.Expr.Build
import GraphQuery.Expr.Extent

/-!
# The nodes of an expression

A condition on single nodes holds everywhere in an expression if all of its nodes satisfy it. Such
a condition is proved from the root inwards: it holds of the root, and everywhere in each of the
direct parts.

## Main definitions

* `Expr.Every`: every node satisfies a condition.

## Main results

* `Expr.nodes_eq`: the nodes are the root and the nodes of the direct parts.
* `Expr.every_iff`: what holds everywhere holds of the root and everywhere in its parts.
-/

namespace GraphQuery

namespace Expr

theorem nodesAll_eq (es : List Expr) : nodesAll es = es.flatMap nodes := by
  induction es with
  | nil => rfl
  | cons e es ih => rw [nodesAll, ih, List.flatMap_cons]

theorem nodesPart_eq (part : Option Expr) : nodesPart part = part.toList.flatMap nodes := by
  cases part with
  | none => rfl
  | some e => rw [nodesPart, Option.toList_some, List.flatMap_singleton]

/-- The nodes are the root and the nodes of the direct parts, one part after the other. -/
theorem nodes_eq (e : Expr) : e.nodes = e :: e.children.flatMap nodes := by
  cases e <;> simp [nodes, children, nodesAll_eq, nodesPart_eq, List.flatMap_append]

theorem mem_nodes_self (e : Expr) : e ∈ e.nodes := by
  rw [nodes_eq]
  exact List.mem_cons_self

theorem mem_nodes_iff {e n : Expr} : n ∈ e.nodes ↔ n = e ∨ ∃ c ∈ e.children, n ∈ c.nodes := by
  rw [nodes_eq, List.mem_cons, List.mem_flatMap]

/-- The names that an expression binds, and then those that are bound in its direct parts. -/
theorem innerVars_eq (e : Expr) : e.innerVars = e.binders ++ e.children.flatMap innerVars := by
  rw [innerVars, nodes_eq, List.flatMap_cons, List.flatMap_assoc]
  rfl

/-! ### Induction on the direct parts -/

theorem size_le_sizeAll {es : List Expr} {e : Expr} (h : e ∈ es) : e.size ≤ sizeAll es := by
  induction es with
  | nil => exact absurd h List.not_mem_nil
  | cons first es ih =>
      rw [sizeAll]
      rcases List.mem_cons.1 h with rfl | h
      · exact Nat.le_add_right _ _
      · exact Nat.le_trans (ih h) (Nat.le_add_left _ _)

/-- A direct part is smaller than the whole. -/
theorem size_lt_of_mem_children {e c : Expr} (h : c ∈ e.children) : c.size < e.size :=
  Nat.lt_of_le_of_lt (size_le_sizeAll h) (sizeAll_children_lt e)

/-- What holds of an expression whenever it holds of the direct parts holds of every
expression. -/
theorem induction_on_children {motive : Expr → Prop}
    (step : ∀ e : Expr, (∀ c ∈ e.children, motive c) → motive e) (e : Expr) : motive e :=
  step e fun c _ => induction_on_children step c
termination_by e.size
decreasing_by exact size_lt_of_mem_children ‹_›

/-! ### Conditions on every node -/

/-- Every node of an expression satisfies a condition. -/
def Every (P : Expr → Prop) (e : Expr) : Prop := ∀ n ∈ e.nodes, P n

variable {P : Expr → Prop}

/-- A condition holds everywhere if it holds of the root and everywhere in the direct parts. -/
theorem every_iff {e : Expr} : Every P e ↔ P e ∧ ∀ c ∈ e.children, Every P c := by
  constructor
  · exact fun h => ⟨h e e.mem_nodes_self, fun c hc n hn => h n (mem_nodes_iff.2 (.inr ⟨c, hc, hn⟩))⟩
  · rintro ⟨he, hparts⟩ n hn
    rcases mem_nodes_iff.1 hn with rfl | ⟨c, hc, hn⟩
    · exact he
    · exact hparts c hc n hn

theorem Every.root {e : Expr} (h : Every P e) : P e := h e e.mem_nodes_self

theorem Every.of_mem_children {e c : Expr} (h : Every P e) (hc : c ∈ e.children) : Every P c :=
  (every_iff.1 h).2 c hc

theorem Every.mono {Q : Expr → Prop} {e : Expr} (h : Every P e) (hPQ : ∀ n, P n → Q n) :
    Every Q e :=
  fun n hn => hPQ n (h n hn)

theorem isResolved_iff {e : Expr} : e.isResolved = true ↔ e.Every fun n => n.isPlaceholder = false := by
  simp only [isResolved, List.all_eq_true, Bool.not_eq_true', Every]

/-! One equation for each form. -/

@[simp] theorem every_constant {value : Value} :
    Every P (.constant value) ↔ P (.constant value) :=
  every_iff.trans (by simp [children])

@[simp] theorem every_label {name : String} : Every P (.label name) ↔ P (.label name) :=
  every_iff.trans (by simp [children])

@[simp] theorem every_placeholder {left right : String} :
    Every P (.placeholder left right) ↔ P (.placeholder left right) :=
  every_iff.trans (by simp [children])

@[simp] theorem every_unary {op : UnaryOp} {operand : Expr} :
    Every P (.unary op operand) ↔ P (.unary op operand) ∧ Every P operand :=
  every_iff.trans (by simp [children])

@[simp] theorem every_arithmetic {op : ArithmeticOp} {left right : Expr} :
    Every P (.arithmetic op left right) ↔
      P (.arithmetic op left right) ∧ Every P left ∧ Every P right :=
  every_iff.trans (by simp [children])

@[simp] theorem every_relational {op : RelationalOp} {left right : Expr} :
    Every P (.relational op left right) ↔
      P (.relational op left right) ∧ Every P left ∧ Every P right :=
  every_iff.trans (by simp [children])

@[simp] theorem every_logical {op : LogicalOp} {operands : List Expr} :
    Every P (.logical op operands) ↔ P (.logical op operands) ∧ ∀ e ∈ operands, Every P e :=
  every_iff

@[simp] theorem every_list {items : List Expr} :
    Every P (.list items) ↔ P (.list items) ∧ ∀ e ∈ items, Every P e :=
  every_iff

@[simp] theorem every_attr {object : Expr} {name : String} :
    Every P (.attr object name) ↔ P (.attr object name) ∧ Every P object :=
  every_iff.trans (by simp [children])

@[simp] theorem every_comprehension {binder : String} {collection : Expr}
    {filter mapping : Option Expr} {origin : Option String} :
    Every P (.comprehension binder collection filter mapping origin) ↔
      P (.comprehension binder collection filter mapping origin) ∧ Every P collection ∧
        (∀ e ∈ filter, Every P e) ∧ ∀ e ∈ mapping, Every P e :=
  every_iff.trans (by simp [children, or_imp, forall_and])

@[simp] theorem every_quantified {quantifier : Quantifier} {binder : String} {collection : Expr}
    {filter : Option Expr} {origin : Option String} :
    Every P (.quantified quantifier binder collection filter origin) ↔
      P (.quantified quantifier binder collection filter origin) ∧ Every P collection ∧
        ∀ e ∈ filter, Every P e :=
  every_iff.trans (by simp [children])

@[simp] theorem every_reduce {accumulator : String} {initial : Expr} {binder : String}
    {collection mapping : Expr} {origin : Option String} :
    Every P (.reduce accumulator initial binder collection mapping origin) ↔
      P (.reduce accumulator initial binder collection mapping origin) ∧ Every P initial ∧
        Every P collection ∧ Every P mapping :=
  every_iff.trans (by simp [children])

end Expr

end GraphQuery
