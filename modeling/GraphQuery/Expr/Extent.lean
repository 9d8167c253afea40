import GraphQuery.Expr.Basic
import GraphQuery.Value.Extent

/-!
# The extent of an expression

A constant counts as a node with its value inside, so the levels and the values of constants count
along with those of expressions.

## Main definitions

* `Expr.depth`: the number of levels on which expressions and values are nested in an expression.
* `Expr.size`: the number of expressions and values in an expression, itself included.
-/

namespace GraphQuery

namespace Expr

mutual

/-- The number of levels of an expression: one more than the most levels of what is directly
inside. -/
def depth : Expr → Nat
  | .constant value => value.depth + 1
  | .label _ | .placeholder .. => 1
  | .unary _ operand => depth operand + 1
  | .arithmetic _ left right | .relational _ left right => max (depth left) (depth right) + 1
  | .logical _ operands => depthAll operands + 1
  | .list items => depthAll items + 1
  | .attr object _ => depth object + 1
  | .comprehension _ collection filter mapping _ =>
    max (depth collection) (max (depthPart filter) (depthPart mapping)) + 1
  | .quantified _ _ collection filter _ => max (depth collection) (depthPart filter) + 1
  | .reduce _ initial _ collection mapping _ =>
    max (depth initial) (max (depth collection) (depth mapping)) + 1

def depthAll : List Expr → Nat
  | [] => 0
  | e :: es => max (depth e) (depthAll es)

def depthPart : Option Expr → Nat
  | none => 0
  | some e => depth e

end

mutual

/-- The number of expressions and values in an expression. -/
def size : Expr → Nat
  | .constant value => value.size + 1
  | .label _ | .placeholder .. => 1
  | .unary _ operand => size operand + 1
  | .arithmetic _ left right | .relational _ left right => size left + size right + 1
  | .logical _ operands => sizeAll operands + 1
  | .list items => sizeAll items + 1
  | .attr object _ => size object + 1
  | .comprehension _ collection filter mapping _ =>
    size collection + sizePart filter + sizePart mapping + 1
  | .quantified _ _ collection filter _ => size collection + sizePart filter + 1
  | .reduce _ initial _ collection mapping _ => size initial + size collection + size mapping + 1

def sizeAll : List Expr → Nat
  | [] => 0
  | e :: es => size e + sizeAll es

def sizePart : Option Expr → Nat
  | none => 0
  | some e => size e

end

/-- An expression has at least one level. -/
theorem depth_pos (e : Expr) : 0 < e.depth := by cases e <;> simp [depth]

/-- An expression counts itself. -/
theorem size_pos (e : Expr) : 0 < e.size := by cases e <;> simp [size]

theorem sizeAll_append (es ds : List Expr) : sizeAll (es ++ ds) = sizeAll es + sizeAll ds := by
  induction es with
  | nil => simp [sizeAll]
  | cons e es ih => rw [List.cons_append, sizeAll, sizeAll, ih, Nat.add_assoc]

theorem sizeAll_reverse (es : List Expr) : sizeAll es.reverse = sizeAll es := by
  induction es with
  | nil => rfl
  | cons e es ih =>
      rw [List.reverse_cons, sizeAll_append, ih, sizeAll, sizeAll, sizeAll, Nat.add_zero,
        Nat.add_comm]

theorem sizeAll_toList (part : Option Expr) : sizeAll part.toList = sizePart part := by
  cases part <;> simp [sizeAll, sizePart]

/-- The direct parts of an expression are smaller than it, all of them together. -/
theorem sizeAll_children_lt (e : Expr) : sizeAll e.children < e.size := by
  cases e <;> simp [children, size, sizeAll, sizeAll_append, sizeAll_toList, Nat.add_assoc]

end Expr

end GraphQuery
