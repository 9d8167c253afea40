import GraphQuery.Expr.Basic

/-!
# Free names

A name is free in an expression if it stands there as a label outside of every part in which it is
bound. A list comprehension binds its variable in its filter and its mapping, a quantified
predicate in its filter, and a reduction binds its accumulator and its variable in its mapping.

## Main definitions

* `Expr.boundIn`: the names that a node binds in a slot.
* `Expr.freeNames`: the free names of an expression, once for each place where they stand.
-/

namespace GraphQuery

namespace Expr

/-- The names that a node binds in one of its slots. -/
def boundIn : Expr → Slot → List String
  | e@(.comprehension ..), .filter | e@(.comprehension ..), .mapping => e.binders
  | e@(.quantified ..), .filter => e.binders
  | e@(.reduce ..), .mapping => e.binders
  | _, _ => []

section Bound

variable {name binder accumulator : String} {collection initial : Expr} {filter : Option Expr}
  {origin : Option String} {slot : Slot}

@[simp]
theorem mem_boundIn_comprehension_iff {mapping : Option Expr} :
    name ∈ (comprehension binder collection filter mapping origin).boundIn slot ↔
      name = binder ∧ (slot = .filter ∨ slot = .mapping) := by
  cases slot <;> simp [boundIn, binders]

@[simp]
theorem mem_boundIn_quantified_iff {quantifier : Quantifier} :
    name ∈ (quantified quantifier binder collection filter origin).boundIn slot ↔
      (binder ≠ "" ∧ name = binder) ∧ slot = .filter := by
  by_cases hbinder : binder = "" <;> cases slot <;> simp [boundIn, binders, hbinder]

@[simp]
theorem mem_boundIn_reduce_iff {mapping : Expr} :
    name ∈ (reduce accumulator initial binder collection mapping origin).boundIn slot ↔
      (name = accumulator ∨ name = binder) ∧ slot = .mapping := by
  cases slot <;> simp [boundIn, binders]

end Bound

/-- The names of a part that are free in the node that has it in one of its slots. -/
def freeOutside (owner : Expr) (slot : Slot) (names : List String) : List String :=
  names.filter fun name => !(owner.boundIn slot).contains name

mutual

/-- The free names of an expression in the order in which they stand there. -/
def freeNames : Expr → List String
  | .constant _ | .placeholder .. => []
  | .label name => [name]
  | .unary _ operand => freeNames operand
  | .arithmetic _ left right | .relational _ left right => freeNames left ++ freeNames right
  | .logical _ operands => freeNamesAll operands
  | .list items => freeNamesAll items
  | .attr object _ => freeNames object
  | e@(.comprehension _ collection filter mapping _) =>
    freeNames collection ++ e.freeOutside .filter (freeNamesPart filter) ++
      e.freeOutside .mapping (freeNamesPart mapping)
  | e@(.quantified _ _ collection filter _) =>
    freeNames collection ++ e.freeOutside .filter (freeNamesPart filter)
  | e@(.reduce _ initial _ collection mapping _) =>
    freeNames initial ++ freeNames collection ++ e.freeOutside .mapping (freeNames mapping)

def freeNamesAll : List Expr → List String
  | [] => []
  | e :: es => freeNames e ++ freeNamesAll es

def freeNamesPart : Option Expr → List String
  | none => []
  | some e => freeNames e

end

end Expr

end GraphQuery
