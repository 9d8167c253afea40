import GraphQuery.Expr.Build

/-!
# Traversals

A traversal visits an expression and its parts in preorder with a state, and it may replace each
node once its parts were visited. What it puts in place of a node is not visited again.

## Main definitions

* `Traversal`: what is done before a node's parts, which parts are visited, and what replaces the
  node as it then stands.
* `Expr.traverse`: the visited expression, and whether its root was replaced.
-/

namespace GraphQuery

/-- What to do at each node. The default visits every part and replaces nothing. -/
structure Traversal (σ : Type) where
  /-- What happens at a node before its parts are visited. -/
  enter : Expr → StateM σ Unit := fun _ => pure ()
  /-- Whether to visit the part in a slot of a node; the node is given as it was before. -/
  descends : Expr → Expr.Slot → StateM σ Bool := fun _ _ => pure true
  /-- What to put in place of a node, given as it stands after its parts were visited. -/
  leave : Expr → StateM σ (Option Expr) := fun _ => pure none

namespace Traversal

variable {σ : Type}

/-- Visits the part in a slot, if the traversal descends there. -/
def visitPart (t : Traversal σ) (owner : Expr) (slot : Expr.Slot) (part : Expr)
    (visit : StateM σ (Expr × Bool)) : StateM σ Expr := do
  if ← t.descends owner slot then return (← visit).1 else return part

/-- Visits a node, given how its parts are visited. -/
def visitNode (t : Traversal σ) (node : Expr) (visitParts : StateM σ Expr) :
    StateM σ (Expr × Bool) := do
  t.enter node
  let standing ← visitParts
  match ← t.leave standing with
  | some replacement => return (replacement, true)
  | none => return (standing, false)

end Traversal

namespace Expr

variable {σ : Type}

mutual

/-- Visits an expression; the flag tells whether its root was replaced. -/
def traverse (t : Traversal σ) : Expr → StateM σ (Expr × Bool)
  | e@(.constant _) | e@(.label _) | e@(.placeholder ..) => t.visitNode e (pure e)
  | e@(.unary op operand) => t.visitNode e do
    return .unary op (← t.visitPart e (.operand 0) operand (traverse t operand))
  | e@(.arithmetic op left right) => t.visitNode e do
    let l ← t.visitPart e (.operand 0) left (traverse t left)
    let r ← t.visitPart e (.operand 1) right (traverse t right)
    return .arithmetic op l r
  | e@(.relational op left right) => t.visitNode e do
    let l ← t.visitPart e (.operand 0) left (traverse t left)
    let r ← t.visitPart e (.operand 1) right (traverse t right)
    return .relational op l r
  | e@(.logical op operands) => t.visitNode e do
    return .logical op (← traverseAll t e 0 operands)
  | e@(.list items) => t.visitNode e do
    return .list (← traverseAll t e 0 items)
  | e@(.attr object name) => t.visitNode e do
    return .attr (← t.visitPart e (.operand 0) object (traverse t object)) name
  | e@(.comprehension binder collection filter mapping origin) => t.visitNode e do
    let c ← t.visitPart e .collection collection (traverse t collection)
    let f ← traverseOptional t e .filter filter
    let m ← traverseOptional t e .mapping mapping
    return .comprehension binder c f m origin
  | e@(.quantified quantifier binder collection filter origin) => t.visitNode e do
    let c ← t.visitPart e .collection collection (traverse t collection)
    let f ← traverseOptional t e .filter filter
    return .quantified quantifier binder c f origin
  | e@(.reduce accumulator initial binder collection mapping origin) => t.visitNode e do
    let i ← t.visitPart e .initial initial (traverse t initial)
    let c ← t.visitPart e .collection collection (traverse t collection)
    let m ← t.visitPart e .mapping mapping (traverse t mapping)
    return .reduce accumulator i binder c m origin

/-- Visits the operands of a node from a given position on. -/
def traverseAll (t : Traversal σ) (owner : Expr) (position : Nat) :
    List Expr → StateM σ (List Expr)
  | [] => pure []
  | e :: es => do
    let first ← t.visitPart owner (.operand position) e (traverse t e)
    let rest ← traverseAll t owner (position + 1) es
    return first :: rest

/-- Visits a part that may be absent. -/
def traverseOptional (t : Traversal σ) (owner : Expr) (slot : Slot) :
    Option Expr → StateM σ (Option Expr)
  | none => pure none
  | some e => do return some (← t.visitPart owner slot e (traverse t e))

end

end Expr

end GraphQuery
