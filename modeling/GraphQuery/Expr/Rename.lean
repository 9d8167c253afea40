import GraphQuery.Expr.Traverse

/-!
# Renaming

A renaming puts one name in place of another wherever the old name is free: parts in which a node
binds the old name are left alone. Binders, attribute names and placeholders keep their names.

## Main definitions

* `Expr.renamesIn`: into which parts of a node a renaming goes.
* `Traversal.relabeling`: the traversal that renames free labels and counts them.
* `Expr.rename`: an expression with a name renamed.
-/

namespace GraphQuery

/-- Whether a renaming goes into a slot of a node. If the node binds the old name, it goes only into
what is evaluated outside of the scope; each form of node has its own condition for that. -/
def Expr.renamesIn (source : String) : Expr → Expr.Slot → Bool
  | .comprehension binder .., slot => if binder = source then slot == .collection else true
  | .quantified _ binder .., slot =>
    if binder ≠ "" ∧ binder = source then slot == .collection else true
  | .reduce accumulator _ binder .., slot =>
    if binder = source ∨ accumulator = source then slot == .initial || slot == .collection
    else true
  | _, _ => true

/-- Renames the free labels named `source` to `target`; the state counts them. -/
def Traversal.relabeling (source target : String) : Traversal Nat where
  descends node slot := pure (node.renamesIn source slot)
  leave
    | .label name =>
      if name = source then modifyGet fun n => (some (.label target), n + 1) else pure none
    | _ => pure none

/-- The expression with the free labels named `source` renamed to `target`. -/
def Expr.rename (source target : String) (e : Expr) : Expr :=
  ((e.traverse (.relabeling source target)).run 0).1.1

end GraphQuery
