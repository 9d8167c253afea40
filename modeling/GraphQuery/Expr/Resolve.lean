import GraphQuery.Expr.Extent
import GraphQuery.Expr.Traverse

/-!
# Resolving placeholders

A placeholder `left.right` is resolved into the attribute `right` of the label `left`.

## Main definitions

* `Traversal.resolving`: the traversal that resolves placeholders and counts them.
* `Expr.resolve`: an expression with its placeholders resolved.
* `Expr.checkPending`, `Expr.checkResolved`: complain about expressions that have a placeholder.
-/

namespace GraphQuery

/-- Resolves every placeholder; the state counts them. -/
def Traversal.resolving : Traversal Nat where
  leave
    | .placeholder left right => modifyGet fun n => (some (.attr (.label left) right), n + 1)
    | _ => pure none

namespace Expr

/-- The expression with every placeholder resolved. -/
def resolve (e : Expr) : Expr := ((e.traverse .resolving).run 0).1.1

/-- Searches pending expressions for a placeholder and complains about it with the name of its form.
An expression that is none makes room for its direct parts, the last one first. -/
def checkPending : List Expr → Except String Unit
  | [] => .ok ()
  | e :: pending =>
    if e.isPlaceholder then .error e.formName
    else checkPending (e.children.reverse ++ pending)
termination_by pending => sizeAll pending
decreasing_by
  rw [sizeAll_append, sizeAll_reverse, sizeAll]
  exact Nat.add_lt_add_right (sizeAll_children_lt e) _

/-- Complains, with the name of the form, about an expression that has a placeholder. -/
def checkResolved (e : Expr) : Except String Unit := checkPending [e]

end Expr

end GraphQuery
