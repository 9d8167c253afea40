import GraphQuery.Expr.Extent

/-!
# Listing inner variables

The names bound in an expression are listed by a search that keeps the expressions it has still to
look at. A name is listed as often as it is bound.

## Main definitions

* `Expr.collectBinders`: the names that pending expressions bind, listed by a search.
* `Expr.listInnerVars`: the names bound anywhere in an expression, listed by the search.
-/

namespace GraphQuery

namespace Expr

/-- Searches pending expressions for names that are bound, and adds them to those found. An
expression makes room for its direct parts, the first one first. -/
def collectBinders (found : List String) : List Expr → List String
  | [] => found
  | e :: pending => collectBinders (found ++ e.binders) (e.children ++ pending)
termination_by pending => sizeAll pending
decreasing_by
  rw [sizeAll_append, sizeAll]
  exact Nat.add_lt_add_right (sizeAll_children_lt e) _

/-- The names bound anywhere in an expression, in the order in which the search finds them. -/
def listInnerVars (e : Expr) : List String := collectBinders [] [e]

end Expr

end GraphQuery
