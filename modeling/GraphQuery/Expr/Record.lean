import GraphQuery.Expr.Traverse

/-!
# Recording traversals

Traversals whose state is a list of what they met, in the order in which they met it.

## Main definitions

* `Traversal.substituting`: replaces labels by expressions and records the names of all labels.
* `Traversal.recording`: records every node that is visited, and may replace it.
-/

namespace GraphQuery

namespace Traversal

/-- Records the name of each label and replaces those that `substitution` maps to an
expression. -/
def substituting (substitution : String → Option Expr) : Traversal (List String) where
  enter
    | .label name => modify (· ++ [name])
    | _ => pure ()
  leave
    | .label name => pure (substitution name)
    | _ => pure none

/-- Records each node as it is before its parts are visited; the parts of a node for which `skips`
holds are not visited. Afterwards a node is replaced as `replacement` says. -/
def recording (skips : Expr → Bool) (replacement : Expr → Option Expr) :
    Traversal (List Expr) where
  enter node := modify (· ++ [node])
  descends node _ := pure (!skips node)
  leave node := pure (replacement node)

end Traversal

end GraphQuery
