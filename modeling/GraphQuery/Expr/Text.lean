import GraphQuery.Expr.Basic
import GraphQuery.Value.Text

/-!
# The text of an expression

Operators are written between, before or after their operands, in parentheses where operands
could run together. A binding expression is written as its origin, if it has one, and otherwise
made from its parts.

## Main definitions

* `Expr.text`: the text of an expression.
* `Expr.madeText?`: the text of a binding expression made from its parts, whatever its origin.
-/

namespace GraphQuery

namespace Expr

mutual

/-- The text of an expression. -/
def text : Expr → String
  | .constant value => value.text
  | .label name => name
  | .unary op operand =>
    if op.isPostfix then text operand ++ " " ++ op.symbol
    else op.symbol ++ "(" ++ text operand ++ ")"
  | .arithmetic op left right => "(" ++ text left ++ op.symbol ++ text right ++ ")"
  | .relational op left right => "(" ++ text left ++ op.symbol ++ text right ++ ")"
  | .logical op operands => "(" ++ (" " ++ op.symbol ++ " ").intercalate (texts operands) ++ ")"
  | .list items => "[" ++ ", ".intercalate (texts items) ++ "]"
  | .attr object name => text object ++ "." ++ name
  | .placeholder left right => left ++ "." ++ right
  | .comprehension binder collection filter mapping origin =>
    origin.getD ("[" ++ binder ++ " IN " ++ text collection ++ partText " WHERE " filter ++
      partText " | " mapping ++ "]")
  | .quantified quantifier binder collection filter origin =>
    origin.getD (
      if quantifier = .exists then "exists(" ++ text collection ++ ")"
      else quantifier.name ++ "(" ++ binder ++ " IN " ++ text collection ++
        partText " WHERE " filter ++ ")")
  | .reduce accumulator initial binder collection mapping origin =>
    origin.getD ("reduce(" ++ accumulator ++ " = " ++ text initial ++ ", " ++ binder ++ " IN " ++
      text collection ++ " | " ++ text mapping ++ ")")

def texts : List Expr → List String
  | [] => []
  | e :: es => text e :: texts es

/-- The text of an optional part after the words that introduce it. -/
def partText (introduction : String) : Option Expr → String
  | none => ""
  | some e => introduction ++ text e

end

/-- An expression without the origin at its root. -/
def withoutOrigin : Expr → Expr
  | .comprehension binder collection filter mapping _ =>
    .comprehension binder collection filter mapping none
  | .quantified quantifier binder collection filter _ =>
    .quantified quantifier binder collection filter none
  | .reduce accumulator initial binder collection mapping _ =>
    .reduce accumulator initial binder collection mapping none
  | e => e

/-- The text of a binding expression made from its parts. -/
def madeText? (e : Expr) : Option String :=
  match e with
  | .comprehension .. | .quantified .. | .reduce .. => some e.withoutOrigin.text
  | _ => none

end Expr

end GraphQuery
