import GraphQuery.Expr.Operators
import GraphQuery.Value.Basic

/-!
# Expressions

The expressions of graph queries are trees of twelve forms. Three of them bind names: a list
comprehension and a quantified predicate bind a variable in their filter and mapping, a reduction
binds an accumulator and a variable in its mapping. These three may carry an *origin*, the text
they were read from; it is shown in place of a text made from the parts, and it has no part in
equality.

A *placeholder* stands for `left.right` while it is undecided whether this is an attribute. It has
neither a value nor a wire form and has to be resolved first.

## Main definitions

* `Expr`: the type of expressions, with equality up to origins as `==`.
* `Expr.children`: the direct parts in field order.
* `Expr.nodes`: an expression and all its parts, in preorder.
-/

namespace GraphQuery

/-- An expression. -/
inductive Expr where
  | constant (value : Value)
  | label (name : String)
  | unary (op : UnaryOp) (operand : Expr)
  | arithmetic (op : ArithmeticOp) (left right : Expr)
  | relational (op : RelationalOp) (left right : Expr)
  | logical (op : LogicalOp) (operands : List Expr)
  | list (items : List Expr)
  | attr (object : Expr) (name : String)
  | placeholder (left right : String)
  /-- `[binder IN collection WHERE filter | mapping]` -/
  | comprehension (binder : String) (collection : Expr) (filter mapping : Option Expr)
      (origin : Option String)
  /-- `all(binder IN collection WHERE filter)` and its likes, and `exists(collection)` -/
  | quantified (quantifier : Quantifier) (binder : String) (collection : Expr)
      (filter : Option Expr) (origin : Option String)
  /-- `reduce(accumulator = initial, binder IN collection | mapping)` -/
  | reduce (accumulator : String) (initial : Expr) (binder : String) (collection mapping : Expr)
      (origin : Option String)
  deriving Inhabited

namespace Expr

/-- The name of an expression's form in messages. -/
def formName : Expr → String
  | .constant .. => "Constant"
  | .label .. => "Label"
  | .unary .. => "Unary"
  | .arithmetic .. => "Arithmetic"
  | .relational .. => "Relational"
  | .logical .. => "Logical"
  | .list .. => "List"
  | .attr .. => "Attribute"
  | .placeholder .. => "LabelAttribute"
  | .comprehension .. => "ListComprehension"
  | .quantified .. => "Predicate"
  | .reduce .. => "Reduce"

/-- The direct parts of an expression, in field order. -/
def children : Expr → List Expr
  | .constant _ | .label _ | .placeholder .. => []
  | .unary _ operand => [operand]
  | .arithmetic _ left right | .relational _ left right => [left, right]
  | .logical _ operands => operands
  | .list items => items
  | .attr object _ => [object]
  | .comprehension _ collection filter mapping _ =>
    collection :: filter.toList ++ mapping.toList
  | .quantified _ _ collection filter _ => collection :: filter.toList
  | .reduce _ initial _ collection mapping _ => [initial, collection, mapping]

/-- The origin of a binding expression. -/
def origin? : Expr → Option String
  | .comprehension _ _ _ _ origin | .quantified _ _ _ _ origin | .reduce _ _ _ _ _ origin => origin
  | _ => none

/-- A place for a part of an expression. -/
inductive Slot where
  /-- An operand, an item or the object of an attribute, by position. -/
  | operand (position : Nat)
  | initial
  | collection
  | filter
  | mapping
  /-- A side of a placeholder. -/
  | left
  | right
  deriving DecidableEq, Repr

/-! ### Equality -/

mutual

/-- Equality up to origins. -/
def beq : Expr → Expr → Bool
  | .constant v, .constant w => v == w
  | .label a, .label b => a == b
  | .unary o a, .unary p b => o == p && beq a b
  | .arithmetic o a b, .arithmetic p c d => o == p && beq a c && beq b d
  | .relational o a b, .relational p c d => o == p && beq a c && beq b d
  | .logical o as, .logical p bs => o == p && beqAll as bs
  | .list as, .list bs => beqAll as bs
  | .attr a m, .attr b n => beq a b && m == n
  | .placeholder a m, .placeholder b n => a == b && m == n
  | .comprehension x c f m _, .comprehension y d g n _ =>
    x == y && beq c d && beqPart f g && beqPart m n
  | .quantified q x c f _, .quantified r y d g _ =>
    q == r && x == y && beq c d && beqPart f g
  | .reduce a i x c m _, .reduce b j y d n _ =>
    a == b && beq i j && x == y && beq c d && beq m n
  | _, _ => false

def beqAll : List Expr → List Expr → Bool
  | [], [] => true
  | a :: as, b :: bs => beq a b && beqAll as bs
  | _, _ => false

def beqPart : Option Expr → Option Expr → Bool
  | none, none => true
  | some a, some b => beq a b
  | _, _ => false

end

instance : BEq Expr := ⟨beq⟩

/-! ### Preorder -/

mutual

/-- An expression and all its parts, each before its own parts. -/
def nodes : Expr → List Expr
  | e@(.constant _) | e@(.label _) | e@(.placeholder ..) => [e]
  | e@(.unary _ operand) => e :: nodes operand
  | e@(.arithmetic _ left right) | e@(.relational _ left right) => e :: (nodes left ++ nodes right)
  | e@(.logical _ operands) => e :: nodesAll operands
  | e@(.list items) => e :: nodesAll items
  | e@(.attr object _) => e :: nodes object
  | e@(.comprehension _ collection filter mapping _) =>
    e :: (nodes collection ++ nodesPart filter ++ nodesPart mapping)
  | e@(.quantified _ _ collection filter _) => e :: (nodes collection ++ nodesPart filter)
  | e@(.reduce _ initial _ collection mapping _) =>
    e :: (nodes initial ++ nodes collection ++ nodes mapping)

def nodesAll : List Expr → List Expr
  | [] => []
  | e :: es => nodes e ++ nodesAll es

def nodesPart : Option Expr → List Expr
  | none => []
  | some e => nodes e

end

/-- The names that an expression itself binds in some of its parts. -/
def binders : Expr → List String
  | .comprehension binder .. => [binder]
  | .quantified _ binder .. => if binder.isEmpty then [] else [binder]
  | .reduce accumulator _ binder .. => [accumulator, binder]
  | _ => []

/-- The names bound anywhere in an expression, outermost first. -/
def innerVars (e : Expr) : List String := e.nodes.flatMap binders

def isPlaceholder : Expr → Bool
  | .placeholder .. => true
  | _ => false

/-- Whether no placeholder is left in an expression. -/
def isResolved (e : Expr) : Bool := e.nodes.all (!·.isPlaceholder)

mutual

/-- Whether an expression is built without any name. -/
def isConstant : Expr → Bool
  | .constant _ => true
  | .label _ | .placeholder .. => false
  | .unary _ operand => isConstant operand
  | .arithmetic _ left right | .relational _ left right => isConstant left && isConstant right
  | .logical _ operands => areConstant operands
  | .list items => areConstant items
  | .attr object _ => isConstant object
  | .comprehension .. | .quantified .. | .reduce .. => false

def areConstant : List Expr → Bool
  | [] => true
  | e :: es => isConstant e && areConstant es

end

end Expr

end GraphQuery
