/-!
# Operators

The operators of expressions. Each has a symbol, which is how it is written, and a tag, the byte
that stands for it in the wire form.

## Main definitions

* `UnaryOp`, `ArithmeticOp`, `RelationalOp`, `LogicalOp`: the operators by the operands they take.
* `Quantifier`: the predicates over the elements of a collection.
* `Operator`: an operator of any kind, as evaluation reports it.
-/

namespace GraphQuery

/-- Operators on one operand. -/
inductive UnaryOp where
  | not
  | plus
  | minus
  | isNull
  | isNotNull
  | isEmpty
  | isNotEmpty
  deriving DecidableEq, Repr, Inhabited

namespace UnaryOp

def all : List UnaryOp := [.not, .plus, .minus, .isNull, .isNotNull, .isEmpty, .isNotEmpty]

def symbol : UnaryOp → String
  | .not => "!"
  | .plus => "+"
  | .minus => "-"
  | .isNull => "IS NULL"
  | .isNotNull => "IS NOT NULL"
  | .isEmpty => "IS EMPTY"
  | .isNotEmpty => "IS NOT EMPTY"

def tag : UnaryOp → UInt8
  | .not => 1
  | .plus => 2
  | .minus => 3
  | .isNull => 4
  | .isNotNull => 5
  | .isEmpty => 6
  | .isNotEmpty => 7

def ofTag? (tag : UInt8) : Option UnaryOp := all.find? (·.tag == tag)

theorem ofTag?_tag (op : UnaryOp) : ofTag? op.tag = some op := by cases op <;> rfl

/-- Whether the operator is written after its operand. -/
def isPostfix : UnaryOp → Bool
  | .isNull | .isNotNull | .isEmpty | .isNotEmpty => true
  | .not | .plus | .minus => false

end UnaryOp

/-- Operators on two operands that compute a number, or join texts and lists. -/
inductive ArithmeticOp where
  | add
  | sub
  | mul
  | div
  | mod
  deriving DecidableEq, Repr, Inhabited

namespace ArithmeticOp

def all : List ArithmeticOp := [.add, .sub, .mul, .div, .mod]

def symbol : ArithmeticOp → String
  | .add => "+"
  | .sub => "-"
  | .mul => "*"
  | .div => "/"
  | .mod => "%"

def tag : ArithmeticOp → UInt8
  | .add => 1
  | .sub => 2
  | .mul => 3
  | .div => 4
  | .mod => 5

def ofTag? (tag : UInt8) : Option ArithmeticOp := all.find? (·.tag == tag)

theorem ofTag?_tag (op : ArithmeticOp) : ofTag? op.tag = some op := by cases op <;> rfl

end ArithmeticOp

/-- Comparisons of two operands. -/
inductive RelationalOp where
  | eq
  | ne
  | lt
  | le
  | gt
  | ge
  | mem
  deriving DecidableEq, Repr, Inhabited

namespace RelationalOp

def all : List RelationalOp := [.eq, .ne, .lt, .le, .gt, .ge, .mem]

/-- How a comparison is written; the test for membership carries the blanks around it. -/
def symbol : RelationalOp → String
  | .eq => "=="
  | .ne => "!="
  | .lt => "<"
  | .le => "<="
  | .gt => ">"
  | .ge => ">="
  | .mem => " IN "

def tag : RelationalOp → UInt8
  | .eq => 1
  | .ne => 2
  | .lt => 3
  | .le => 4
  | .gt => 5
  | .ge => 6
  | .mem => 7

def ofTag? (tag : UInt8) : Option RelationalOp := all.find? (·.tag == tag)

theorem ofTag?_tag (op : RelationalOp) : ofTag? op.tag = some op := by cases op <;> rfl

end RelationalOp

/-- Connectives of two or more operands. -/
inductive LogicalOp where
  | and
  | or
  | xor
  deriving DecidableEq, Repr, Inhabited

namespace LogicalOp

def all : List LogicalOp := [.and, .or, .xor]

def symbol : LogicalOp → String
  | .and => "AND"
  | .or => "OR"
  | .xor => "XOR"

def tag : LogicalOp → UInt8
  | .and => 1
  | .or => 2
  | .xor => 3

def ofTag? (tag : UInt8) : Option LogicalOp := all.find? (·.tag == tag)

theorem ofTag?_tag (op : LogicalOp) : ofTag? op.tag = some op := by cases op <;> rfl

end LogicalOp

/-- Predicates over the elements of a collection. -/
inductive Quantifier where
  | all
  | any
  | single
  | none
  | exists
  deriving DecidableEq, Repr, Inhabited

namespace Quantifier

def values : List Quantifier := [.all, .any, .single, .none, .exists]

def name : Quantifier → String
  | .all => "all"
  | .any => "any"
  | .single => "single"
  | .none => "none"
  | .exists => "exists"

def tag : Quantifier → UInt8
  | .all => 0
  | .any => 1
  | .single => 2
  | .none => 3
  | .exists => 4

def ofTag? (tag : UInt8) : Option Quantifier := values.find? (·.tag == tag)

theorem ofTag?_tag (q : Quantifier) : ofTag? q.tag = some q := by cases q <;> rfl

/-- The quantifier of a name, the case of ASCII letters apart. -/
def ofName? (name : String) : Option Quantifier :=
  values.find? (·.name.toList == name.toList.map Char.toLower)

end Quantifier

/-- An operator of any kind. -/
inductive Operator where
  | unary (op : UnaryOp)
  | arithmetic (op : ArithmeticOp)
  | relational (op : RelationalOp)
  | logical (op : LogicalOp)
  deriving DecidableEq, Repr

def Operator.symbol : Operator → String
  | .unary op => op.symbol
  | .arithmetic op => op.symbol
  | .relational op => op.symbol
  | .logical op => op.symbol

end GraphQuery
