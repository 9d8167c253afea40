import GraphQuery.Binary64.Arithmetic
import GraphQuery.Expr.Basic
import GraphQuery.Scope
import GraphQuery.Value.Compare

/-!
# Evaluation

An expression has a value, or an error, over a lookup of names. Null stands for a value that is
not known: it passes through arithmetic and comparison, and the connectives are those of
three-valued logic. Integers wrap around at 64 bits.

Operands are evaluated from left to right, no further than is needed: nothing after the first error
is evaluated, and the connectives and all quantifiers but `exists` stop at the first operand or
element that decides them. The operands of a connective and the items of a list are delayed
computations, so that what comes after the last one needed costs nothing.

## Main definitions

* `EvalError`: why an expression has no value, and its wording.
* `Value.unary`, `Value.arithmetic`, `Value.relational`: the operators on values.
* `LogicalOp.connect`: a connective over the delayed outcomes of its operands.
* `Expr.eval`: the value of an expression.
-/

namespace GraphQuery

/-- Where a value of the wrong type was found. -/
inductive MismatchSite where
  | collection
  | membership
  | attr (name : String)
  deriving DecidableEq, Repr

namespace MismatchSite

def describe : MismatchSite → String
  | .collection => "collection"
  | .membership => "right operand of IN"
  | .attr name => "attribute `" ++ name ++ "'"

/-- The type that is needed at a site. -/
def expected : MismatchSite → ValueType
  | .collection | .membership => .list
  | .attr _ => .map

end MismatchSite

/-- Why an expression has no value. -/
inductive EvalError where
  | unbound (name : String)
  | mismatch (site : MismatchSite) (actual : ValueType)
  | invalidOperands (op : Operator) (left : ValueType) (right : Option ValueType)
  | divisionByZero
  /-- A placeholder was met; no expression that was resolved leads here. -/
  | unresolved (left right : String)
  deriving DecidableEq, Repr

namespace Expr

/-- The complaint about a placeholder that is still there at some stage. -/
def unresolvedMessage (left right stage : String) : String :=
  "LabelAttributeExpression `" ++ left ++ "." ++ right ++ "' has to be rewritten before " ++ stage

end Expr

def EvalError.message : EvalError → String
  | .unbound name => "Variable `" ++ name ++ "' is not defined"
  | .mismatch site actual =>
    "Type mismatch in " ++ site.describe ++ ": expected " ++ site.expected.name ++ ", got " ++
      actual.name
  | .invalidOperands op left right =>
    "Invalid operand types for operator " ++ op.symbol ++ ": left=" ++ left.name ++ ", right=" ++
      (right.map ValueType.name).getD "NONE"
  | .divisionByZero => "Division by zero"
  | .unresolved left right => Expr.unresolvedMessage left right "evaluation"

/-- What evaluation gives. -/
abbrev Outcome := Except EvalError Value

/-! ### Operators on values -/

namespace UnaryOp

/-- The error of an operator on an operand that it does not take. -/
def invalidOn (op : UnaryOp) (operand : Value) : Outcome :=
  .error (.invalidOperands (.unary op) operand.type none)

/-- The value of an operator on an operand. -/
def apply (op : UnaryOp) (operand : Value) : Outcome :=
  match op with
  | .not =>
    match operand with
    | .null => .ok .null
    | .bool b => .ok (.bool !b)
    | _ => op.invalidOn operand
  | .plus =>
    match operand with
    | .null | .int _ | .float _ => .ok operand
    | _ => op.invalidOn operand
  | .minus =>
    match operand with
    | .null => .ok .null
    | .int n => .ok (.int (-n))
    | .float x => .ok (.float x.neg)
    | _ => op.invalidOn operand
  | .isNull => .ok (.bool operand.isNull)
  | .isNotNull => .ok (.bool !operand.isNull)
  | .isEmpty => .ok (.bool operand.isEmpty)
  | .isNotEmpty => .ok (.bool !operand.isEmpty)

end UnaryOp

namespace ArithmeticOp

/-- Arithmetic on integers, modulo `2 ^ 64`; quotients are truncated toward zero. -/
def onInts (op : ArithmeticOp) (m n : Int64) : Outcome :=
  match op with
  | .add => .ok (.int (m + n))
  | .sub => .ok (.int (m - n))
  | .mul => .ok (.int (m * n))
  | .div => if n = 0 then .error .divisionByZero else .ok (.int (m / n))
  | .mod => if n = 0 then .error .divisionByZero else .ok (.int (m % n))

def onFloats (op : ArithmeticOp) (x y : Binary64) : Binary64 :=
  match op with
  | .add => x.add y
  | .sub => x.sub y
  | .mul => x.mul y
  | .div => x.div y
  | .mod => x.rem y

/-- The value of an operator on two operands. A null operand makes the result null; an integer
beside a float counts as a float; texts and lists can be added. -/
def apply (op : ArithmeticOp) (left right : Value) : Outcome :=
  let invalid : Outcome :=
    .error (.invalidOperands (.arithmetic op) left.type (some right.type))
  match left, right with
  | .null, _ | _, .null => .ok .null
  | .int m, .int n => op.onInts m n
  | .int m, .float y => .ok (.float (op.onFloats (.ofInt m.toInt) y))
  | .float x, .int n => .ok (.float (op.onFloats x (.ofInt n.toInt)))
  | .float x, .float y => .ok (.float (op.onFloats x y))
  | .string s, .string t => if op = .add then .ok (.string (s ++ t)) else invalid
  | .list as, .list bs => if op = .add then .ok (.list (as ++ bs)) else invalid
  | _, _ => invalid

end ArithmeticOp

namespace RelationalOp

/-- Whether a comparison holds of operands in a given order. -/
def holds (op : RelationalOp) (order : Ordering) : Bool :=
  match op with
  | .lt => order.isLT
  | .le => order.isLE
  | .gt => order.isGT
  | .ge => order.isGE
  | .eq | .mem => order.isEq
  | .ne => order.isNe

/-- A comparison that needs the order of its operands. -/
def byOrder (op : RelationalOp) (left right : Value) : Outcome :=
  match left.order? right with
  | some order => .ok (.bool (op.holds order))
  | none => .error (.invalidOperands (.relational op) left.type (some right.type))

/-- Whether a value is among the elements of a list. -/
def membership (left right : Value) : Outcome :=
  match right with
  | .null => .ok .null
  | .list items =>
    if left.isNull then .ok .null else .ok (.bool (items.any (·.looseEq left)))
  | _ => .error (.mismatch .membership right.type)

/-- The value of a comparison. Comparisons with null are null. -/
def apply (op : RelationalOp) (left right : Value) : Outcome :=
  if op = .mem then membership left right
  else if left.isNull || right.isNull then .ok .null
  else
    match op with
    | .eq => .ok (.bool (left.looseEq right))
    | .ne => .ok (.bool !left.looseEq right)
    | _ => op.byOrder left right

end RelationalOp

namespace LogicalOp

/-- Whether a truth value decides a connective, whatever the other operands are. -/
def decides (op : LogicalOp) (b : Bool) : Bool :=
  match op with
  | .and => !b
  | .or => b
  | .xor => false

/-- The value of a connective that no operand decided and no null left open; `parity` tells
whether an odd number of operands was true. -/
def verdict (op : LogicalOp) (parity : Bool) : Bool :=
  match op with
  | .and => true
  | .or => false
  | .xor => parity

/-- A connective over the delayed outcomes of its operands, given whether a null was met before
and the parity of the true operands before. No operand is computed after the first one that
decides the connective or is in error. -/
def connectFrom (op : LogicalOp) (sawNull parity : Bool) : List (Thunk Outcome) → Outcome
  | [] => .ok (if sawNull then .null else .bool (op.verdict parity))
  | operand :: rest =>
    match operand.get with
    | .error e => .error e
    | .ok .null => op.connectFrom true parity rest
    | .ok (.bool b) =>
      if op.decides b then .ok (.bool b) else op.connectFrom sawNull (parity != b) rest
    | .ok v => .error (.invalidOperands (.logical op) v.type none)

/-- A connective over the delayed outcomes of its operands. -/
def connect (op : LogicalOp) (operands : List (Thunk Outcome)) : Outcome :=
  op.connectFrom false false operands

end LogicalOp

/-! ### Collections -/

namespace Value

/-- The elements of a collection, or a complaint about a value that is none. -/
def elements (v : Value) : Except EvalError (List Value) :=
  match v.items? with
  | some items => .ok items
  | none => .error (.mismatch .collection v.type)

/-- The value of an attribute: null if the map lacks it, or if there is no map at all. -/
def attr (v : Value) (name : String) : Outcome :=
  match v with
  | .map entries => .ok ((entries.lookup name).getD .null)
  | .null => .ok .null
  | _ => .error (.mismatch (.attr name) v.type)

end Value

/-- The images of the items that are kept. For each item in turn it is decided whether to keep it
before its image is computed. -/
def selectImages (keep : Value → Except EvalError Bool) (image : Value → Outcome) :
    List Value → Except EvalError (List Value)
  | [] => .ok []
  | item :: rest => do
    if ← keep item then
      let v ← image item
      return v :: (← selectImages keep image rest)
    else selectImages keep image rest

/-- Whether exactly one item satisfies a test; the second one found settles that. -/
def exactlyOne (test : Value → Except EvalError Bool) : List Value → Except EvalError Bool
  | [] => .ok false
  | item :: rest => do
    if ← test item then return !(← rest.anyM test)
    else exactlyOne test rest

/-- Whether the elements of a collection satisfy a quantifier. -/
def Quantifier.test (quantifier : Quantifier) (test : Value → Except EvalError Bool)
    (collection : Value) : Except EvalError Bool :=
  match quantifier with
  | .exists => .ok !collection.isEmpty
  | .all => do (← collection.elements).allM test
  | .any => do (← collection.elements).anyM test
  | .single => do exactlyOne test (← collection.elements)
  | .none => do return !(← (← collection.elements).anyM test)

/-! ### Expressions -/

namespace Expr

mutual

/-- The value of an expression over a lookup of names. -/
def eval : Expr → Lookup → Outcome
  | .constant value, _ => .ok value
  | .label name, lookup =>
    match lookup name with
    | some value => .ok value
    | none => .error (.unbound name)
  | .unary op operand, lookup => do op.apply (← eval operand lookup)
  | .arithmetic op left right, lookup => do
    let l ← eval left lookup
    let r ← eval right lookup
    op.apply l r
  | .relational op left right, lookup => do
    let l ← eval left lookup
    let r ← eval right lookup
    op.apply l r
  | .logical op operands, lookup => op.connect (delayEach operands lookup)
  | .list items, lookup => do return .list (← (delayEach items lookup).mapM Thunk.get)
  | .attr object name, lookup => do (← eval object lookup).attr name
  | .placeholder left right, _ => .error (.unresolved left right)
  | .comprehension binder collection filter mapping _, lookup => do
    let items ← (← eval collection lookup).elements
    return .list (← selectImages
      (fun item => satisfies filter (fun _ => true) (lookup.bind binder item) item)
      (fun item => evalPart mapping (lookup.bind binder item) item) items)
  | .quantified quantifier binder collection filter _, lookup => do
    let items ← eval collection lookup
    return .bool (← quantifier.test
      (fun item => satisfies filter Value.isTruthy (lookup.bind binder item) item) items)
  | .reduce accumulator initial binder collection mapping _, lookup => do
    let start ← eval initial lookup
    let items ← (← eval collection lookup).elements
    items.foldlM
      (fun acc item => eval mapping ((lookup.bind accumulator acc).bind binder item)) start

/-- The outcomes of expressions, one for each, delayed until they are asked for. -/
def delayEach : List Expr → Lookup → List (Thunk Outcome)
  | [], _ => []
  | e :: es, lookup => Thunk.mk (fun _ => eval e lookup) :: delayEach es lookup

/-- Whether an item passes an optional filter; without a filter a test on the item decides. -/
def satisfies : Option Expr → (Value → Bool) → Lookup → Value → Except EvalError Bool
  | none, otherwise, _, item => .ok (otherwise item)
  | some filter, _, lookup, _ => do return (← eval filter lookup).isTruthy

/-- The value of an optional mapping; without a mapping an item is its own image. -/
def evalPart : Option Expr → Lookup → Value → Outcome
  | none, _, item => .ok item
  | some mapping, lookup, _ => eval mapping lookup

end

end Expr

end GraphQuery
