import GraphQuery.Bytes.Words
import GraphQuery.Wire.Fault

/-!
# The layout of the wire form

The wire form of an expression is a version byte and the root node. A node is the tag of its form
and its fields in order: numbers most significant byte first, texts as a length of four bytes and
their UTF-8 bytes, lists as a count of four bytes and their elements, optional parts after a
presence byte, and constants as the tag of their type and their content.

## Main definitions

* `Wire.Form`: the tags of the forms of expressions.
* `Wire.valueBytes`, `Wire.exprBytes`: the bytes of a value and of an expression.
-/

namespace GraphQuery

namespace Wire

/-- The version that a wire form begins with. -/
def version : UInt8 := 1

/-- The tags of the forms of expressions. -/
inductive Form where
  | constant
  | label
  | unary
  | arithmetic
  | relational
  | logical
  | list
  | attr
  | placeholder
  | comprehension
  | quantified
  | reduce
  deriving DecidableEq, Repr

namespace Form

def all : List Form :=
  [.constant, .label, .unary, .arithmetic, .relational, .logical, .list, .attr, .placeholder,
    .comprehension, .quantified, .reduce]

def tag : Form → UInt8
  | .constant => 1
  | .label => 2
  | .unary => 3
  | .arithmetic => 4
  | .relational => 5
  | .logical => 6
  | .list => 7
  | .attr => 8
  | .placeholder => 9
  | .comprehension => 10
  | .quantified => 11
  | .reduce => 12

def ofTag? (tag : UInt8) : Option Form := all.find? (·.tag == tag)

theorem ofTag?_tag (form : Form) : ofTag? form.tag = some form := by cases form <;> rfl

end Form

/-- Bytes, or why there are none. -/
abbrev Written := Except EncodeError (List UInt8)

/-- A length or a count in four bytes. -/
def lengthBytes (n : Nat) : Written :=
  if n < UInt32.size then .ok (Bytes.bigEndian 4 n) else .error (.tooLong n)

/-- A text after its length in bytes. -/
def textBytes (s : String) : Written := do
  let bytes := Utf8.encode s
  return (← lengthBytes bytes.length) ++ bytes

/-- The byte that tells whether an optional part is there. -/
def presence (b : Bool) : UInt8 := if b then 1 else 0

def originBytes : Option String → Written
  | none => .ok [presence false]
  | some origin => do return presence true :: (← textBytes origin)

mutual

/-- A constant: the tag of its type and its content. -/
def valueBytes : Value → Written
  | .null => .ok [ValueType.null.tag]
  | .bool b => .ok [ValueType.bool.tag, presence b]
  | .int n => .ok (ValueType.int.tag :: Bytes.bigEndian 8 n.toUInt64.toNat)
  | .float x => .ok (ValueType.float.tag :: Bytes.bigEndian 8 x.bits.toNat)
  | .string s => do return ValueType.string.tag :: (← textBytes s)
  | .list items => do
    return ValueType.list.tag :: (← lengthBytes items.length) ++ (← itemsBytes items)
  | .map entries => do
    return ValueType.map.tag :: (← lengthBytes entries.length) ++ (← entriesBytes entries)

def itemsBytes : List Value → Written
  | [] => .ok []
  | v :: vs => do return (← valueBytes v) ++ (← itemsBytes vs)

def entriesBytes : List (String × Value) → Written
  | [] => .ok []
  | (key, v) :: es => do return (← textBytes key) ++ (← valueBytes v) ++ (← entriesBytes es)

end

mutual

/-- An expression: the tag of its form and its fields. -/
def exprBytes : Expr → Written
  | .constant value => do return Form.constant.tag :: (← valueBytes value)
  | .label name => do return Form.label.tag :: (← textBytes name)
  | .unary op operand => do return Form.unary.tag :: op.tag :: (← exprBytes operand)
  | .arithmetic op left right => do
    return Form.arithmetic.tag :: op.tag :: (← exprBytes left) ++ (← exprBytes right)
  | .relational op left right => do
    return Form.relational.tag :: op.tag :: (← exprBytes left) ++ (← exprBytes right)
  | .logical op operands => do
    return Form.logical.tag :: op.tag :: (← lengthBytes operands.length) ++
      (← exprsBytes operands)
  | .list items => do
    return Form.list.tag :: (← lengthBytes items.length) ++ (← exprsBytes items)
  | .attr object name => do
    return Form.attr.tag :: (← exprBytes object) ++ (← textBytes name)
  | .placeholder left right => .error (.unresolved left right)
  | .comprehension binder collection filter mapping origin => do
    return Form.comprehension.tag :: (← textBytes binder) ++ (← exprBytes collection) ++
      (← partBytes filter) ++ (← partBytes mapping) ++ (← originBytes origin)
  | .quantified quantifier binder collection filter origin => do
    return Form.quantified.tag :: quantifier.tag :: (← textBytes binder) ++
      (← exprBytes collection) ++ (← partBytes filter) ++ (← originBytes origin)
  | .reduce accumulator initial binder collection mapping origin => do
    return Form.reduce.tag :: (← textBytes accumulator) ++ (← exprBytes initial) ++
      (← textBytes binder) ++ (← exprBytes collection) ++ (← exprBytes mapping) ++
      (← originBytes origin)

def exprsBytes : List Expr → Written
  | [] => .ok []
  | e :: es => do return (← exprBytes e) ++ (← exprsBytes es)

/-- An optional part after its presence byte. -/
def partBytes : Option Expr → Written
  | none => .ok [presence false]
  | some e => do return presence true :: (← exprBytes e)

end

end Wire

end GraphQuery
