import GraphQuery.Wire.Layout

/-!
# Writing the wire form

The wire form is written part by part behind the bytes that a buffer holds already.

## Main definitions

* `Wire.putValue`, `Wire.putExpr`: write a value and an expression behind the bytes of a buffer.
* `Wire.encodeOnto`, `Wire.encode`: the wire form behind other bytes, and by itself.
-/

namespace GraphQuery

namespace Wire

/-- What writes onto a buffer. -/
abbrev Writer := StateT (Array UInt8) (Except EncodeError) Unit

/-- Writes bytes behind those of the buffer. -/
def put (bytes : List UInt8) : Writer := modify fun (buffer : Array UInt8) => buffer ++ bytes

/-- Writes a length or a count in four bytes. -/
def putLength (n : Nat) : Writer :=
  if n < UInt32.size then put (Bytes.bigEndian 4 n) else throw (.tooLong n)

/-- Writes a text after its length in bytes. -/
def putText (s : String) : Writer := do
  let bytes := Utf8.encode s
  putLength bytes.length
  put bytes

def putOrigin : Option String → Writer
  | none => put [presence false]
  | some origin => do
    put [presence true]
    putText origin

mutual

/-- Writes a constant. -/
def putValue : Value → Writer
  | .null => put [ValueType.null.tag]
  | .bool b => put [ValueType.bool.tag, presence b]
  | .int n => put (ValueType.int.tag :: Bytes.bigEndian 8 n.toUInt64.toNat)
  | .float x => put (ValueType.float.tag :: Bytes.bigEndian 8 x.bits.toNat)
  | .string s => do
    put [ValueType.string.tag]
    putText s
  | .list items => do
    put [ValueType.list.tag]
    putLength items.length
    putItems items
  | .map entries => do
    put [ValueType.map.tag]
    putLength entries.length
    putEntries entries

def putItems : List Value → Writer
  | [] => pure ()
  | v :: vs => do
    putValue v
    putItems vs

def putEntries : List (String × Value) → Writer
  | [] => pure ()
  | (key, v) :: es => do
    putText key
    putValue v
    putEntries es

end

mutual

/-- Writes an expression. -/
def putExpr : Expr → Writer
  | .constant value => do
    put [Form.constant.tag]
    putValue value
  | .label name => do
    put [Form.label.tag]
    putText name
  | .unary op operand => do
    put [Form.unary.tag, op.tag]
    putExpr operand
  | .arithmetic op left right => do
    put [Form.arithmetic.tag, op.tag]
    putExpr left
    putExpr right
  | .relational op left right => do
    put [Form.relational.tag, op.tag]
    putExpr left
    putExpr right
  | .logical op operands => do
    put [Form.logical.tag, op.tag]
    putLength operands.length
    putExprs operands
  | .list items => do
    put [Form.list.tag]
    putLength items.length
    putExprs items
  | .attr object name => do
    put [Form.attr.tag]
    putExpr object
    putText name
  | .placeholder left right => throw (.unresolved left right)
  | .comprehension binder collection filter mapping origin => do
    put [Form.comprehension.tag]
    putText binder
    putExpr collection
    putPart filter
    putPart mapping
    putOrigin origin
  | .quantified quantifier binder collection filter origin => do
    put [Form.quantified.tag, quantifier.tag]
    putText binder
    putExpr collection
    putPart filter
    putOrigin origin
  | .reduce accumulator initial binder collection mapping origin => do
    put [Form.reduce.tag]
    putText accumulator
    putExpr initial
    putText binder
    putExpr collection
    putExpr mapping
    putOrigin origin

def putExprs : List Expr → Writer
  | [] => pure ()
  | e :: es => do
    putExpr e
    putExprs es

/-- Writes an optional part after its presence byte. -/
def putPart : Option Expr → Writer
  | none => put [presence false]
  | some e => do
    put [presence true]
    putExpr e

end

/-- What a buffer holds once the wire form of an expression is written onto it. -/
def encodeOnto (buffer : Array UInt8) (e : Expr) : Except EncodeError (Array UInt8) := do
  let ((), buffer) ← (do put [version]; putExpr e : Writer).run buffer
  return buffer

/-- The wire form of an expression. -/
def encode (e : Expr) : Written := do return (← encodeOnto #[] e).toList

end Wire

end GraphQuery
