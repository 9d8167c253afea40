import GraphQuery.Expr.Build
import GraphQuery.Expr.Eval
import GraphQuery.Text.Utf8

/-!
# Faults of the wire form

Why bytes are not the wire form of an expression, and why an expression has no wire form.

## Main definitions

* `Wire.Fault`, `Wire.DecodeError`: what is wrong with bytes.
* `Wire.EncodeError`: why an expression cannot be written.
-/

namespace GraphQuery

namespace Wire

/-- What was being read when the bytes ended. -/
inductive Field where
  | byte
  | length
  | string
  | integer
  | float
  | listElements
  | listValues
  | mapEntries
  deriving DecidableEq, Repr

def Field.describe : Field → String
  | .byte => "byte"
  | .length => "length"
  | .string => "string"
  | .integer => "integer"
  | .float => "float"
  | .listElements => "list elements"
  | .listValues => "list values"
  | .mapEntries => "map entries"

/-- A set of symbols that a byte may stand for. -/
inductive SymbolSet where
  | unary
  | arithmetic
  | relational
  | logical
  | quantifier
  | form
  deriving DecidableEq, Repr

def SymbolSet.describe : SymbolSet → String
  | .unary => "unary operator"
  | .arithmetic => "arithmetic operator"
  | .relational => "relational operator"
  | .logical => "logical operator"
  | .quantifier => "predicate kind"
  | .form => "expression tag"

/-- What is wrong with bytes that are no wire form. -/
inductive Fault where
  | truncated (field : Field) (needed available : Nat)
  | badText (fault : Utf8.Fault)
  | badPresence (byte : UInt8)
  | unknownSymbol (set : SymbolSet) (byte : UInt8)
  | unknownType (byte : UInt8)
  | unknownVersion (byte : UInt8)
  | tooDeep (limit : Nat)
  | trailing (count : Nat)
  deriving DecidableEq, Repr

def Fault.reason : Fault → String
  | .truncated field needed available =>
    "truncated input reading " ++ field.describe ++ s!": need {needed} bytes, have {available}"
  | .badText fault => "invalid UTF-8: " ++ fault.message
  | .badPresence byte => s!"invalid presence byte {byte}"
  | .unknownSymbol set byte => "unknown " ++ set.describe ++ s!" {byte}"
  | .unknownType byte => ValueType.unknownMessage byte
  | .unknownVersion byte => s!"unsupported wire format version {byte}"
  | .tooDeep limit => s!"nesting exceeds maximum depth {limit}"
  | .trailing count => s!"{count} trailing bytes after expression"

/-- Why bytes are refused: they are malformed, or they describe an expression that cannot be
built or that has no wire form. -/
inductive DecodeError where
  | malformed (fault : Fault)
  | construction (fault : ConstructionFault)
  | unsupported (formName : String)
  /-- Bytes were taken that are not there, or a level was left that was not entered; no bytes
  lead here. -/
  | outOfRange
  deriving DecidableEq, Repr

/-- The complaint about a form without a value and a wire form. -/
def unsupportedMessage (formName : String) : String :=
  "Unsupported expression kind: " ++ formName

def DecodeError.message : DecodeError → String
  | .malformed fault => "Failed to decode expression: " ++ fault.reason
  | .construction fault => fault.message
  | .unsupported formName => unsupportedMessage formName
  | .outOfRange => "index out of range"

/-- Why an expression has no wire form: a placeholder is left in it, or a length does not fit. -/
inductive EncodeError where
  | unresolved (left right : String)
  | tooLong (length : Nat)
  deriving DecidableEq, Repr

def EncodeError.message : EncodeError → String
  | .unresolved left right => Expr.unresolvedMessage left right "encoding"
  | .tooLong length =>
    s!"Failed to encode expression: length {length} does not fit the u32 prefix"

end Wire

end GraphQuery
