import GraphQuery.Bytes.Reader
import GraphQuery.Wire.Layout

/-!
# Reading the wire form

A reader moves a cursor. Before it takes bytes it asks whether they are there, and what it takes
without having asked would be out of range. A count is compared with the number of bytes that are
left before any element is read, as every element takes at least one byte.

A node is read one level deeper than what it stands in: the cursor counts the levels, expressions
and the values inside constants alike, and a level too many is noticed before anything of the
nested node is read. The reader of a node takes the readers of what is nested in it as arguments,
and the recursion is on the number of levels that may still be entered.

## Main definitions

* `Wire.Cursor`: where a reader stands.
* `Wire.valueReader`, `Wire.exprReader`: readers of values and expressions of bounded depth.
* `Wire.decode`: the expression of a wire form.
-/

namespace GraphQuery

namespace Wire

/-- The number of levels allowed when nothing else is said. -/
def defaultDepth : Nat := 512

/-- Where a reader stands: the bytes that are left, and the number of levels that were entered. -/
structure Cursor where
  bytes : List UInt8
  depth : Nat
  deriving DecidableEq, Repr

/-- A reader of parts of the wire form. -/
abbrev PartReader := StateT Cursor (Except DecodeError)

/-! ### Parts -/

def fail {α : Type} (fault : Fault) : PartReader α := throw (.malformed fault)

/-- Fails unless `n` bytes are left for a field. -/
def needBytes (field : Field) (n : Nat) : PartReader Unit := fun cursor =>
  if Bytes.hasAtLeast n cursor.bytes then .ok ((), cursor)
  else .error (.malformed (.truncated field n cursor.bytes.length))

/-- Takes the next byte, which has to be there. -/
def advanceByte : PartReader UInt8 := fun cursor =>
  match cursor.bytes with
  | byte :: rest => .ok (byte, { cursor with bytes := rest })
  | [] => .error .outOfRange

/-- Takes the next `n` bytes, which have to be there. -/
def advance (n : Nat) : PartReader (List UInt8) := fun cursor =>
  match Bytes.split? n cursor.bytes with
  | some (first, rest) => .ok (first, { cursor with bytes := rest })
  | none => .error .outOfRange

def readByte : PartReader UInt8 := do
  needBytes .byte 1
  advanceByte

/-- Reads `n` bytes of a field. -/
def readBytes (field : Field) (n : Nat) : PartReader (List UInt8) := do
  needBytes field n
  advance n

def readLength : PartReader Nat := do return Bytes.ofBigEndian (← readBytes .length 4)

def readText : PartReader String := do
  let bytes ← readBytes .string (← readLength)
  match Utf8.decode bytes with
  | .ok text => return text
  | .error fault => fail (.badText fault)

/-- Reads a byte that is nought or one. -/
def readPresence : PartReader Bool := do
  let byte ← readByte
  if byte = 0 then return false
  else if byte = 1 then return true
  else fail (.badPresence byte)

/-- Reads a symbol of a set. -/
def readSymbol {α : Type} (set : SymbolSet) (ofTag? : UInt8 → Option α) : PartReader α := do
  let byte ← readByte
  match ofTag? byte with
  | some symbol => return symbol
  | none => fail (.unknownSymbol set byte)

/-- Reads a part that may be absent. -/
def readOptional {α : Type} (reader : PartReader α) : PartReader (Option α) := do
  if ← readPresence then return some (← reader) else return none

/-- Reads an origin; an empty one counts as absent. -/
def readOrigin : PartReader (Option String) := do
  return (← readOptional readText).bind Expr.keptOrigin

/-- Reads a count and as many elements. -/
def readList {α : Type} (field : Field) (reader : PartReader α) : PartReader (List α) := do
  let count ← readLength
  needBytes field count
  Reader.times reader count

/-- Takes what was built, or fails with the fault of its construction. -/
def built (result : Except ConstructionFault Expr) : PartReader Expr :=
  match result with
  | .ok e => pure e
  | .error fault => throw (.construction fault)

/-! ### Levels -/

/-- Enters a level, unless it is one too many. -/
def enter (limit : Nat) : PartReader Unit := do
  modify fun cursor => { cursor with depth := cursor.depth + 1 }
  if limit < (← get).depth then fail (.tooDeep limit)

/-- Leaves a level, which has to have been entered. -/
def leave : PartReader Unit := fun cursor =>
  match cursor.depth with
  | 0 => .error .outOfRange
  | depth + 1 => .ok ((), { cursor with depth })

/-- Reads one level deeper. -/
def readInside {α : Type} (limit : Nat) (reader : PartReader α) : PartReader α := do
  enter limit
  let result ← reader
  leave
  return result

/-! ### Values -/

/-- Reads an entry of a map. -/
def readEntry (value : PartReader Value) : PartReader (String × Value) := do
  let key ← readText
  return (key, ← value)

/-- Reads a value, the values inside it by `nested`. Of two entries with the same key the later
one counts. -/
def readValue (nested : PartReader Value) : PartReader Value := do
  let byte ← readByte
  match ValueType.ofTag? byte with
  | none => fail (.unknownType byte)
  | some .null => return .null
  | some .bool => return .bool (← readPresence)
  | some .int => return .int (.ofUInt64 (.ofNat (Bytes.ofBigEndian (← readBytes .integer 8))))
  | some .float => return .float ⟨.ofNat (Bytes.ofBigEndian (← readBytes .float 8))⟩
  | some .string => return .string (← readText)
  | some .list => return .list (← readList .listValues nested)
  | some .map => return .map (Entries.ofList (← readList .mapEntries (readEntry nested)))

/-- A reader of values that may enter so many levels; there are as many as the cursor falls short
of the limit. -/
def valueReader (limit : Nat) : Nat → PartReader Value
  | 0 => readInside limit (throw .outOfRange)
  | levels + 1 => readInside limit (readValue (valueReader limit levels))

/-! ### Expressions -/

/-- Reads an expression, the constants inside it by `value` and the expressions by `nested`. -/
def readExpr (value : PartReader Value) (nested : PartReader Expr) : PartReader Expr := do
  match ← readSymbol .form Form.ofTag? with
  | .constant => return .constant (← value)
  | .label => return .label (← readText)
  | .unary =>
    let op ← readSymbol .unary UnaryOp.ofTag?
    return .unary op (← nested)
  | .arithmetic =>
    let op ← readSymbol .arithmetic ArithmeticOp.ofTag?
    let left ← nested
    return .arithmetic op left (← nested)
  | .relational =>
    let op ← readSymbol .relational RelationalOp.ofTag?
    let left ← nested
    return .relational op left (← nested)
  | .logical =>
    let op ← readSymbol .logical LogicalOp.ofTag?
    built (Expr.connective op (← readList .listElements nested))
  | .list => return .list (← readList .listElements nested)
  | .attr =>
    let object ← nested
    return .attr object (← readText)
  | .placeholder => throw (.unsupported (Expr.placeholder "" "").formName)
  | .comprehension =>
    let binder ← readText
    let collection ← nested
    -- the variable is checked before the other parts are read
    let _ ← built (Expr.comprehend binder collection none none)
    let filter ← readOptional nested
    let mapping ← readOptional nested
    return .comprehension binder collection filter mapping (← readOrigin)
  | .quantified =>
    let quantifier ← readSymbol .quantifier Quantifier.ofTag?
    let binder ← readText
    let collection ← nested
    let filter ← readOptional nested
    let _ ← built (Expr.quantify quantifier binder collection filter)
    return .quantified quantifier binder collection filter (← readOrigin)
  | .reduce =>
    let accumulator ← readText
    let initial ← nested
    let binder ← readText
    let collection ← nested
    let mapping ← nested
    let _ ← built (Expr.reduction accumulator initial binder collection mapping)
    return .reduce accumulator initial binder collection mapping (← readOrigin)

/-- A reader of expressions that may enter so many levels; there are as many as the cursor falls
short of the limit. -/
def exprReader (limit : Nat) : Nat → PartReader Expr
  | 0 => readInside limit (throw .outOfRange)
  | levels + 1 => readInside limit (readExpr (valueReader limit levels) (exprReader limit levels))

/-! ### Wire forms -/

/-- Reads the version and the root node. -/
def readRoot (limit : Nat) : PartReader Expr := do
  let byte ← readByte
  if byte = version then exprReader limit limit else fail (.unknownVersion byte)

/-- The expression of a wire form whose nesting does not exceed `limit` levels. No bytes may be
left over. -/
def decode (limit : Nat) (bytes : List UInt8) : Except DecodeError Expr :=
  match readRoot limit ⟨bytes, 0⟩ with
  | .error e => .error e
  | .ok (e, ⟨[], _⟩) => .ok e
  | .ok (_, ⟨rest, _⟩) => .error (.malformed (.trailing rest.length))

end Wire

end GraphQuery
