import GraphQuery.Bytes.Reader
import GraphQuery.Bytes.Words
import GraphQuery.Response.Basic
import GraphQuery.Text.Utf8

/-!
# The byte form of records

A record is the sequence of its fields: numbers least significant byte first in their full width,
truth values in one byte, texts and lists after a length of eight bytes, optional fields after a
byte that is nought or one, and choices after the position of the choice in four bytes. A map is
the list of its entries, which are read in any order; of two entries with the same key the later
one counts. Bytes that are left after a record are of no concern.

## Main definitions

* `Record.Fault`: why bytes are not the form of a record.
* `Record.writeResponse`, `Record.readResponse`, and likewise for logins and values.
-/

namespace GraphQuery

namespace Record

/-- Why bytes are not the form of a record. -/
inductive Fault where
  | endOfBytes
  /-- A text is longer than what is left. -/
  | endOfText
  | badPresence (byte : UInt8)
  | badBool (byte : UInt8)
  | badChoice (position count : Nat)
  | badText (fault : Utf8.Fault)
  deriving DecidableEq, Repr

def Fault.message : Fault → String
  | .endOfBytes => "io error: unexpected end of file"
  | .endOfText => "io error: "
  | .badPresence byte => s!"tag for enum is not valid, found {byte}"
  | .badBool byte => s!"invalid u8 while decoding bool, expected 0 or 1, found {byte}"
  | .badChoice position count =>
    s!"invalid value: integer `{position}`, expected variant index 0 <= i < {count}"
  | .badText fault => "string is not valid utf8: " ++ fault.message

/-! ### Writing -/

def writeLength (n : Nat) : List UInt8 := Bytes.littleEndian 8 n

/-- The position of a choice. -/
def writeChoice (position : Nat) : List UInt8 := Bytes.littleEndian 4 position

def writeBool (b : Bool) : List UInt8 := [if b then 1 else 0]

def writeInt64 (n : Int64) : List UInt8 := Bytes.littleEndian 8 n.toUInt64.toNat

def writeInt32 (n : Int32) : List UInt8 := Bytes.littleEndian 4 n.toUInt32.toNat

def writeText (s : String) : List UInt8 :=
  let bytes := Utf8.encode s
  writeLength bytes.length ++ bytes

def writeOptional {α : Type} (write : α → List UInt8) : Option α → List UInt8
  | none => [0]
  | some a => 1 :: write a

def writeList {α : Type} (write : α → List UInt8) (items : List α) : List UInt8 :=
  writeLength items.length ++ items.flatMap write

def writePair {α β : Type} (writeFirst : α → List UInt8) (writeSecond : β → List UInt8)
    (pair : α × β) : List UInt8 :=
  writeFirst pair.1 ++ writeSecond pair.2

mutual

def writeValue : Value → List UInt8
  | .null => writeChoice 0
  | .bool b => writeChoice 1 ++ writeBool b
  | .int n => writeChoice 2 ++ writeInt64 n
  | .float x => writeChoice 3 ++ Bytes.littleEndian 8 x.bits.toNat
  | .string s => writeChoice 4 ++ writeText s
  | .list items => writeChoice 5 ++ writeLength items.length ++ writeValues items
  | .map entries => writeChoice 6 ++ writeLength entries.length ++ writeEntries entries

def writeValues : List Value → List UInt8
  | [] => []
  | v :: vs => writeValue v ++ writeValues vs

def writeEntries : List (String × Value) → List UInt8
  | [] => []
  | (key, v) :: es => writeText key ++ writeValue v ++ writeEntries es

end

def writeTable (table : Table) : List UInt8 :=
  writeList writeText table.columns ++ writeList (writeList writeValue) table.rows

def writeProfile (profile : Plan.Profile) : List UInt8 :=
  writeInt64 profile.rows ++ writeInt64 profile.execTime ++ writeInt64 profile.totalTime ++
    writeOptional (writeList (writePair writeText writeText)) profile.other

def writeBranch (branch : Plan.Branch) : List UInt8 :=
  writeBool branch.isDoBranch ++ writeInt64 branch.conditionNode

def writeNode (node : Plan.Node) : List UInt8 :=
  writeText node.name ++ writeInt64 node.id ++ writeText node.outputVar ++
    writeOptional (writeList (writePair writeText writeText)) node.description ++
    writeOptional (writeList writeProfile) node.profiles ++
    writeOptional writeBranch node.branch ++
    writeOptional (writeList writeInt64) node.dependencies

def writePlan (plan : Plan) : List UInt8 :=
  writeList writeNode plan.nodes ++ writeList (writePair writeInt64 writeInt64) plan.index ++
    writeText plan.format ++ writeInt32 plan.optimizeTime

def writeStatus (status : Status) : List UInt8 := writeChoice status.position

/-- The byte form of the answer to a request for a session. -/
def writeLogin (login : Login) : List UInt8 :=
  writeStatus login.status ++ writeOptional writeInt64 login.session ++
    writeOptional writeText login.error

/-- The byte form of the answer to a request for an execution. -/
def writeResponse (response : Response) : List UInt8 :=
  writeStatus response.status ++ writeInt32 response.latency ++
    writeOptional writeTable response.table ++ writeOptional writeText response.space ++
    writeOptional writeText response.error ++ writeOptional writePlan response.plan ++
    writeOptional writeText response.comment

/-! ### Reading -/

/-- A reader of parts of records. -/
abbrev PartReader := Reader Fault

/-- Reads a number of `width` bytes. -/
def readWord (width : Nat) : PartReader Nat := do
  return Bytes.ofLittleEndian (← Reader.take width fun _ => .endOfBytes)

def readByte : PartReader UInt8 := fun bytes =>
  match bytes with
  | byte :: rest => .ok (byte, rest)
  | [] => .error .endOfBytes

def readBool : PartReader Bool := do
  let byte ← readByte
  if byte = 0 then return false
  else if byte = 1 then return true
  else throw (.badBool byte)

def readInt64 : PartReader Int64 := do return .ofUInt64 (.ofNat (← readWord 8))

def readInt32 : PartReader Int32 := do return .ofUInt32 (.ofNat (← readWord 4))

def readFloat : PartReader Binary64 := do return ⟨.ofNat (← readWord 8)⟩

def readText : PartReader String := do
  let bytes ← Reader.take (← readWord 8) fun _ => .endOfText
  match Utf8.decode bytes with
  | .ok text => return text
  | .error fault => throw (.badText fault)

/-- Reads the position of one of the given choices. -/
def readChoice {α : Type} (choices : List α) : PartReader α := do
  let position ← readWord 4
  match choices[position]? with
  | some choice => return choice
  | none => throw (.badChoice position choices.length)

def readOptional {α : Type} (reader : PartReader α) : PartReader (Option α) := do
  let byte ← readByte
  if byte = 0 then return none
  else if byte = 1 then return some (← reader)
  else throw (.badPresence byte)

def readList {α : Type} (reader : PartReader α) : PartReader (List α) := do
  Reader.times reader (← readWord 8)

def readPair {α β : Type} (first : PartReader α) (second : PartReader β) :
    PartReader (α × β) := do
  let a ← first
  return (a, ← second)

/-- Reads the entries of a map. -/
def readMap {κ α : Type} [LT κ] [DecidableLT κ] [DecidableEq κ] (key : PartReader κ)
    (value : PartReader α) : PartReader (List (κ × α)) := do
  return Entries.ofList (← readList (readPair key value))

/-- Reads a value, the values inside it by `nested`. -/
def readValue (nested : PartReader Value) : PartReader Value := do
  match ← readChoice ValueType.all with
  | .null => return .null
  | .bool => return .bool (← readBool)
  | .int => return .int (← readInt64)
  | .float => return .float (← readFloat)
  | .string => return .string (← readText)
  | .list => return .list (← readList nested)
  | .map => return .map (← readMap readText nested)

/-- A reader of values with at most so many levels. Without any level left there are no bytes
left either, if there were no more bytes than levels. -/
def valueReader : Nat → PartReader Value
  | 0 => throw .endOfBytes
  | levels + 1 => readValue (valueReader levels)

def readTable (value : PartReader Value) : PartReader Table := do
  let columns ← readList readText
  let rows ← readList (readList value)
  return ⟨columns, rows⟩

def readProfile : PartReader Plan.Profile := do
  let rows ← readInt64
  let execTime ← readInt64
  let totalTime ← readInt64
  let other ← readOptional (readMap readText readText)
  return ⟨rows, execTime, totalTime, other⟩

def readBranch : PartReader Plan.Branch := do
  let isDoBranch ← readBool
  let conditionNode ← readInt64
  return ⟨isDoBranch, conditionNode⟩

def readNode : PartReader Plan.Node := do
  let name ← readText
  let id ← readInt64
  let outputVar ← readText
  let description ← readOptional (readList (readPair readText readText))
  let profiles ← readOptional (readList readProfile)
  let branch ← readOptional readBranch
  let dependencies ← readOptional (readList readInt64)
  return ⟨name, id, outputVar, description, profiles, branch, dependencies⟩

def readPlan : PartReader Plan := do
  let nodes ← readList readNode
  let index ← readMap readInt64 readInt64
  let format ← readText
  let optimizeTime ← readInt32
  return ⟨nodes, index, format, optimizeTime⟩

def readStatus : PartReader Status := readChoice Status.all

def readLogin : PartReader Login := do
  let status ← readStatus
  let session ← readOptional readInt64
  let error ← readOptional readText
  return ⟨status, session, error⟩

def readResponse (value : PartReader Value) : PartReader Response := do
  let status ← readStatus
  let latency ← readInt32
  let table ← readOptional (readTable value)
  let space ← readOptional readText
  let error ← readOptional readText
  let plan ← readOptional readPlan
  let comment ← readOptional readText
  return ⟨status, latency, table, space, error, plan, comment⟩

/-- Reads a record from the front of a list of bytes. -/
def decode {α : Type} (reader : PartReader α) (bytes : List UInt8) : Except Fault α :=
  (reader.run bytes).map (·.1)

/-- The value at the front of a list of bytes. A level takes at least one byte, so as many levels
as there are bytes suffice. -/
def decodeValue (bytes : List UInt8) : Except Fault Value :=
  decode (valueReader (bytes.length + 1)) bytes

/-- The answer to a request for a session at the front of a list of bytes. -/
def decodeLogin (bytes : List UInt8) : Except Fault Login := decode readLogin bytes

/-- The answer to a request for an execution at the front of a list of bytes. -/
def decodeResponse (bytes : List UInt8) : Except Fault Response :=
  decode (readResponse (valueReader (bytes.length + 1))) bytes

end Record

end GraphQuery
