import GraphQuery.Binary64.Basic
import GraphQuery.Entries

/-!
# Values

The values that expressions compute: null, truth values, 64-bit integers, binary64 numbers, texts,
lists, and maps from texts to values. Equality of values is structural: floats are equal when
their bits are, so a NaN equals itself and the two zeros differ. The equality of the query
language is another relation, `Value.looseEq`.

## Main definitions

* `ValueType`: the seven types of values, their names and tags.
* `Value`: the type of values, with structural equality as `==`.
* `Value.isTruthy`, `Value.isEmpty`, `Value.items?`: how a value counts in a filter, in a test for
  emptiness and as a collection.
* `Value.Sorted`: every map inside has its keys in strictly increasing order.
-/

namespace GraphQuery

/-- The types of values. -/
inductive ValueType where
  | null
  | bool
  | int
  | float
  | string
  | list
  | map
  deriving DecidableEq, Repr, Inhabited

namespace ValueType

def all : List ValueType := [.null, .bool, .int, .float, .string, .list, .map]

/-- The name of a type in messages. -/
def name : ValueType → String
  | .null => "NULL"
  | .bool => "BOOL"
  | .int => "INT"
  | .float => "FLOAT"
  | .string => "STRING"
  | .list => "LIST"
  | .map => "MAP"

/-- The byte that stands for a type. -/
def tag : ValueType → UInt8
  | .null => 0
  | .bool => 1
  | .int => 2
  | .float => 3
  | .string => 4
  | .list => 5
  | .map => 6

/-- The type that a byte stands for. -/
def ofTag? (tag : UInt8) : Option ValueType := all.find? (·.tag == tag)

theorem ofTag?_tag (t : ValueType) : ofTag? t.tag = some t := by cases t <;> rfl

/-- The complaint about a byte that stands for no type. -/
def unknownMessage (tag : UInt8) : String := s!"Unknown data type: {tag}"

end ValueType

/-- A value. The entries of a map are kept in the order of their keys. -/
inductive Value where
  | null
  | bool (b : Bool)
  | int (n : Int64)
  | float (x : Binary64)
  | string (s : String)
  | list (items : List Value)
  | map (entries : List (String × Value))
  deriving Inhabited

namespace Value

def type : Value → ValueType
  | .null => .null
  | .bool _ => .bool
  | .int _ => .int
  | .float _ => .float
  | .string _ => .string
  | .list _ => .list
  | .map _ => .map

def isNull : Value → Bool
  | .null => true
  | _ => false

/-- Whether a value counts as empty: null, and texts, lists and maps without content. -/
def isEmpty : Value → Bool
  | .null => true
  | .string s => s.isEmpty
  | .list items => items.isEmpty
  | .map entries => entries.isEmpty
  | .bool _ | .int _ | .float _ => false

/-- Whether a value counts as true in a filter. -/
def isTruthy : Value → Bool
  | .null => false
  | .bool b => b
  | .int n => n != 0
  | .float x => !x.isZero
  | .string s => !s.isEmpty
  | .list items => !items.isEmpty
  | .map entries => !entries.isEmpty

/-- The elements of a collection in their order; null is the collection without elements, and
values other than lists are no collections. -/
def items? : Value → Option (List Value)
  | .null => some []
  | .list items => some items
  | _ => none

/-! ### Structural equality -/

mutual

/-- Structural equality. -/
def beq : Value → Value → Bool
  | .null, .null => true
  | .bool a, .bool b => a == b
  | .int a, .int b => a == b
  | .float a, .float b => a == b
  | .string a, .string b => a == b
  | .list a, .list b => beqItems a b
  | .map a, .map b => beqEntries a b
  | _, _ => false

def beqItems : List Value → List Value → Bool
  | [], [] => true
  | a :: as, b :: bs => beq a b && beqItems as bs
  | _, _ => false

def beqEntries : List (String × Value) → List (String × Value) → Bool
  | [], [] => true
  | (k, a) :: as, (l, b) :: bs => k == l && beq a b && beqEntries as bs
  | _, _ => false

end

instance : BEq Value := ⟨beq⟩

/-! ### Sorted maps -/

mutual

/-- Every map inside the value has its keys in strictly increasing order. -/
def Sorted : Value → Prop
  | .null | .bool _ | .int _ | .float _ | .string _ => True
  | .list items => SortedItems items
  | .map entries => Entries.Sorted entries ∧ SortedEntries entries

def SortedItems : List Value → Prop
  | [] => True
  | v :: vs => Sorted v ∧ SortedItems vs

def SortedEntries : List (String × Value) → Prop
  | [] => True
  | (_, v) :: es => Sorted v ∧ SortedEntries es

end

end Value

end GraphQuery
