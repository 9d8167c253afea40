import GraphQuery.Decimal.Text
import GraphQuery.Text.Quoted
import GraphQuery.Value.Basic

/-!
# The text of a value

Null is written `NULL`, truth values and numbers in the usual way, texts in quotes, lists in
brackets and maps in braces. The keys of a map are written as they are.

## Main definitions

* `Value.chars`, `Value.text`: the text of a value, as characters and as a string.
-/

namespace GraphQuery

namespace Value

/-- The decimal text of an integer. -/
def intChars : Int → List Char
  | .ofNat n => Nat.toDigits 10 n
  | .negSucc n => '-' :: Nat.toDigits 10 (n + 1)

/-- What stands between the items of a list and between the entries of a map. -/
def separator : List Char := [',', ' ']

mutual

/-- The characters of a value's text. -/
def chars : Value → List Char
  | .null => "NULL".toList
  | .bool b => (if b then "true" else "false").toList
  | .int n => intChars n.toInt
  | .float x => x.text
  | .string s => Text.quoted s.toList
  | .list items => '[' :: itemChars items ++ [']']
  | .map entries => '\x7b' :: entryChars entries ++ ['\x7d']

def itemChars : List Value → List Char
  | [] => []
  | [v] => chars v
  | v :: vs => chars v ++ separator ++ itemChars vs

def entryChars : List (String × Value) → List Char
  | [] => []
  | [(key, v)] => key.toList ++ ':' :: ' ' :: chars v
  | (key, v) :: es => key.toList ++ ':' :: ' ' :: chars v ++ separator ++ entryChars es

end

/-- The text of a value. -/
def text (v : Value) : String := String.ofList v.chars

end Value

end GraphQuery
