import GraphQuery.Decimal.Numeral
import GraphQuery.Text.Blank
import GraphQuery.Value.Basic

/-!
# Bindings given as text

A binding is written `NAME=VALUE`. A value is `null`, a truth value, a number, a text in double
quotes, a list in brackets, whose items are separated by commas, or else a text as it stands.
Blanks around names, values and items do not count. Inside quotes there are no escapes.

## Main definitions

* `Binding.splitItems`: the items between the brackets of a list.
* `Binding.readValue`: the value of a text.
* `Binding.read`: the name and the value of a binding.
-/

namespace GraphQuery

namespace Binding

/-- Why a text is no value. A list is reported by its text with or without its brackets. -/
inductive ValueFault where
  | unclosedList (text : List Char)
  | unclosedQuote (text : List Char)
  | strayBracket (items : List Char)
  | openQuote (items : List Char)
  | openBracket (items : List Char)
  deriving DecidableEq, Repr

def ValueFault.message : ValueFault → String
  | .unclosedList text => "List `" ++ String.ofList text ++ "' is missing its closing `]'"
  | .unclosedQuote text => "String `" ++ String.ofList text ++ "' is missing its closing quote"
  | .strayBracket items => "Unbalanced `]' in `[" ++ String.ofList items ++ "]'"
  | .openQuote items => "Unterminated string in `[" ++ String.ofList items ++ "]'"
  | .openBracket items => "Unbalanced `[' in `[" ++ String.ofList items ++ "]'"

/-- Why a text is no binding. -/
inductive Fault where
  | noEqualsSign (binding : String)
  | emptyName (binding : String)
  | badValue (binding : String) (fault : ValueFault)
  deriving DecidableEq, Repr

def Fault.message : Fault → String
  | .noEqualsSign binding => "Binding `" ++ binding ++ "' is not of the form NAME=VALUE"
  | .emptyName binding => "Binding `" ++ binding ++ "' has an empty name"
  | .badValue binding _ => "Invalid value in binding `" ++ binding ++ "'"

/-! ### Items of a list -/

/-- Why the inside of a list cannot be split: brackets or quotes do not pair up. -/
inductive SplitFault where
  | strayBracket
  | openQuote
  | openBracket
  deriving DecidableEq, Repr

/-- Puts a character in front of the first item. -/
def consFirst (c : Char) : List (List Char) → List (List Char)
  | [] => [[c]]
  | item :: items => (c :: item) :: items

/-- Splits a text at its commas, except those inside quotes and inside brackets, given the number
of open brackets and whether a quote is open before it. -/
def splitFrom (depth : Nat) (quoted : Bool) : List Char → Except SplitFault (List (List Char))
  | [] =>
    if quoted then .error .openQuote
    else if depth ≠ 0 then .error .openBracket
    else .ok [[]]
  | c :: rest =>
    if c = '"' then (splitFrom depth (!quoted) rest).map (consFirst c)
    else if quoted then (splitFrom depth quoted rest).map (consFirst c)
    else if c = '[' then (splitFrom (depth + 1) quoted rest).map (consFirst c)
    else if c = ']' then
      if depth = 0 then .error .strayBracket
      else (splitFrom (depth - 1) quoted rest).map (consFirst c)
    else if c = ',' ∧ depth = 0 then (splitFrom depth quoted rest).map ([] :: ·)
    else (splitFrom depth quoted rest).map (consFirst c)

/-- The items between the brackets of a list, separated by its outermost commas. -/
def splitItems (items : List Char) : Except ValueFault (List (List Char)) :=
  match splitFrom 0 false items with
  | .ok parts => .ok parts
  | .error .strayBracket => .error (.strayBracket items)
  | .error .openQuote => .error (.openQuote items)
  | .error .openBracket => .error (.openBracket items)

/-! ### Values -/

/-- The text without the character `last` at its end. -/
def dropLast? (last : Char) (text : List Char) : Option (List Char) :=
  if text.getLast? = some last then some text.dropLast else none

/-- A value that is neither a list nor in quotes. -/
def readScalar (text : List Char) : Value :=
  let word := String.ofList text
  if word = "null" ∨ word = "NULL" then .null
  else if word = "true" then .bool true
  else if word = "false" then .bool false
  else
    match Numeral.int64? text with
    | some n => .int n
    | none =>
      match Numeral.binary64? text with
      | some x => .float x
      | none => .string word

/-- Reads a value with lists nested at most so many levels deep. -/
def readNested : Nat → List Char → Except ValueFault Value
  | 0, text => .ok (readScalar text)
  | levels + 1, text =>
    match text with
    | '[' :: rest =>
      match dropLast? ']' rest with
      | none => .error (.unclosedList text)
      | some items =>
        if (Text.trim items).isEmpty then .ok (.list [])
        else do
          let parts ← splitItems items
          return .list (← parts.mapM fun part => readNested levels (Text.trim part))
    | '"' :: rest =>
      match dropLast? '"' rest with
      | none => .error (.unclosedQuote text)
      | some inner => .ok (.string (String.ofList inner))
    | _ => .ok (readScalar text)

/-- The value of a text. A level of nesting takes two characters, so as many levels as there are
characters suffice. -/
def readValue (text : List Char) : Except ValueFault Value := readNested text.length text

/-! ### Bindings -/

/-- The name and the value of a binding. The name ends at the first equals sign. -/
def read (binding : String) : Except Fault (String × Value) :=
  let text := binding.toList
  match text.dropWhile (· ≠ '=') with
  | [] => .error (.noEqualsSign binding)
  | _ :: rest =>
    let name := Text.trim (text.takeWhile (· ≠ '='))
    if name.isEmpty then .error (.emptyName binding)
    else
      match readValue (Text.trim rest) with
      | .ok value => .ok (String.ofList name, value)
      | .error fault => .error (.badValue binding fault)

end Binding

end GraphQuery
