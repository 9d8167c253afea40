import GraphQuery.Value.Basic

/-!
# Comparison of values

The comparisons of the query language. Both of them compare an integer with a float as floats, the
integer rounded, and follow the numeric comparison of floats, in which a NaN equals nothing.

## Main definitions

* `Value.looseEq`: equality across the two numeric types, defined on all values.
* `Value.order?`: the order of two values, if their shapes compare.
-/

namespace GraphQuery

namespace Value

mutual

/-- Equality with numbers compared numerically, at any depth. -/
def looseEq : Value → Value → Bool
  | .int a, .float b => (Binary64.ofInt a.toInt).numericEq b
  | .float a, .int b => (Binary64.ofInt b.toInt).numericEq a
  | .float a, .float b => a.numericEq b
  | .list a, .list b => looseEqItems a b
  | .map a, .map b => looseEqEntries a b
  | a, b => a == b

def looseEqItems : List Value → List Value → Bool
  | [], [] => true
  | a :: as, b :: bs => looseEq a b && looseEqItems as bs
  | _, _ => false

def looseEqEntries : List (String × Value) → List (String × Value) → Bool
  | [], [] => true
  | (k, a) :: as, (l, b) :: bs => k == l && looseEq a b && looseEqEntries as bs
  | _, _ => false

end

mutual

/-- The order of two values: numbers numerically, texts by their code points, `false` before
`true`, lists by their first difference and then by their lengths. Other pairs have no order, nor
have lists that reach a pair without order before they differ. -/
def order? : Value → Value → Option Ordering
  | .int a, .int b => some (compare a.toInt b.toInt)
  | .float a, .float b => a.compare? b
  | .int a, .float b => (Binary64.ofInt a.toInt).compare? b
  | .float a, .int b => a.compare? (Binary64.ofInt b.toInt)
  | .string a, .string b => some (compare a b)
  | .bool a, .bool b => some (compare a b)
  | .list a, .list b => orderItems? a b
  | _, _ => none

def orderItems? : List Value → List Value → Option Ordering
  | [], [] => some .eq
  | [], _ :: _ => some .lt
  | _ :: _, [] => some .gt
  | a :: as, b :: bs =>
    match order? a b with
    | some .eq => orderItems? as bs
    | outcome => outcome

end

end Value

end GraphQuery
