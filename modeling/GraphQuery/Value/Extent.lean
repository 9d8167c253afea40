import GraphQuery.Value.Basic

/-!
# The extent of a value

## Main definitions

* `Value.depth`: the number of levels on which values are nested in a value.
* `Value.size`: the number of values in a value, itself included.
-/

namespace GraphQuery

namespace Value

mutual

/-- The number of levels of a value: one more than the most levels of a value directly inside. -/
def depth : Value → Nat
  | .null | .bool _ | .int _ | .float _ | .string _ => 1
  | .list items => depthItems items + 1
  | .map entries => depthEntries entries + 1

def depthItems : List Value → Nat
  | [] => 0
  | v :: vs => max (depth v) (depthItems vs)

def depthEntries : List (String × Value) → Nat
  | [] => 0
  | (_, v) :: es => max (depth v) (depthEntries es)

end

mutual

/-- The number of values in a value. -/
def size : Value → Nat
  | .null | .bool _ | .int _ | .float _ | .string _ => 1
  | .list items => sizeItems items + 1
  | .map entries => sizeEntries entries + 1

def sizeItems : List Value → Nat
  | [] => 0
  | v :: vs => size v + sizeItems vs

def sizeEntries : List (String × Value) → Nat
  | [] => 0
  | (_, v) :: es => size v + sizeEntries es

end

/-- A value has at least one level. -/
theorem depth_pos (v : Value) : 0 < v.depth := by cases v <;> simp [depth]

/-- A value counts itself. -/
theorem size_pos (v : Value) : 0 < v.size := by cases v <;> simp [size]

end Value

end GraphQuery
