import GraphQuery.Value.Basic

/-!
# Names and their values

Evaluation asks only one thing of its surroundings: which value a name has. The names of a query
row are held as bindings; a binding expression puts a scope on top of them for each element of
its collection, which hides an outer binding of the same name.

## Main definitions

* `Lookup`: the value of each name, if it has one.
* `Bindings`: a finite set of named values.
* `Scope`: bindings with scopes of one name each on top.
-/

namespace GraphQuery

/-- The value of each name. -/
abbrev Lookup := String → Option Value

/-- The same lookup except that `name` has the value `value`. -/
def Lookup.bind (lookup : Lookup) (name : String) (value : Value) : Lookup := fun n =>
  if n = name then some value else lookup n

/-- Named values, in the order of their names. -/
structure Bindings where
  entries : List (String × Value)

namespace Bindings

def empty : Bindings := ⟨[]⟩

/-- Gives a name a value, in place of an earlier one. -/
def set (bindings : Bindings) (name : String) (value : Value) : Bindings :=
  ⟨Entries.insert name value bindings.entries⟩

/-- Makes the bindings of a list one after the other. -/
def ofList (named : List (String × Value)) : Bindings := ⟨Entries.ofList named⟩

def lookup (bindings : Bindings) : Lookup := fun name => bindings.entries.lookup name

def size (bindings : Bindings) : Nat := bindings.entries.length

end Bindings

/-- Bindings under a chain of scopes, each of which binds one name. -/
inductive Scope where
  | root (bindings : Bindings)
  | inner (outer : Scope) (name : String) (value : Value)

namespace Scope

/-- The value of a name in the innermost scope that binds it. -/
def lookup : Scope → Lookup
  | .root bindings => bindings.lookup
  | .inner outer name value => outer.lookup.bind name value

/-- The bindings of a scope chain as bindings without scopes: each scope's name is set in turn,
from the outermost to the innermost. -/
def flatten : Scope → Bindings
  | .root bindings => bindings
  | .inner outer name value => outer.flatten.set name value

/-- Puts a scope for each named value on top, the first one outermost. -/
def nest (scope : Scope) (named : List (String × Value)) : Scope :=
  named.foldl (fun s (name, value) => .inner s name value) scope

end Scope

end GraphQuery
