/-!
# Entries in the order of their keys

A finite map is held as the list of its entries, the keys strictly increasing. So a map has one
form only, and its entries come in the order in which they are printed and written.

## Main definitions

* `Entries.insert`: binds a key, in place of an earlier binding of it.
* `Entries.ofList`: the entries of a list of bindings, of which the last one for a key counts.
* `Entries.Sorted`: the keys are strictly increasing.
-/

namespace GraphQuery

namespace Entries

variable {κ α : Type} [LT κ] [DecidableLT κ] [DecidableEq κ]

/-- Binds `key` to `value`. -/
def insert (key : κ) (value : α) : List (κ × α) → List (κ × α)
  | [] => [(key, value)]
  | (k, v) :: rest =>
    if key < k then (key, value) :: (k, v) :: rest
    else if key = k then (key, value) :: rest
    else (k, v) :: insert key value rest

/-- The entries that remain when the bindings of a list are made one after the other. -/
def ofList (bindings : List (κ × α)) : List (κ × α) :=
  bindings.foldl (fun entries (k, v) => insert k v entries) []

omit [DecidableLT κ] [DecidableEq κ] in
/-- The keys are strictly increasing. -/
def Sorted (entries : List (κ × α)) : Prop := entries.Pairwise fun a b => a.1 < b.1

end Entries

end GraphQuery
