import GraphQuery.Proofs.Entries
import GraphQuery.Value.Extent

/-!
# Normal values

A value is normal if the maps inside it have their entries in order. Bindings that are in some
order, with repetitions, stand for the map that they make, so any value that is written down has a
normal form, and it is no deeper.

## Main definitions

* `Value.maps`: the entries of every map inside a value.
* `Value.normalize`: the value with the entries of every map in order.

## Main results

* `Value.sorted_normalize`, `Value.normalize_of_sorted`: a normal form is in order, and what is in
  order is its own normal form.
* `Value.depth_normalize_le`: a normal form is no deeper.
-/

namespace GraphQuery

namespace Value

/-! ### Lists of values -/

theorem sortedItems_iff {items : List Value} : SortedItems items ↔ ∀ v ∈ items, v.Sorted := by
  induction items with
  | nil => simp [SortedItems]
  | cons v vs ih => rw [SortedItems, ih, List.forall_mem_cons]

theorem sortedEntries_iff {entries : List (String × Value)} :
    SortedEntries entries ↔ ∀ entry ∈ entries, entry.2.Sorted := by
  induction entries with
  | nil => simp [SortedEntries]
  | cons entry es ih => rw [SortedEntries, ih, List.forall_mem_cons]

theorem depthEntries_le_iff {entries : List (String × Value)} {n : Nat} :
    depthEntries entries ≤ n ↔ ∀ entry ∈ entries, entry.2.depth ≤ n := by
  induction entries with
  | nil => simp [depthEntries]
  | cons entry es ih => rw [depthEntries, Nat.max_le, ih, List.forall_mem_cons]

/-! ### The maps inside a value -/

mutual

/-- The entries of every map inside a value, itself included. -/
def maps : Value → List (List (String × Value))
  | .null | .bool _ | .int _ | .float _ | .string _ => []
  | .list items => itemMaps items
  | .map entries => entries :: entryMaps entries

def itemMaps : List Value → List (List (String × Value))
  | [] => []
  | v :: vs => maps v ++ itemMaps vs

def entryMaps : List (String × Value) → List (List (String × Value))
  | [] => []
  | (_, v) :: es => maps v ++ entryMaps es

end

mutual

theorem sorted_iff_maps : ∀ {v : Value}, v.Sorted ↔ ∀ entries ∈ v.maps, Entries.Sorted entries
  | .null | .bool _ | .int _ | .float _ | .string _ => by simp [Sorted, maps]
  | .list _ => sortedItems_iff_maps
  | .map _ => by rw [Sorted, maps, List.forall_mem_cons, sortedEntries_iff_maps]

theorem sortedItems_iff_maps : ∀ {items : List Value},
    SortedItems items ↔ ∀ entries ∈ itemMaps items, Entries.Sorted entries
  | [] => by simp [SortedItems, itemMaps]
  | v :: vs => by
    rw [SortedItems, itemMaps, List.forall_mem_append, sorted_iff_maps, sortedItems_iff_maps]

theorem sortedEntries_iff_maps : ∀ {entries : List (String × Value)},
    SortedEntries entries ↔ ∀ inner ∈ entryMaps entries, Entries.Sorted inner
  | [] => by simp [SortedEntries, entryMaps]
  | (_, v) :: es => by
    rw [SortedEntries, entryMaps, List.forall_mem_append, sorted_iff_maps, sortedEntries_iff_maps]

end

/-! ### Normal forms -/

mutual

/-- The value with the entries of every map in order, the last one for each key. -/
def normalize : Value → Value
  | .null => .null
  | .bool b => .bool b
  | .int n => .int n
  | .float x => .float x
  | .string s => .string s
  | .list items => .list (normalizeItems items)
  | .map entries => .map (Entries.ofList (normalizeEntries entries))

def normalizeItems : List Value → List Value
  | [] => []
  | v :: vs => normalize v :: normalizeItems vs

def normalizeEntries : List (String × Value) → List (String × Value)
  | [] => []
  | (key, v) :: es => (key, normalize v) :: normalizeEntries es

end

theorem length_normalizeItems : ∀ items : List Value,
    (normalizeItems items).length = items.length
  | [] => rfl
  | v :: vs => by rw [normalizeItems, List.length_cons, length_normalizeItems vs, List.length_cons]

theorem length_normalizeEntries : ∀ entries : List (String × Value),
    (normalizeEntries entries).length = entries.length
  | [] => rfl
  | (k, v) :: es => by
    rw [normalizeEntries, List.length_cons, length_normalizeEntries es, List.length_cons]

/-- There are at most as many entries in a map as there were bindings. -/
theorem length_ofList_normalizeEntries_le (entries : List (String × Value)) :
    (Entries.ofList (normalizeEntries entries)).length ≤ entries.length :=
  length_normalizeEntries entries ▸ (Entries.ofList_subperm _).length_le

mutual

theorem sorted_normalize : ∀ v : Value, v.normalize.Sorted
  | .null | .bool _ | .int _ | .float _ | .string _ => trivial
  | .list items => sortedItems_normalizeItems items
  | .map entries => by
    refine ⟨Entries.sorted_ofList _, sortedEntries_iff.2 fun entry he => ?_⟩
    have hmem := (Entries.ofList_subperm _).subset he
    exact sortedEntries_iff.1 (sortedEntries_normalizeEntries entries) entry hmem

theorem sortedItems_normalizeItems : ∀ items : List Value, SortedItems (normalizeItems items)
  | [] => trivial
  | v :: vs => ⟨sorted_normalize v, sortedItems_normalizeItems vs⟩

theorem sortedEntries_normalizeEntries : ∀ entries : List (String × Value),
    SortedEntries (normalizeEntries entries)
  | [] => trivial
  | (_, v) :: es => ⟨sorted_normalize v, sortedEntries_normalizeEntries es⟩

end

mutual

theorem normalize_of_sorted : ∀ {v : Value}, v.Sorted → v.normalize = v
  | .null, _ | .bool _, _ | .int _, _ | .float _, _ | .string _, _ => rfl
  | .list _, h => congrArg Value.list (normalizeItems_of_sorted h)
  | .map entries, ⟨hkeys, hvalues⟩ => by
    rw [normalize, normalizeEntries_of_sorted hvalues, Entries.ofList_of_sorted hkeys]

theorem normalizeItems_of_sorted : ∀ {items : List Value}, SortedItems items →
    normalizeItems items = items
  | [], _ => rfl
  | v :: vs, ⟨hv, hvs⟩ => by
    rw [normalizeItems, normalize_of_sorted hv, normalizeItems_of_sorted hvs]

theorem normalizeEntries_of_sorted : ∀ {entries : List (String × Value)},
    SortedEntries entries → normalizeEntries entries = entries
  | [], _ => rfl
  | (k, v) :: es, ⟨hv, hes⟩ => by
    rw [normalizeEntries, normalize_of_sorted hv, normalizeEntries_of_sorted hes]

end

mutual

theorem depth_normalize_le : ∀ v : Value, v.normalize.depth ≤ v.depth
  | .null | .bool _ | .int _ | .float _ | .string _ => Nat.le_refl _
  | .list items => Nat.succ_le_succ (depthItems_normalizeItems_le items)
  | .map entries => by
    have hentries := depthEntries_le_iff.1 (depthEntries_normalizeEntries_le entries)
    refine Nat.succ_le_succ (depthEntries_le_iff.2 fun entry he => hentries entry ?_)
    exact (Entries.ofList_subperm _).subset he

theorem depthItems_normalizeItems_le : ∀ items : List Value,
    depthItems (normalizeItems items) ≤ depthItems items
  | [] => Nat.le_refl _
  | v :: vs => by
    have hv := depth_normalize_le v
    have hvs := depthItems_normalizeItems_le vs
    rw [normalizeItems, depthItems, depthItems]
    omega

theorem depthEntries_normalizeEntries_le : ∀ entries : List (String × Value),
    depthEntries (normalizeEntries entries) ≤ depthEntries entries
  | [] => Nat.le_refl _
  | (k, v) :: es => by
    have hv := depth_normalize_le v
    have hes := depthEntries_normalizeEntries_le es
    rw [normalizeEntries, depthEntries, depthEntries]
    omega

end

end Value

end GraphQuery
