import Mathlib.Algebra.Group.Nat.Defs
import Mathlib.Data.List.DropRight
import GraphQuery.Proofs.Entries
import GraphQuery.Response.Plan

/-!
# The index of a plan

A plan is made by adding nodes and, now and then, forgetting all of them. Its nodes are then those
added since it was last emptied, and its index holds for each of their ids the position of the last
node with that id: one more node redirects its own id and leaves all other ids alone.

## Main definitions

* `Plan.run`: the plan after a list of changes.
* `Plan.pushed`: the nodes added by a list of changes since the plan was last emptied.
* `Plan.lastWith?`: the last node with an id, and its position.

## Main results

* `Plan.lookup_index_run`: the index gives the position of the last node with an id.
* `Plan.run_indexes_last`: a plan finds the node that was added last for an id.
-/

namespace GraphQuery

namespace Plan

/-! ### Runs -/

/-- A change of the nodes of a plan. -/
inductive Change where
  | push (node : Node)
  | clear

/-- The node that a change adds. -/
def Change.node? : Change → Option Node
  | .push node => some node
  | .clear => none

def Change.apply (plan : Plan) : Change → Plan
  | .push node => plan.push node
  | .clear => plan.clear

/-- The plan after changes of an empty one. -/
def run (changes : List Change) : Plan := changes.foldl Change.apply {}

/-- The nodes added since the plan was last emptied, in the order in which they were added. -/
def pushed (changes : List Change) : List Node :=
  (changes.rtakeWhile fun change => change.node?.isSome).filterMap Change.node?

theorem run_push (changes : List Change) (node : Node) :
    run (changes ++ [.push node]) = (run changes).push node := by
  rw [run, List.foldl_append]
  rfl

theorem run_clear (changes : List Change) : run (changes ++ [.clear]) = {} := by
  rw [run, List.foldl_append]
  rfl

theorem pushed_push (changes : List Change) (node : Node) :
    pushed (changes ++ [.push node]) = pushed changes ++ [node] := by
  rw [pushed, List.rtakeWhile_concat_pos _ _ _ rfl, List.filterMap_append]
  rfl

theorem pushed_clear (changes : List Change) : pushed (changes ++ [.clear]) = [] := by
  rw [pushed, List.rtakeWhile_concat_neg _ _ _ (by decide)]
  rfl

theorem nodes_run (changes : List Change) : (run changes).nodes = pushed changes := by
  induction changes using List.reverseRecOn with
  | nil => rfl
  | append_singleton changes change ih =>
    cases change with
    | push node => rw [run_push, pushed_push, push, ih]
    | clear => rw [run_clear, pushed_clear]

/-! ### The last node with an id -/

/-- The last node with an id, and its position. -/
def lastWith? (id : Int64) (nodes : List Node) : Option (Node × Nat) :=
  (nodes.zipIdx.filter fun (node, _) => node.id = id).getLast?

theorem lastWith?_append_singleton (id : Int64) (nodes : List Node) (node : Node) :
    lastWith? id (nodes ++ [node]) =
      if node.id = id then some (node, nodes.length) else lastWith? id nodes := by
  simp only [lastWith?, List.zipIdx_append, List.filter_append, List.getLast?_append]
  split <;> simp_all

theorem map_fst_lastWith? (id : Int64) (nodes : List Node) :
    (lastWith? id nodes).map Prod.fst = (nodes.filter fun node => node.id = id).getLast? := by
  induction nodes using List.reverseRecOn with
  | nil => rfl
  | append_singleton nodes node ih =>
    rw [lastWith?_append_singleton, List.filter_append, List.getLast?_append, ← ih]
    split <;> simp_all

theorem lastWith?_spec {id : Int64} {nodes : List Node} {node : Node} {position : Nat}
    (h : lastWith? id nodes = some (node, position)) :
    nodes[position]? = some node ∧ node.id = id := by
  obtain ⟨hmem, hid⟩ := List.mem_filter.1 (List.mem_of_getLast? h)
  exact ⟨List.mem_zipIdx_iff_getElem?.1 hmem, of_decide_eq_true hid⟩

/-- Every node has a last one with its id. -/
theorem exists_lastWith?_of_mem {nodes : List Node} {node : Node} (h : node ∈ nodes) :
    ∃ last, lastWith? node.id nodes = some last := by
  obtain ⟨position, hposition⟩ := List.mem_iff_getElem?.1 h
  have hmem : (node, position) ∈ nodes.zipIdx.filter fun (m, _) => m.id = node.id :=
    List.mem_filter.2 ⟨List.mem_zipIdx_iff_getElem?.2 hposition, decide_eq_true rfl⟩
  exact ⟨_, List.getLast?_eq_some_getLast (List.ne_nil_of_mem hmem)⟩

/-! ### The index -/

/-- One more node redirects its own id and no other. -/
theorem lookup_index_push (plan : Plan) (node : Node) (id : Int64) :
    (plan.push node).index.lookup id =
      if node.id = id then some (.ofNat plan.nodes.length) else plan.index.lookup id := by
  rw [push, Entries.lookup_insert]
  simp only [eq_comm]

/-- The index gives the position of the last node with an id. -/
theorem lookup_index_run (changes : List Change) (id : Int64) :
    (run changes).index.lookup id =
      (lastWith? id (pushed changes)).map fun (_, position) => .ofNat position := by
  induction changes using List.reverseRecOn with
  | nil => rfl
  | append_singleton changes change ih =>
    cases change with
    | push node =>
      rw [run_push, pushed_push, lookup_index_push, lastWith?_append_singleton, nodes_run, ih]
      split <;> rfl
    | clear => rw [run_clear, pushed_clear]; rfl

theorem sorted_index_run (changes : List Change) : Entries.Sorted (run changes).index := by
  induction changes using List.reverseRecOn with
  | nil => exact .nil
  | append_singleton changes change ih =>
    cases change with
    | push node => rw [run_push]; exact Entries.sorted_insert _ _ ih
    | clear => rw [run_clear]; exact .nil

/-- An entry of the index is the position of the last node with its id. -/
theorem mem_index_run {changes : List Change} {id position : Int64} :
    (id, position) ∈ (run changes).index ↔
      ∃ node i, lastWith? id (pushed changes) = some (node, i) ∧ position = .ofNat i := by
  rw [← Entries.lookup_eq_some_iff_mem (sorted_index_run changes), lookup_index_run,
    Option.map_eq_some_iff]
  simp only [Prod.exists, eq_comm]

/-- Positions that are counted by 64 bits are found again. -/
theorem node?_run_eq {changes : List Change} (h : (pushed changes).length ≤ 2 ^ 63) (id : Int64) :
    (run changes).node? id = (lastWith? id (pushed changes)).map Prod.fst := by
  rw [node?, lookup_index_run, nodes_run]
  cases hlast : lastWith? id (pushed changes) with
  | none => rfl
  | some last =>
    obtain ⟨node, position⟩ := last
    obtain ⟨hnode, -⟩ := lastWith?_spec hlast
    have hlt : position < 2 ^ 63 :=
      Nat.lt_of_lt_of_le (List.getElem?_eq_some_iff.1 hnode).1 h
    have htoInt : (Int64.ofNat position).toInt = position := Int64.toInt_ofNat_of_lt hlt
    simp only [Option.map_some, Option.bind_eq_bind, Option.bind_some, htoInt, Int.natCast_nonneg,
      if_true, Int.toNat_natCast, hnode]

/-! ### What a plan finds -/

/-- A plan lists the nodes added since it was last emptied, has one entry in its index for each of
their ids, and finds the node that was added last for an id. Positions are signed numbers of 64
bits, so the last part is about plans of at most `2 ^ 63` nodes, more than any memory holds. -/
theorem run_indexes_last (changes : List Change) :
    (run changes).nodes = pushed changes ∧
      Entries.Sorted (run changes).index ∧
      (∀ node ∈ pushed changes, ∃ position, (node.id, position) ∈ (run changes).index) ∧
      ((pushed changes).length ≤ 2 ^ 63 →
        (∀ id, (run changes).node? id =
          ((pushed changes).filter fun node => node.id = id).getLast?) ∧
        ∀ id position, (id, position) ∈ (run changes).index →
          0 ≤ position.toInt ∧ position.toInt < (run changes).nodes.length ∧
            ∃ node, (run changes).nodes[position.toInt.toNat]? = some node ∧ node.id = id) := by
  refine ⟨nodes_run changes, sorted_index_run changes, fun node hnode => ?_, fun hfits => ⟨?_, ?_⟩⟩
  · obtain ⟨⟨last, i⟩, hlast⟩ := exists_lastWith?_of_mem hnode
    exact ⟨.ofNat i, mem_index_run.2 ⟨last, i, hlast, rfl⟩⟩
  · intro id
    rw [node?_run_eq hfits, map_fst_lastWith?]
  · intro id position hentry
    obtain ⟨node, i, hlast, rfl⟩ := mem_index_run.1 hentry
    obtain ⟨hnode, hid⟩ := lastWith?_spec hlast
    have hlt : i < (pushed changes).length := (List.getElem?_eq_some_iff.1 hnode).1
    have htoInt : (Int64.ofNat i).toInt = i := Int64.toInt_ofNat_of_lt (by omega)
    rw [htoInt, nodes_run, Int.toNat_natCast]
    exact ⟨Int.natCast_nonneg _, Int.ofNat_lt.2 hlt, node, hnode, hid⟩

/-- Of two nodes with the same id the later one is found, and none that was forgotten. -/
theorem run_indexes_last_redirected :
    let filter : Node := { name := "Filter", id := 3 }
    let scan : Node := { name := "Scan", id := -7 }
    let project : Node := { name := "Project", id := -7 }
    let plan := run [.push filter, .clear, .push scan, .push project]
    plan.nodes = [scan, project] ∧ plan.node? (-7) = some project ∧ plan.node? 3 = none := by
  intro filter scan project plan
  obtain ⟨hnodes, -, -, hfound⟩ :=
    run_indexes_last [.push filter, .clear, .push scan, .push project]
  have hpushed : pushed [.push filter, .clear, .push scan, .push project] = [scan, project] := by
    decide +kernel
  rw [hpushed] at hnodes hfound
  obtain ⟨hnode, -⟩ := hfound (by decide)
  exact ⟨hnodes, (hnode (-7)).trans (by decide +kernel), (hnode 3).trans (by decide +kernel)⟩

end Plan

end GraphQuery
