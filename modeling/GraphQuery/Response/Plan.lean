import GraphQuery.Entries

/-!
# Execution plans

A plan lists the nodes that were executed, in the order in which they were added, and indexes them
by their ids. Of two nodes with the same id the index leads to the later one.

## Main definitions

* `Plan.Node`: a node with its profiles, its branch and the nodes it depends on.
* `Plan.clear`, `Plan.push`: forget all nodes, add a node and index it.
* `Plan.node?`: the node that the index gives for an id.
-/

namespace GraphQuery

/-- What one run of a node took, times in microseconds. -/
structure Plan.Profile where
  rows : Int64 := 0
  /-- The time in the node itself. -/
  execTime : Int64 := 0
  /-- The time with scheduling. -/
  totalTime : Int64 := 0
  /-- Other measurements, in the order of their names. -/
  other : Option (List (String × String)) := none
  deriving DecidableEq, Inhabited

/-- The branch of a loop or a selection that a node belongs to. -/
structure Plan.Branch where
  /-- Whether this is the body of a loop, or what is done if a selection's condition holds. -/
  isDoBranch : Bool := false
  conditionNode : Int64 := -1
  deriving DecidableEq, Inhabited

/-- A node of a plan. -/
structure Plan.Node where
  name : String := ""
  id : Int64 := -1
  outputVar : String := ""
  description : Option (List (String × String)) := none
  /-- One profile for each run of the node. -/
  profiles : Option (List Plan.Profile) := none
  branch : Option Plan.Branch := none
  dependencies : Option (List Int64) := none
  deriving DecidableEq, Inhabited

/-- The node with every described pair, every profile and the branch reset to nothing, and all
else as it was. -/
def Plan.Node.resetParts (node : Plan.Node) : Plan.Node :=
  { node with
    description := node.description.map fun pairs => pairs.map fun _ => ("", "")
    profiles := node.profiles.map fun runs => runs.map fun _ => {}
    branch := node.branch.map fun _ => {} }

/-- An execution plan. -/
structure Plan where
  nodes : List Plan.Node := []
  /-- The position of a node by its id, in the order of ids. -/
  index : List (Int64 × Int64) := []
  /-- The name of the format in which the plan is shown. -/
  format : String := ""
  optimizeTime : Int32 := 0
  deriving Inhabited

namespace Plan

/-- Plans are equal whatever the time that was spent on finding them. -/
def beq (p q : Plan) : Bool := p.nodes == q.nodes && p.index == q.index && p.format == q.format

instance : BEq Plan := ⟨beq⟩

/-- The plan without nodes, whatever it was. -/
def clear (_ : Plan) : Plan := {}

/-- Adds a node at the end and indexes it by its id. -/
def push (plan : Plan) (node : Node) : Plan :=
  { plan with
    nodes := plan.nodes ++ [node]
    index := Entries.insert node.id (.ofNat plan.nodes.length) plan.index }

/-- The node at the position that the index gives for an id. -/
def node? (plan : Plan) (id : Int64) : Option Node := do
  let position ← plan.index.lookup id
  if 0 ≤ position.toInt then plan.nodes[position.toInt.toNat]? else none

end Plan

end GraphQuery
