import GraphQuery.Response.Plan
import GraphQuery.Response.Status
import GraphQuery.Value.Basic

/-!
# Responses

What a client is told after it asked for a session and after it asked for an execution.

## Main definitions

* `Table`: the rows of a result under the names of their columns.
* `Login`: the answer to a request for a session.
* `Response`: the answer to a request for an execution.
-/

namespace GraphQuery

/-- Rows of values under named columns. -/
structure Table where
  columns : List String := []
  rows : List (List Value) := []
  deriving BEq, Inhabited

namespace Table

/-- Adds a row at the end. -/
def push (table : Table) (row : List Value) : Table :=
  { table with rows := table.rows ++ [row] }

end Table

/-- The answer to a request for a session. -/
structure Login where
  status : Status := .succeeded
  session : Option Int64 := none
  error : Option String := none
  deriving DecidableEq, Inhabited

/-- The answer to a request for an execution. Two answers are equal if all their fields are; on
plans this is equality of plans, whatever the time that was spent on finding them. -/
structure Response where
  status : Status := .succeeded
  /-- The time the request took, in microseconds. -/
  latency : Int32 := 0
  table : Option Table := none
  space : Option String := none
  error : Option String := none
  plan : Option Plan := none
  comment : Option String := none
  deriving BEq, Inhabited

namespace Response

/-- The answer to a request that gave a table. -/
def ofTable (table : Table) : Response := { table := some table }

/-- The answer to a request that failed. -/
def ofError (status : Status) (message : String) : Response :=
  { status := status, error := some message }

end Response

end GraphQuery
