/-!
# Status codes

The outcome of a request as the client protocol numbers it.

## Main definitions

* `Status`: the fifteen outcomes, in the order in which records number them.
* `Status.code`, `Status.ofCode?`: the number of an outcome in the protocol.
-/

namespace GraphQuery

/-- The outcome of a request. -/
inductive Status where
  | succeeded
  | disconnected
  | failToConnect
  | rpcFailure
  | badUsernamePassword
  | sessionInvalid
  | sessionTimeout
  | syntaxError
  | executionError
  /-- Nothing was executed, for instance because the statement was only a comment. -/
  | statementEmpty
  | userNotFound
  | badPermission
  | semanticError
  | tooManyConnections
  | partialSucceeded
  deriving DecidableEq, Repr, Inhabited

namespace Status

/-- All outcomes in the order of their positions. -/
def all : List Status :=
  [.succeeded, .disconnected, .failToConnect, .rpcFailure, .badUsernamePassword, .sessionInvalid,
    .sessionTimeout, .syntaxError, .executionError, .statementEmpty, .userNotFound,
    .badPermission, .semanticError, .tooManyConnections, .partialSucceeded]

/-- The position of an outcome among all outcomes. -/
def position : Status → Nat
  | .succeeded => 0
  | .disconnected => 1
  | .failToConnect => 2
  | .rpcFailure => 3
  | .badUsernamePassword => 4
  | .sessionInvalid => 5
  | .sessionTimeout => 6
  | .syntaxError => 7
  | .executionError => 8
  | .statementEmpty => 9
  | .userNotFound => 10
  | .badPermission => 11
  | .semanticError => 12
  | .tooManyConnections => 13
  | .partialSucceeded => 14

theorem getElem?_position (status : Status) : all[status.position]? = some status := by
  cases status <;> rfl

/-- The number of an outcome in the protocol. -/
def code : Status → Int
  | .succeeded => 0
  | .disconnected => -1
  | .failToConnect => -2
  | .rpcFailure => -3
  | .badUsernamePassword => -1001
  | .sessionInvalid => -1002
  | .sessionTimeout => -1003
  | .syntaxError => -1004
  | .executionError => -1005
  | .statementEmpty => -1006
  | .userNotFound => -18
  | .badPermission => -1008
  | .semanticError => -1009
  | .tooManyConnections => -1010
  | .partialSucceeded => -1011

/-- The outcome of a number. -/
def ofCode? (code : Int) : Option Status := all.find? (·.code == code)

/-- An outcome is found by its number, so no two have the same one. -/
theorem ofCode?_code (status : Status) : ofCode? status.code = some status := by
  cases status <;> rfl

def isSucceeded (status : Status) : Bool := status == .succeeded

def name : Status → String
  | .succeeded => "Succeeded"
  | .disconnected => "Disconnected"
  | .failToConnect => "FailToConnect"
  | .rpcFailure => "RpcFailure"
  | .badUsernamePassword => "BadUsernamePassword"
  | .sessionInvalid => "SessionInvalid"
  | .sessionTimeout => "SessionTimeout"
  | .syntaxError => "SyntaxError"
  | .executionError => "ExecutionError"
  | .statementEmpty => "StatementEmpty"
  | .userNotFound => "UserNotFound"
  | .badPermission => "BadPermission"
  | .semanticError => "SemanticError"
  | .tooManyConnections => "TooManyConnections"
  | .partialSucceeded => "PartialSucceeded"

/-- The name of an outcome with its number. -/
def text (status : Status) : String := status.name ++ "(" ++ toString status.code ++ ")"

end Status

end GraphQuery
