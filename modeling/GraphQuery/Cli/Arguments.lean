import GraphQuery.Wire.Decode

/-!
# Command line arguments

The command line names one of three commands, with options before and after its name. The options
`-d`, `--debug` and `--max-depth N` belong to every command and may stand on either side, once on
each; on both sides, the one after the command's name counts. `-b`, `--bind NAME=VALUE` belongs to
`eval` and may be repeated. A value stands behind its option, after an equals sign or, for a short
option, at once; a value that stands apart must not begin with a dash, unless it is only a dash.
After `--` there are no more options.

## Main definitions

* `Cli.Command`, `Cli.Invocation`: what the command line asks for.
* `Cli.parse?`: reads the arguments.
-/

namespace GraphQuery

namespace Cli

/-- What to do. -/
inductive Command where
  | render (hex : String)
  | eval (hex : String) (bindings : List String)
  | sample
  deriving DecidableEq, Repr

/-- What to do, and how deep expressions may be nested. -/
structure Invocation where
  maxDepth : Nat
  command : Command
  deriving DecidableEq, Repr

/-- The names of the commands. -/
inductive CommandName where
  | render
  | eval
  | sample
  deriving DecidableEq, Repr

def CommandName.ofString? : String → Option CommandName
  | "render" => some .render
  | "eval" => some .eval
  | "sample" => some .sample
  | _ => none

/-- The options. -/
inductive OptionName where
  | debug
  | maxDepth
  | bind
  deriving DecidableEq, Repr

/-- The part of the command line that is read: before the name of the command, or after it. -/
abbrev Side := Option CommandName

namespace OptionName

/-- Whether an option may stand on a side. -/
def allowed (side : Side) : OptionName → Bool
  | .debug | .maxDepth => true
  | .bind => side = some .eval

def ofLong? : String → Option OptionName
  | "debug" => some .debug
  | "max-depth" => some .maxDepth
  | "bind" => some .bind
  | _ => none

def ofShort? : Char → Option OptionName
  | 'd' => some .debug
  | 'b' => some .bind
  | _ => none

def takesValue : OptionName → Bool
  | .debug => false
  | .maxDepth | .bind => true

end OptionName

/-- What was found on one side of the command's name. -/
structure Found where
  debug : Bool := false
  maxDepth : Option Nat := none
  bindings : List String := []
  operands : List String := []

/-- The greatest depth that can be asked for. -/
def greatestDepth : Nat := UInt64.size - 1

/-- A number of levels in decimal digits, with an optional plus sign. -/
def depth? (text : String) : Option Nat := do
  let digits := match text.toList with
    | '+' :: rest => rest
    | other => other
  if digits.isEmpty || !digits.all Char.isDigit then none
  else
    let n := Nat.ofDigitChars 10 digits 0
    if n ≤ greatestDepth then some n else none

namespace Found

/-- Notes an option. An option that may not be repeated is refused the second time. -/
def note? (found : Found) (option : OptionName) (value : String) : Option Found :=
  match option with
  | .debug => if found.debug then none else some { found with debug := true }
  | .maxDepth =>
    if found.maxDepth.isSome then none
    else (depth? value).map fun n => { found with maxDepth := some n }
  | .bind => some { found with bindings := found.bindings ++ [value] }

/-- Notes an argument that is no option. -/
def operand (found : Found) (argument : String) : Found :=
  { found with operands := found.operands ++ [argument] }

end Found

/-- What an argument is, as far as it can be told without what follows it. -/
inductive Shape where
  /-- `--`, after which there are no options. -/
  | endOfOptions
  /-- A long option, with the value behind its equals sign. -/
  | long (name : String) (value : Option String)
  /-- A cluster of short options. -/
  | short (cluster : List Char)
  | plain

/-- The shape of an argument. -/
def Shape.of (argument : String) : Shape :=
  match argument.toList with
  | ['-', '-'] => .endOfOptions
  | '-' :: '-' :: rest =>
    let name := String.ofList (rest.takeWhile (· ≠ '='))
    match rest.dropWhile (· ≠ '=') with
    | [] => .long name none
    | _ :: value => .long name (some (String.ofList value))
  | '-' :: c :: rest => .short (c :: rest)
  | _ => .plain

/-- Whether an argument can be the value of the option before it. -/
def Shape.isValue : Shape → Bool
  | .plain => true
  | _ => false

/-- The outcome of a cluster of short options: all of them were noted, or the last one waits for
a value. -/
inductive ClusterResult where
  | done (found : Found)
  | pending (found : Found) (option : OptionName)

/-- Reads a cluster of short options. What follows an option with a value is its value, an equals
sign in front of it left out. -/
def readCluster? (side : Side) (found : Found) : List Char → Option ClusterResult
  | [] => some (.done found)
  | c :: rest => do
    let option ← OptionName.ofShort? c
    if !option.allowed side then none
    else if option.takesValue then
      match rest with
      | [] => some (.pending found option)
      | '=' :: value => (found.note? option (String.ofList value)).map .done
      | value => (found.note? option (String.ofList value)).map .done
    else readCluster? side (← found.note? option "") rest

/-- Reads the arguments on one side of the command's name: before it up to an argument that is no
option, and after it to the end. The arguments that were not read are returned, and whether the
end of the options was met. -/
def readSide? (side : Side) (found : Found) (pending : Option OptionName) :
    List String → Option (Found × List String)
  | [] => if pending.isSome then none else some (found, [])
  | argument :: rest =>
    match pending with
    | some option => do
      if !(Shape.of argument).isValue then none
      else readSide? side (← found.note? option argument) none rest
    | none =>
      match Shape.of argument with
      | .endOfOptions => some (rest.foldl Found.operand found, [])
      | .long name value => do
        let option ← OptionName.ofLong? name
        if !option.allowed side then none
        else
          match option.takesValue, value with
          | true, some value => readSide? side (← found.note? option value) none rest
          | true, none => readSide? side found (some option) rest
          | false, none => readSide? side (← found.note? option "") none rest
          | false, some _ => none
      | .short cluster => do
        match ← readCluster? side found cluster with
        | .done found => readSide? side found none rest
        | .pending found option => readSide? side found (some option) rest
      | .plain =>
        if side.isNone then some (found, argument :: rest)
        else readSide? side (found.operand argument) none rest

/-- The command of a name with what was found after it. -/
def command? (name : CommandName) (found : Found) : Option Command :=
  match name, found.operands with
  | .render, [hex] => some (.render hex)
  | .eval, [hex] => some (.eval hex found.bindings)
  | .sample, [] => some .sample
  | _, _ => none

/-- What the arguments ask for, if they can be understood. -/
def parse? (arguments : List String) : Option Invocation := do
  let (before, rest) ← readSide? none {} none arguments
  match rest with
  | [] => none
  | first :: rest =>
    let name ← CommandName.ofString? first
    let (after, _) ← readSide? (some name) {} none rest
    let command ← command? name after
    some ⟨(after.maxDepth.or before.maxDepth).getD Wire.defaultDepth, command⟩

end Cli

end GraphQuery
