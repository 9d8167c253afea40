import GraphQuery.Binding
import GraphQuery.Cli.Arguments
import GraphQuery.Expr.Text
import GraphQuery.Text.Hex
import GraphQuery.Wire.Encode

/-!
# Running the command line

Each command either gives lines for the standard output or fails with a report for the error
output: a complaint and, if there is one, its cause.

## Main definitions

* `Cli.Failure`: why a command failed, and how this is reported.
* `Cli.run`: what a command gives.
-/

namespace GraphQuery

namespace Cli

/-- Why a command failed. -/
inductive Failure where
  | badHex (fault : Hex.Fault)
  | badWireForm (error : Wire.DecodeError)
  | badBinding (fault : Binding.Fault)
  | noValue (e : Expr) (error : EvalError)
  | noWireForm (e : Expr) (error : Wire.EncodeError)

namespace Failure

def complaint : Failure → String
  | .badHex _ => "Expression is not valid hex"
  | .badWireForm _ => "Failed to decode expression"
  | .badBinding fault => fault.message
  | .noValue e _ => "Failed to evaluate " ++ e.text
  | .noWireForm e _ => "Failed to encode " ++ e.text

def cause? : Failure → Option String
  | .badHex fault => some fault.message
  | .badWireForm error => some error.message
  | .badBinding (.badValue _ fault) => some fault.message
  | .badBinding _ => none
  | .noValue _ error => some error.message
  | .noWireForm _ error => some error.message

/-- A text with four blanks before each of its lines. -/
def indent (text : String) : String :=
  String.ofList ("    ".toList ++
    text.toList.flatMap fun c => if c = '\n' then "\n    ".toList else [c])

/-- The report of a failure: the complaint, and the cause below it. -/
def report (failure : Failure) : String :=
  let cause := match failure.cause? with
    | some cause => "\n\nCaused by:\n" ++ indent cause
    | none => ""
  "Error: " ++ failure.complaint ++ cause ++ "\n"

end Failure

/-- The expression of a wire form in hexadecimal digits, blanks around them left out. -/
def readExpression (maxDepth : Nat) (hex : String) : Except Failure Expr := do
  let digits := String.ofList (Text.trim hex.toList)
  let bytes ← (Hex.decode digits).mapError .badHex
  (Wire.decode maxDepth bytes).mapError .badWireForm

/-- Makes the bindings that are given as texts, one after the other. -/
def readBindings (texts : List String) : Except Failure Bindings :=
  texts.foldlM (fun bindings text => do
    let (name, value) ← (Binding.read text).mapError .badBinding
    return bindings.set name value) .empty

/-- An example of each binding form. -/
def samples : List Expr :=
  let x : Expr := .label "x"
  let xs : Expr := .label "xs"
  let number (n : Int64) : Expr := .constant (.int n)
  [.comprehension "x" xs
      (some (.relational .eq (.arithmetic .mod x (number 2)) (number 0)))
      (some (.arithmetic .mul x x)) none,
    .quantified .single "x" xs (some (.relational .eq x (number 2))) none,
    .reduce "acc" (number 0) "x" xs (.arithmetic .add (.label "acc") x) none]

/-- A sample with its wire form before it. -/
def sampleLine (e : Expr) : Except Failure String := do
  let bytes ← (Wire.encode e).mapError (.noWireForm e)
  return Hex.encode bytes ++ "\t" ++ e.text

/-- The lines that a command gives. -/
def lines (invocation : Invocation) : Except Failure (List String) :=
  match invocation.command with
  | .render hex => do
    let e ← readExpression invocation.maxDepth hex
    return [e.text]
  | .eval hex bindings => do
    let e ← readExpression invocation.maxDepth hex
    let bindings ← readBindings bindings
    let value ← (e.eval bindings.lookup).mapError (.noValue e)
    return [value.text]
  | .sample => samples.mapM sampleLine

/-- What a program leaves behind. -/
structure Result where
  exitCode : Nat
  output : String
  errorOutput : String

/-- Runs a command. -/
def run (invocation : Invocation) : Result :=
  match lines invocation with
  | .ok lines => ⟨0, String.join (lines.map (· ++ "\n")), ""⟩
  | .error failure => ⟨1, "", failure.report⟩

end Cli

end GraphQuery
