import GraphQuery.Cli.Run

/-!
# The program

Reads the arguments, runs the command that they ask for and prints what it gives.
-/

namespace GraphQuery.Cli

/-- What is printed when the arguments cannot be understood. -/
def usage : String :=
  "Usage: [--debug] [--max-depth N] render HEX | eval HEX [--bind NAME=VALUE]... | sample\n"

end GraphQuery.Cli

open GraphQuery

def main (arguments : List String) : IO UInt32 := do
  match Cli.parse? arguments with
  | none =>
    (← IO.getStderr).putStr Cli.usage
    return 2
  | some invocation =>
    let result := Cli.run invocation
    (← IO.getStdout).putStr result.output
    (← IO.getStderr).putStr result.errorOutput
    return result.exitCode.toUInt32
