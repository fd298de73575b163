import Refutation.CommandLine.Program

/-!
# The command

Carries out the plan for the arguments of the command line.
-/

namespace Refutation.CommandLine

/-- Do one thing. -/
def Action.perform : Action → IO Unit
  | .out text => IO.print text
  | .err line => IO.eprintln line
  | .write path text => IO.FS.writeFile path text

end Refutation.CommandLine

/-- The command. -/
def main (args : List String) : IO UInt32 := do
  let p := Refutation.CommandLine.plan args
  p.actions.forM Refutation.CommandLine.Action.perform
  match p.ending with
  | .exit code => return code.toUInt32
  | .fault e =>
    IO.eprintln e.message
    return 1
