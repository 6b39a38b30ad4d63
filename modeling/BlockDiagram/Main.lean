import BlockDiagram.Command.Arguments
import BlockDiagram.Command.Report
/-! The command line program. -/

open BlockDiagram

def readText (path : String) : IO (Option String) := do
  try
    return some (← IO.FS.readFile path)
  catch _ =>
    return none

/-- Runs the command of the arguments. The exit code is one after a failure, and two without a
command. -/
def main (args : List String) : IO UInt32 := do
  match Command.ofArguments? args with
  | none => return 2
  | some command =>
    match (command.run (← readText command.path)).run "" with
    | .ok _ printed =>
      IO.print printed
      return 0
    | .error e printed =>
      IO.print printed
      IO.eprintln e.report
      return 1
