import LoopNest.CommandLine.Run

/-!
# The program

Prints what the command line asks for.  The exit code is 0 on success, 1 on failure and 2
if the arguments are wrong.
-/

open LoopNest.CommandLine

/-- A chain of messages, each after the first one on a line of its own. -/
def LoopNest.CommandLine.renderErrors : List String → String
  | [] => "Error\n"
  | e :: es => "Error: " ++ e ++ "\n" ++ String.join (es.map fun m => "  caused by: " ++ m ++ "\n")

/-- Runs the command. -/
def main (args : List String) : IO UInt32 := do
  match runArgs args with
  | .success out aside =>
    IO.print out
    IO.eprint aside
    return 0
  | .failure errors =>
    IO.eprint (renderErrors errors)
    return 1
  | .usage =>
    IO.eprint ("error: invalid arguments\n\n" ++ helpText)
    return 2
