/-
  File:      FormulaGraph/Main.lean
  Subject:   The command line.
-/
import FormulaGraph.Command.Run

open FormulaGraph FormulaGraph.Command

/-- Runs the command that the arguments ask for. -/
def main (args : List String) : IO UInt32 := do
  match Request.ofArgs args with
  | .version => IO.print versionText; return 0
  | .help => IO.print usageText; return 0
  | .refused => IO.eprint usageText; return 2
  | .run options =>
    let outcome := options.outcome none
    IO.print outcome.output
    IO.eprint outcome.errors
    return outcome.code.toUInt32
