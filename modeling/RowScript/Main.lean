import RowScript.CommandLine

/-!
# The program

Reads the arguments and the file, and prints what the command line makes of them.
-/

namespace RowScript

/-- Prints a result and gives its status. -/
def printResult (result : CommandLine.Result) : IO UInt32 := do
  IO.print result.output
  IO.eprint result.log
  return result.status.toUInt32

end RowScript

/-- Checks a script, or shows the type at a position. -/
def main (arguments : List String) : IO UInt32 := do
  match RowScript.CommandLine.parse? arguments with
  | none => RowScript.printResult RowScript.CommandLine.usageError
  | some options =>
    let content ← (some <$> IO.FS.readFile options.file) <|> pure none
    match content with
    | none => RowScript.printResult RowScript.CommandLine.usageError
    | some content =>
      RowScript.printResult (RowScript.CommandLine.execute RowScript.defaultFuel options content)
