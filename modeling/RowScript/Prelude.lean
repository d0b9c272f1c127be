import RowScript.Checker.Commands
import RowScript.Script.Commands

/-!
# The global environment

The built-in types and values that every script is checked against, as a file of
global declarations.
-/

namespace RowScript

/-- The declarations of the built-in types and values. -/
def preludeText : String :=
  "\n/*\ntype () = \x7b\x7d\n\n" ++
  "type String = \x7b\n  length: Number,\n  startsWith: String -> Boolean,\n" ++
  "  endsWith: String -> Boolean,\n  split: String -> String[],\n" ++
  "  toLocaleLowerCase: () -> String\n\x7d\n\n" ++
  "type Number = \x7b\n  toString<unused>: unused -> String\n\x7d\n\n" ++
  "type Boolean = \x7b\n  toString<plhd>: plhd -> String\n\x7d\n\n" ++
  "type Array<arrtype> = \x7b\n  length: Number,\n" ++
  "  map<newtype>: (arrtype -> newtype) -> newtype[],\n  join: String -> String\n\x7d\n\n" ++
  "type JSONT = \x7b\n  stringify<plhd>: plhd -> String\n\x7d\n*/\n\n" ++
  "// parseFloat :: String -> Number\n// parseInt :: String -> Number\n\n" ++
  "// JSON :: JSONT\n\n// Number##binaryOp :: Number -> Number -> Number\n"

/-- Checks a file of global declarations, starting from nothing. -/
def globalContext (fuel : Nat) (text : List Char) : CheckM Context := do
  let commands ← CheckM.ofExcept (parseDeclarations text)
  checkCommands fuel [] commands

/-- The context of the built-in types and values. -/
def preludeContext (fuel : Nat) : CheckM Context := globalContext fuel preludeText.toList

end RowScript
