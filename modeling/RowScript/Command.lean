import RowScript.Context.Basic

/-!
# Commands

A script is a list of commands: expressions to be checked, and names to be bound.
-/

namespace RowScript

inductive Command where
  /-- Checks an expression and binds nothing. -/
  | evaluate (term : Term) (loc : Loc)
  /-- Checks what a name is to stand for, and binds it. -/
  | bind (name : String) (binding : Binding) (loc : Loc)

/-- The range of the statement or declaration that a command comes from. -/
def Command.loc : Command → Loc
  | .evaluate _ loc | .bind _ _ loc => loc

end RowScript
