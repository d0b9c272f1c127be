import RowScript.Prelude
import RowScript.Symbol

/-!
# Interactive sessions

A session keeps one checker and one context over several scripts. A script that
fails keeps the effect of its commands before the fault; a file of global
declarations is taken as a whole or not at all. The checker's own memory survives
every fault.
-/

namespace RowScript

/-- A checker, the context it has built, and the commands of the scripts so far. -/
structure Session where
  checker : Checker
  ctx : Context
  commands : List Command := []

namespace Session

/-- Runs a step of the checker. -/
def step {α : Type} (session : Session) (x : CheckM α) : Except Fault α × Session :=
  match x session.checker with
  | .ok value checker => (.ok value, { session with checker })
  | .error fault checker => (.error fault, { session with checker })

/-- Checks commands up to the first fault. -/
def run (fuel : Nat) (session : Session) : List Command → Except Fault Unit × Session
  | [] => (.ok (), session)
  | command :: rest =>
    match session.step (checkCommand fuel session.ctx command) with
    | (.ok ctx, session) =>
      run fuel { session with ctx, commands := session.commands ++ [command] } rest
    | (.error fault, session) => (.error fault, session)

/-- Checks a script up to the first fault. -/
def script (fuel : Nat) (session : Session) (text : List Char) : Except Fault Unit × Session :=
  match parseScript text with
  | .ok commands => session.run fuel commands
  | .error fault => (.error fault, session)

/-- Checks a file of global declarations and, if all is well, adds them. -/
def declare (fuel : Nat) (session : Session) (text : List Char) : Except Fault Unit × Session :=
  match parseDeclarations text with
  | .ok commands =>
    match session.step (checkCommands fuel session.ctx commands) with
    | (.ok ctx, session) => (.ok (), { session with ctx })
    | (.error fault, session) => (.error fault, session)
  | .error fault => (.error fault, session)

/-- A name with the type of its value. -/
def signature (session : Session) (name : String) : Except Fault String := do
  return (← session.ctx.valueType name none).signature name

/-- The symbol at a position in the scripts so far. -/
def symbolAt (session : Session) (line column : Int) : Option Symbol :=
  RowScript.symbolAt session.ctx session.commands line column
    session.checker.instantiations session.checker.evaluated

end Session

end RowScript
