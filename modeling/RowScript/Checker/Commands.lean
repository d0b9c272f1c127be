import RowScript.Command
import RowScript.Inference

/-!
# Checking commands

Commands are checked one after the other, each in the context left by those
before it. A checked value is stored with its generalized type and with the
context as seen from inside its term. No placeholder is meant to survive the
command that it was made for.
-/

namespace RowScript

/-- More steps than checking any script of practical size takes. -/
def defaultFuel : Nat := 1000000000000000000

/-- Sets the value of a key. -/
def setKey {κ ν : Type} [DecidableEq κ] (key : κ) (value : ν) (table : List (κ × ν)) :
    List (κ × ν) :=
  (key, value) :: table.filter fun (k, _) => k ≠ key

namespace Checker

/-- What the parameters of a generic type were taken to be in one use, when that
is known completely. -/
def instanceTypes? (assignment names : Assignment) (use : Instance) :
    Option (List (String × Ty)) :=
  use.holes.foldlM (fun types (param, id) =>
    let type := names.resolve (assignment.resolve (.hole id))
    if type.holes.isEmpty then some (setKey param type types) else none) []

/-- Remembers the uses of generic types in the command just solved. -/
def recordInstances (principal : List Constraint) (naming : Naming) (checker : Checker) :
    Checker :=
  let assignment := Assignment.ofConstraints principal
  let names : Assignment := naming.map fun (id, name) => (id, .named name)
  let record (table : List (Loc × List (String × Ty))) (use : Instance) :=
    match instanceTypes? assignment names use with
    | some types => setKey use.loc types table
    | none => table
  { checker with instantiations := checker.instances.foldl record checker.instantiations }

end Checker

/-- Solves a term and generalizes its type and context. -/
def checkTerm (fuel : Nat) (ctx : Context) (term : Term) : CheckM Generalized := do
  let solved ← solve fuel ctx term
  let result ← CheckM.generalize solved.principal solved.type solved.inner (some term.loc)
  modify (Checker.recordInstances solved.principal result.naming)
  pure result

/-- Checks what a name is to stand for. -/
def checkBinding (fuel : Nat) (ctx : Context) (binding : Binding) (loc : Option Loc) :
    CheckM Binding := do
  match binding with
  | .defined term _ nameLoc _ isGlobal =>
    let result ← checkTerm fuel ctx term
    pure (.defined term (some result.type) nameLoc (some result.ctx) isGlobal)
  | .typed type nameLoc isGlobal =>
    pure (.typed (← CheckM.ofExcept (ctx.normalize loc type)) nameLoc isGlobal)
  | .typeAlias type nameLoc isGlobal =>
    pure (.typeAlias (← CheckM.ofExcept (ctx.normalize loc type)) nameLoc isGlobal)
  | .typeParameter => pure .typeParameter

/-- Checks a command and gives the context for those after it. -/
def checkCommand (fuel : Nat) (ctx : Context) (command : Command) : CheckM Context := do
  modify fun checker => { checker with instances := [] }
  match command with
  | .evaluate term loc =>
    let result ← checkTerm fuel ctx term
    modify fun checker => { checker with evaluated := setKey loc result.ctx checker.evaluated }
    pure ctx
  | .bind name binding loc =>
    let binding ← checkBinding fuel ctx binding (some loc)
    CheckM.bindName ctx name binding (some loc)

/-- Checks commands in order. -/
def checkCommands (fuel : Nat) (ctx : Context) (commands : List Command) : CheckM Context :=
  commands.foldlM (checkCommand fuel) ctx

end RowScript
