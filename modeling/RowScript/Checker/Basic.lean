import RowScript.Generalization

/-!
# The state of a checker

A checker hands out placeholders and stamps, and it remembers two things for
looking up positions later: what the type parameters of a called function were
taken to be, by the range of the callee, and the context of every checked
expression, by the range of its command. All of it survives a failed command.
-/

namespace RowScript

/-- A use of a generic type, with the placeholders put in for its parameters. -/
structure Instance where
  loc : Loc
  holes : List (String × Nat)
deriving Repr

/-- What a checker knows besides the context. -/
structure Checker where
  /-- The placeholder handed out last. -/
  counter : Nat := 0
  /-- The next stamp for a context entry. -/
  stamp : Nat := 0
  /-- Uses of generic types in the command being checked, in order. -/
  instances : List Instance := []
  /-- What type parameters were taken to be, by the range of the callee. -/
  instantiations : List (Loc × List (String × Ty)) := []
  /-- Contexts of checked expressions, by the range of the command. -/
  evaluated : List (Loc × Context) := []

/-- A step of checking: it may fail, and the checker keeps what it knew then. -/
abbrev CheckM := EStateM Fault Checker

namespace CheckM

/-- A new placeholder. -/
def freshHole : CheckM Nat :=
  modifyGet fun checker => (checker.counter + 1, { checker with counter := checker.counter + 1 })

/-- A computation that can only fail. -/
def ofExcept {α : Type} : Except Fault α → CheckM α
  | .ok value => pure value
  | .error fault => throw fault

/-- A computation that only draws stamps. -/
def ofStamped {α : Type} (x : Stamped α) : CheckM α :=
  modifyGet fun checker =>
    let (value, stamp) := x checker.stamp
    (value, { checker with stamp })

/-- Generalizes with stamps from the checker. -/
def generalize (solved : List Constraint) (ty : Ty) (ctx : Context) (loc : Option Loc) :
    CheckM Generalized := do
  let (result, stamp) ← ofExcept (RowScript.generalize solved ty ctx loc (← get).stamp)
  modify fun checker => { checker with stamp }
  pure result

/-- Binds a name that is not bound yet. -/
def bindName (ctx : Context) (name : String) (binding : Binding) (loc : Option Loc) :
    CheckM Context := do
  ofExcept (ctx.checkBindable name loc)
  ofStamped (ctx.extend name binding)

end CheckM

namespace Ty

/-- The leading type parameters of a type. -/
def params : Ty → List String
  | .generic param body => param :: params body
  | _ => []

/-- Puts fresh placeholders in the place of a number of leading type parameters. -/
def instantiateFirst : Nat → Ty → CheckM (List (String × Nat) × Ty)
  | n + 1, .generic param body => do
    let id ← CheckM.freshHole
    let (holes, ty) ← instantiateFirst n (body.replaceName param (.hole id))
    pure ((param, id) :: holes, ty)
  | _, ty => pure ([], ty)

/-- Puts fresh placeholders in the place of all leading type parameters. With a
range, the use is remembered. -/
def instantiate (ty : Ty) (loc : Option Loc) : CheckM Ty := do
  let (holes, body) ← instantiateFirst ty.params.length ty
  match loc with
  | some loc =>
    if !holes.isEmpty then
      modify fun checker => { checker with instances := checker.instances ++ [⟨loc, holes⟩] }
    pure body
  | none => pure body

end Ty

end RowScript
