import RowScript.Context.Traversal
import RowScript.Ty.Assignment

/-!
# Generalization

Placeholders that solving leaves open become type parameters with one letter
names. Those of the type itself come first, in the order of their occurrence,
and quantify it, the first one innermost. Those that are left in the context
get names from the same alphabet and do not quantify anything.
-/

namespace RowScript

/-- Names for open placeholders, in the order in which they were given. -/
abbrev Naming := List (Nat × String)

/-- The names given so far, and the context in which they are in scope. -/
structure Minter where
  naming : Naming
  ctx : Context

namespace Minter

/-- Gives a placeholder that has no name the first free one, which is a type parameter
in scope from then on. -/
def mint (taken : List String) (loc : Option Loc) (minter : Minter) (id : Nat) :
    StateT Nat (Except Fault) Minter := fun stamp =>
  if (minter.naming.map Prod.fst).contains id then pure (minter, stamp)
  else do
    let name ← minter.ctx.nextTypeVariable loc taken
    let (ctx, stamp) := minter.ctx.extend name .typeParameter stamp
    pure (⟨minter.naming ++ [(id, name)], ctx⟩, stamp)

/-- Names the placeholders of some types, in the order of their first occurrence. -/
def mintTypes (taken : List String) (loc : Option Loc) (minter : Minter)
    (types : List Ty) : StateT Nat (Except Fault) Minter :=
  (types.flatMap Ty.holes).foldlM (mint taken loc) minter

end Minter

namespace Ty

/-- Puts names in the place of placeholders. -/
def withNames (naming : Naming) (ty : Ty) : Ty :=
  ty.bindHoles fun id =>
    match naming.lookup id with
    | some name => .named name
    | none => .hole id

/-- Makes a type generic in some parameters, the first one innermost. -/
def quantify (naming : Naming) (ty : Ty) : Ty :=
  naming.foldl (fun body (_, name) => .generic name body) ty

end Ty

/-- A type without placeholders, its context without them, and the names that
their placeholders were given. -/
structure Generalized where
  type : Ty
  ctx : Context
  naming : Naming

/-- Adds the names to a context as type parameters. -/
def Naming.declare (naming : Naming) (ctx : Context) : Stamped Context :=
  naming.foldlM (fun ctx (_, name) => ctx.extend name .typeParameter) ctx

/-- The type with its open placeholders replaced, and not yet quantified, under
solved constraints. `none` stands for a type that has no placeholders to begin
with. -/
def Naming.rename? (naming : Naming) (assignment : Assignment) (ty : Ty) : Option Ty :=
  if ty.holes.isEmpty then none else some ((assignment.resolve ty).withNames naming)

/-- Applies solved constraints, then turns what is left open into type parameters.
The parameters of the type are in scope in the resulting context below the names
that only the context needs. -/
def generalize (solved : List Constraint) (ty : Ty) (ctx : Context) (loc : Option Loc) :
    StateT Nat (Except Fault) Generalized := fun stamp => do
  let assignment := Assignment.ofConstraints solved
  let resolved := assignment.resolve ty
  let (own, stamp) ← Minter.mintTypes resolved.names loc ⟨[], ctx⟩ [resolved] stamp
  -- this pass extends contexts only to know which names are given; they are not kept
  let (all, _) ← own.mintTypes resolved.names loc
    (ctx.reachableTypes.map assignment.resolve) stamp
  let (ctx, stamp) := own.ctx.mapTypes (all.naming.rename? assignment) stamp
  let (ctx, stamp) := Naming.declare (all.naming.drop own.naming.length) ctx stamp
  pure (⟨(resolved.withNames all.naming).quantify own.naming, ctx, all.naming⟩, stamp)

/-- The type under solved constraints, closed over what is left open, in the form
in which messages show it. -/
def Ty.displayed (solved : List Constraint) (ty : Ty) : Except Fault Ty := do
  let (result, _) ← generalize solved ty [] none 0
  pure result.type

end RowScript
