import RowScript.Checker.Basic
import RowScript.Normalization

/-!
# Solving constraints

Constraints are solved by a stack of equations between types. Names are replaced
by their declared types first; what then remains is taken apart, until one side
is a placeholder and gets the other side as its type. Two rows are equated field
by field: the field wanted by one row is pulled to the front of the other, which
may mean that a placeholder at its end is extended.

Fields may stand in any order as long as their keys differ. Labels of records
only matter when both sides have one. Type parameters of generic types are
opened with fresh placeholders.

Declared names may refer to themselves, so solving need not end; it is given fuel
and stops with a fault of its own when the fuel is used up.
-/

namespace RowScript

/-- Two types to be made equal, and the records whose rows they belong to. -/
structure Equation where
  lhs : Ty
  rhs : Ty
  owners : Option Constraint
deriving Repr

/-- Replaces a placeholder throughout an equation. -/
def Equation.replaceHole (id : Nat) (ty : Ty) (equation : Equation) : Equation where
  lhs := equation.lhs.replaceHole id ty
  rhs := equation.rhs.replaceHole id ty
  owners := equation.owners.map fun (lhs, rhs) => (lhs.replaceHole id ty, rhs.replaceHole id ty)

/-- The equations to be solved, the next one first, and the placeholders solved so
far, the latest one first. -/
structure Solver where
  pending : List Equation
  solved : List Constraint
deriving Repr

namespace Solver

variable (ctx : Context) (loc : Option Loc)

/-- Puts an equation on top of the stack. -/
def push (solver : Solver) (lhs rhs : Ty) (owners : Option Constraint) : Solver :=
  { solver with pending := ⟨lhs, rhs, owners⟩ :: solver.pending }

/-- A type as messages show it at this point. Rows are shown as records. -/
def display (solver : Solver) (ty : Ty) : Except Fault Ty :=
  match ty with
  | .field .. | .emptyRow => (Ty.record ty none).displayed solver.solved.reverse
  | _ => ty.displayed solver.solved.reverse

/-- The type that a name is declared as. A type parameter stands for itself. -/
def declaredType (name : String) (nameLoc : Loc) : Except Fault Ty :=
  match ctx.find? name with
  | some (.typeAlias type _ _) => pure type
  | some .typeParameter => pure (.ident name nameLoc)
  | _ => throw ⟨.undeclared name true, loc⟩

/-- The declared type behind a name. `none` means that there is nothing to unfold:
the type is no name, or a type parameter, or declared as itself. -/
def unfolding? (ty : Ty) : Except Fault (Option Ty) :=
  match ty with
  | .ident name nameLoc => do
    let declared ← declaredType ctx loc name nameLoc
    pure (if declared = ty then none else some declared)
  | _ => pure none

/-- Gives a placeholder its type. -/
def assign (solver : Solver) (id : Nat) (ty : Ty) : Except Fault Solver :=
  if ty.occurs id then throw ⟨.circular id, loc⟩
  else pure ⟨solver.pending.map (·.replaceHole id ty), (.hole id, ty) :: solver.solved⟩

/-- The body of a generic type with a fresh placeholder for its parameter. -/
def openGeneric (param : String) (body : Ty) : CheckM Ty := do
  let id ← CheckM.freshHole
  pure (body.replaceName param (.hole id))

/-- Fault for a record that lacks a wanted field. -/
def notContained (solver : Solver) (owners : Option Constraint) (row : Ty) (key : String) :
    Except Fault Fault := do
  let owner ← solver.display (owners.elim row (·.2))
  pure ⟨.fieldMismatch (.notContained owner key), loc⟩

/-- Pulls the field with a wanted key to the front of a row. The result is an
equation for the field, or for the placeholder that is extended by it, and the
rest of the row. `tail` is what the row asking for the field ends in. -/
def pullField (solver : Solver) (key : String) (type tail : Ty) (owners : Option Constraint) :
    Nat → Ty → CheckM (Constraint × Ty)
  | 0, _ => throw ⟨.outOfFuel, loc⟩
  | fuel + 1, row =>
    match row with
    | .field k t base =>
      if k = key then pure ((type, t), base)
      else do
        let (found, rest) ← pullField solver key type tail owners fuel base
        pure (found, .field k t rest)
    | .hole id =>
      if tail = .hole id then throw ⟨.circular id, loc⟩
      else do
        let rest ← CheckM.freshHole
        pure ((row, .field key type (.hole rest)), .hole rest)
    | .ident name nameLoc => do
      match ← CheckM.ofExcept (declaredType ctx loc name nameLoc) with
      | .record declared _ => pullField solver key type tail owners fuel declared
      | _ => throw (← CheckM.ofExcept (notContained loc solver owners row key))
    | .emptyRow => do throw (← CheckM.ofExcept (notContained loc solver owners row key))
    | _ => do
      let shown ← CheckM.ofExcept (solver.display row)
      throw ⟨.mismatch (.notARow shown), loc⟩

/-- Whether two records may be equated as far as their labels are concerned. -/
def labelsFit (a b : Option String) : Bool := a.isNone || b.isNone || a = b

/-- Takes an equation apart whose sides are no names that could be unfolded. -/
def decompose (fuel : Nat) (solver : Solver) (lhs rhs : Ty) (owners : Option Constraint) :
    CheckM Solver := do
  match lhs, rhs with
  | _, .hole id => CheckM.ofExcept (solver.assign loc id lhs)
  | .hole id, _ => CheckM.ofExcept (solver.assign loc id rhs)
  | .arrow arg ret, .arrow arg' ret' => pure ((solver.push ret ret' none).push arg arg' none)
  | .generic param body, .generic param' body' => do
    let shared ← CheckM.freshHole
    pure (solver.push (body.replaceName param (.hole shared))
      (body'.replaceName param' (.hole shared)) owners)
  | .generic param body, _ => do pure (solver.push (← openGeneric param body) rhs owners)
  | _, .generic param body => do pure (solver.push lhs (← openGeneric param body) owners)
  | .app callee arg _, .app callee' arg' _ =>
    pure ((solver.push arg arg' none).push callee callee' none)
  | .app callee arg appLoc, _ => do
    let expanded ← CheckM.ofExcept (ctx.expandApplication loc callee arg appLoc)
    pure (solver.push expanded rhs owners)
  | _, .app callee arg appLoc => do
    let expanded ← CheckM.ofExcept (ctx.expandApplication loc callee arg appLoc)
    pure (solver.push lhs expanded owners)
  | .record row label, .record row' label' =>
    if labelsFit label label' then pure (solver.push row row' (some (lhs, rhs)))
    else CheckM.ofExcept (incompatible solver)
  | .field key type base, .field .. => do
    let (found, rest) ← pullField ctx loc solver key type lhs.rowTail owners fuel rhs
    pure ((solver.push base rest owners).push found.1 found.2 owners)
  | .field key type _, .emptyRow => CheckM.ofExcept do
    let shown ← type.displayed solver.solved.reverse
    let owner ← solver.display (owners.elim rhs (·.2))
    throw ⟨.fieldMismatch (.absent owner key shown), loc⟩
  | .emptyRow, .field .. => CheckM.ofExcept do
    let owner ← solver.display (owners.elim lhs (·.1))
    let shown ← (Ty.record rhs none).displayed solver.solved.reverse
    let row := match shown.body with
      | .record row _ => row
      | ty => ty
    throw ⟨.fieldMismatch (.unexpected owner row), loc⟩
  | _, _ => CheckM.ofExcept (incompatible solver)
where
  /-- Fault for two types of different form. -/
  incompatible (solver : Solver) : Except Fault Solver := do
    let left ← solver.display lhs
    let right ← solver.display rhs
    throw ⟨.mismatch (.incompatible left right), loc⟩

/-- Solves one equation: equal sides are done, names are unfolded, and everything
else is taken apart. -/
def step (fuel : Nat) (solver : Solver) (equation : Equation) : CheckM Solver := do
  let ⟨lhs, rhs, owners⟩ := equation
  if lhs.agrees rhs then pure solver
  else
    match ← CheckM.ofExcept (unfolding? ctx loc rhs) with
    | some declared => pure (solver.push lhs declared owners)
    | none =>
      match ← CheckM.ofExcept (unfolding? ctx loc lhs) with
      | some declared => pure (solver.push declared rhs owners)
      | none => decompose ctx loc fuel solver lhs rhs owners

/-- Solves equations until none is left. -/
def run : Nat → Solver → CheckM (List Constraint)
  | 0, _ => throw ⟨.outOfFuel, loc⟩
  | fuel + 1, solver =>
    match solver.pending with
    | [] => pure solver.solved
    | equation :: rest => do
      let solver ← step ctx loc fuel { solver with pending := rest } equation
      run fuel solver

end Solver

/-- Solves constraints and gives the placeholders found, the latest one first. -/
def unify (fuel : Nat) (ctx : Context) (loc : Option Loc) (constraints : List Constraint) :
    CheckM (List Constraint) :=
  Solver.run ctx loc fuel ⟨constraints.map fun (lhs, rhs) => ⟨lhs, rhs, none⟩, []⟩

end RowScript
