import RowScript.Solver

/-!
# Inference

Inference gives a term a type and the constraints that the type is subject to.
Each subterm is solved on its own before its constraints are handed on. Next to
the type, inference builds the context as seen from inside the term, in which the
parameters and local names of the term are bound; it always extends the context
that inference started from.

A local declaration of a syntactic value is inlined: every use gets its own copy,
so each can be used at a different type. Other local declarations have one type
for all uses. Inlining makes terms grow, so inference runs on fuel rather than on
the size of the term.
-/

namespace RowScript

/-- A type with the constraints it is subject to. Without a context of its own,
the term binds no names. -/
structure Inferred where
  type : Ty
  constraints : List Constraint
  inner : Option Context := none

/-- A type with the solution of its constraints. -/
structure Solved where
  type : Ty
  principal : List Constraint
  inner : Context

namespace Inference

/-- Joins what several subterms bind. A subterm that binds nothing still has the
context that inference started from. -/
def mergeInner (ctx : Context) (solved : List Solved) : Stamped Context :=
  solved.foldlM (fun inner s =>
    if s.inner.same ctx then pure inner
    else if inner.same ctx then pure s.inner
    else inner.merge s.inner) ctx

/-- Replaces the placeholder of a parameter throughout a context. Nothing changes
when the placeholder stays as it is. -/
def replaceParameter (id : Nat) (type : Ty) (ctx : Context) : Stamped Context :=
  if type = .hole id then pure ctx else ctx.replace (.hole id) type

section

variable (solve : Context → Term → CheckM Solved)

/-- A function without a written type. A parameter that nothing constrains becomes
a type parameter of the function. -/
def function (ctx : Context) (param : Option Param) (body : Term) (loc : Loc) :
    CheckM Inferred := do
  match param with
  | none =>
    let body ← solve ctx body
    pure ⟨.arrow .unit body.type, body.principal, some body.inner⟩
  | some param =>
    let id ← CheckM.freshHole
    let ctx ← CheckM.bindName ctx param.name (.typed (.hole id) param.loc false) (some param.loc)
    let body ← solve ctx body
    match solutionFor id body.principal with
    | some arg =>
      let inner ← CheckM.ofStamped (replaceParameter id arg body.inner)
      pure ⟨.arrow arg (body.type.replaceHole id arg), body.principal, some inner⟩
    | none =>
      let name ← CheckM.ofExcept (body.inner.nextTypeVariable (some loc) body.type.names)
      let ret := body.type.replaceHole id (.named name)
      let inner ← CheckM.ofStamped do
        let inner ← replaceParameter id (.named name) body.inner
        inner.extend name .typeParameter
      pure ⟨.generic name ((Ty.named name).functionTo ret), body.principal, some inner⟩

/-- A function with a written type. A generic one is inferred first and then
compared. -/
def ascribedFunction (ctx : Context) (param : Option Param) (body : Term) (ascribed : Ty)
    (loc : Loc) : CheckM Inferred := do
  let type ← CheckM.ofExcept (ctx.normalize (some loc) ascribed)
  match type with
  | .arrow arg ret =>
    CheckM.ofExcept (ctx.checkIfName arg (some loc))
    CheckM.ofExcept (ctx.checkIfName ret (some loc))
    match param with
    | none =>
      let body ← solve ctx body
      pure ⟨type, (body.type, ret) :: (arg, .unit) :: body.principal, some body.inner⟩
    | some param =>
      if arg.agrees .unit then throw ⟨.mismatch .noParameter, some param.loc⟩
      else
        let ctx ← CheckM.bindName ctx param.name (.typed arg param.loc false) (some param.loc)
        let body ← solve ctx body
        pure ⟨type, (body.type, ret) :: body.principal, some body.inner⟩
  | .generic .. =>
    let plain ← solve ctx (.function param body none loc)
    pure ⟨type, (plain.type, type) :: plain.principal, some plain.inner⟩
  | _ => throw ⟨.mismatch (.notAFunction type), some loc⟩

/-- One level of inference, where `solve` takes care of the subterms. -/
def step (ctx : Context) : Term → CheckM Inferred
  | .reference name loc => do
    pure ⟨← CheckM.ofExcept (ctx.valueType name (some loc)), [], none⟩
  | .boolean _ => pure ⟨.boolean, [], none⟩
  | .number _ => pure ⟨.number, [], none⟩
  | .string _ => pure ⟨.string, [], none⟩
  | .unit _ => pure ⟨.unit, [], none⟩
  | .emptyRecord _ => pure ⟨.record .emptyRow none, [], none⟩
  | .function param body none loc => function solve ctx param body loc
  | .function param body (some ascribed) loc =>
    ascribedFunction solve ctx param body ascribed loc
  | .application func arg _ => do
    let fn ← solve ctx func
    let a ← solve ctx arg
    let ret ← CheckM.freshHole
    let fnType ← fn.type.instantiate (some func.loc)
    let inner ← CheckM.ofStamped (mergeInner ctx [fn, a])
    pure ⟨.hole ret, (fnType, .arrow a.type (.hole ret)) :: fn.principal ++ a.principal,
      some inner⟩
  | .conditional condition consequence alternative _ => do
    let c ← solve ctx condition
    let a ← solve ctx consequence
    let b ← solve ctx alternative
    let inner ← CheckM.ofStamped (mergeInner ctx [c, a, b])
    pure ⟨b.type,
      (c.type, .boolean) :: (a.type, b.type) :: c.principal ++ a.principal ++ b.principal,
      some inner⟩
  | .letIn name value body nameLoc _ =>
    if value.isValue then do
      CheckM.ofExcept (ctx.checkBindable name (some nameLoc))
      let result ← solve ctx (body.replace name value)
      let bound ← solve ctx value
      let binding := .defined value (some bound.type) nameLoc (some bound.inner) false
      let inner ← CheckM.ofStamped (result.inner.extend name binding)
      pure ⟨result.type, result.principal ++ bound.principal, some inner⟩
    else do
      let bound ← solve ctx value
      let single ← (bound.type.applying bound.principal).instantiate none
      let bodyCtx ← CheckM.bindName ctx name (.typed single nameLoc false) (some nameLoc)
      let result ← solve bodyCtx body
      let inner ← CheckM.ofStamped (result.inner.merge bound.inner)
      pure ⟨result.type, bound.principal ++ result.principal, some inner⟩
  | .recordExtend key value record loc => do
    let known ← solve ctx record
    let base ← if (known.type.applying known.principal).hasField key then
        solve ctx (.recordRestrict key record loc)
      else pure known
    let val ← solve ctx value
    let a ← CheckM.freshHole
    let r ← CheckM.freshHole
    let inner ← CheckM.ofStamped (mergeInner ctx [base, val])
    pure ⟨.record (.field key (.hole a) (.hole r)) none,
      (.hole a, val.type) :: (.record (.hole r) none, base.type) :: val.principal
        ++ base.principal, some inner⟩
  | .recordRestrict key record _ => do
    let base ← solve ctx record
    let a ← CheckM.freshHole
    let r ← CheckM.freshHole
    pure ⟨.record (.hole r) none,
      (.record (.field key (.hole a) (.hole r)) none, base.type) :: base.principal,
      some base.inner⟩
  | .fieldAccess key record _ => do
    let base ← solve ctx record
    let a ← CheckM.freshHole
    let r ← CheckM.freshHole
    pure ⟨.hole a, (.record (.field key (.hole a) (.hole r)) none, base.type) :: base.principal,
      some base.inner⟩
  | .array elements _ => do
    let element ← CheckM.freshHole
    let solved ← elements.mapM (solve ctx)
    let inner ← CheckM.ofStamped (mergeInner ctx solved)
    pure ⟨.arrayOf (.hole element),
      solved.map (fun s => (.hole element, s.type)) ++ solved.flatMap (·.principal), some inner⟩

end

/-- Solves what was inferred for a term. -/
def solveWith (fuel : Nat) (infer : Context → Term → CheckM Inferred) (ctx : Context)
    (term : Term) : CheckM Solved := do
  let inferred ← infer ctx term
  let principal ← unify fuel ctx (some term.loc) inferred.constraints
  pure ⟨inferred.type, principal, inferred.inner.getD ctx⟩

end Inference

/-- The type of a term and its constraints. -/
def infer : Nat → Context → Term → CheckM Inferred
  | 0, _, term => throw ⟨.outOfFuel, some term.loc⟩
  | fuel + 1, ctx, term => Inference.step (Inference.solveWith fuel (infer fuel)) ctx term

/-- The type of a term with its constraints solved. -/
def solve (fuel : Nat) : Context → Term → CheckM Solved :=
  Inference.solveWith fuel (infer fuel)

end RowScript
