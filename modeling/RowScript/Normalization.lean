import RowScript.Context.Basic
import RowScript.Ty.Substitution

/-!
# Types as written and types as used

A type from an annotation or a declaration is checked and brought into the form
that inference works with. All its names must be known. A spread record is
replaced by its fields, and an application of a generic declared type by the
type it stands for. Applications of labelled generic types stay, because such
types are shown by their label.
-/

namespace RowScript

/-- Names that may be used before they are declared. -/
def predefinedTypes : List String := ["String", "Number", "Boolean", "Array"]

namespace Context

/-- The context with one more type parameter, for looking names up. The entry has
no stamp of its own and does not outlive the type being normalized. -/
def withTypeParameter (ctx : Context) (name : String) : Context :=
  ⟨0, name, .typeParameter⟩ :: ctx

/-- A name used as a type must be predefined or bound. -/
def checkTypeName (ctx : Context) (name : String) (nameLoc : Loc) (loc : Option Loc) :
    Except Fault Unit :=
  if !predefinedTypes.contains name && !ctx.binds name then
    throw ⟨.undeclared name true, nameLoc.orElse loc⟩
  else pure ()

/-- The same for a type that may be a name. -/
def checkIfName (ctx : Context) (ty : Ty) (loc : Option Loc) : Except Fault Unit :=
  match ty with
  | .ident name nameLoc => ctx.checkTypeName name nameLoc loc
  | _ => pure ()

/-- The row that a spread name stands for: the fields of a declared record, or the
name itself if it is a type parameter. -/
def spreadRow (ctx : Context) (name : String) (nameLoc : Loc) (loc : Option Loc) :
    Except Fault Ty :=
  match ctx.find? name with
  | none => throw ⟨.undeclared name true, nameLoc.orElse loc⟩
  | some .typeParameter => pure (.ident name nameLoc)
  | some (.typeAlias (.record row none) _ _) => pure row
  | some (.typeAlias (.record _ (some _)) _ _) =>
    throw ⟨.mismatch .spreadOfBuiltin, nameLoc.orElse loc⟩
  | some _ => throw ⟨.violation (.spreadOfNonRecord name), nameLoc.orElse loc⟩

/-- Applies a normalized callee to a normalized argument. -/
def applyType (ctx : Context) (callee arg : Ty) (appLoc : Loc) (loc : Option Loc) :
    Except Fault Ty :=
  match callee with
  | .generic param body => pure (body.replaceName param arg)
  | .app .. => pure (.app callee arg appLoc)
  | .ident name _ =>
    match ctx.find? name with
    | none =>
      if name = "Array" then pure (.app callee arg appLoc)
      else throw ⟨.mismatch .notGeneric, appLoc.orElse loc⟩
    | some (.typeAlias (.generic param body) _ _) =>
      if (Ty.generic param body).isNominal then pure (.app callee arg appLoc)
      else pure (body.replaceName param arg)
    | some _ => throw ⟨.mismatch .notGeneric, appLoc.orElse loc⟩
  | _ => throw ⟨.mismatch (.notApplicable callee), appLoc.orElse loc⟩

/-- Checks the names of a type, inlines spread records and reduces applications of
generic declared types. -/
def normalize (loc : Option Loc) : Context → Ty → Except Fault Ty
  | ctx, .ident name nameLoc => do
    ctx.checkTypeName name nameLoc loc
    pure (.ident name nameLoc)
  | _, .hole id => pure (.hole id)
  | _, .emptyRow => pure .emptyRow
  | ctx, .arrow arg ret => do
    let arg ← normalize loc ctx arg
    let ret ← normalize loc ctx ret
    pure (.arrow arg ret)
  | ctx, .record row label => do
    let row ← normalize loc ctx row
    pure (.record row label)
  | ctx, .field key type (.ident name nameLoc) => do
    let type ← normalize loc ctx type
    let base ← ctx.spreadRow name nameLoc loc
    pure (.field key type base)
  | ctx, .field key type base => do
    let type ← normalize loc ctx type
    let base ← normalize loc ctx base
    pure (.field key type base)
  | ctx, .generic param body => do
    ctx.checkBindable param loc
    let body ← normalize loc (ctx.withTypeParameter param) body
    pure (.generic param body)
  | ctx, .app callee arg appLoc => do
    let callee ← normalize loc ctx callee
    let arg ← normalize loc ctx arg
    ctx.applyType callee arg appLoc loc

/-- Applies a callee to an argument after replacing a declared name by its type. -/
def unfoldApplication (ctx : Context) (loc : Option Loc) (callee arg : Ty) (appLoc : Loc) :
    Except Fault Ty := do
  let declared ← match callee with
    | .ident name nameLoc =>
      match ctx.find? name with
      | some (.typeAlias type _ _) => pure type
      | none => throw ⟨.undeclared name true, nameLoc.orElse loc⟩
      | some _ => pure callee
    | _ => pure callee
  match declared with
  | .generic param body => pure (body.replaceName param arg)
  | _ => throw ⟨.mismatch .notGeneric, appLoc.orElse loc⟩

/-- The type that an application stands for, also for labelled types. -/
def expandApplication (ctx : Context) (loc : Option Loc) : Ty → Ty → Loc → Except Fault Ty
  | .app callee arg calleeLoc, last, appLoc => do
    let callee ← expandApplication ctx loc callee arg calleeLoc
    ctx.unfoldApplication loc callee last appLoc
  | callee, last, appLoc => ctx.unfoldApplication loc callee last appLoc

end Context

end RowScript
