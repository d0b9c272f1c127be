import RowScript.Ty.Basic

/-!
# Replacing names and placeholders

Placeholders are replaced everywhere. A name is replaced where it is free: a
type parameter of the same name hides it. Neither replacement renames type
parameters, so a replacement can be captured by one.
-/

namespace RowScript.Ty

/-- Replaces every placeholder by what `f` gives for it. -/
def bindHoles (f : Nat → Ty) : Ty → Ty
  | .ident name loc => .ident name loc
  | .hole id => f id
  | .arrow arg ret => .arrow (bindHoles f arg) (bindHoles f ret)
  | .generic param body => .generic param (bindHoles f body)
  | .app callee arg loc => .app (bindHoles f callee) (bindHoles f arg) loc
  | .record row label => .record (bindHoles f row) label
  | .emptyRow => .emptyRow
  | .field key type base => .field key (bindHoles f type) (bindHoles f base)

/-- Replaces one placeholder. -/
def replaceHole (ty : Ty) (id : Nat) (replacement : Ty) : Ty :=
  ty.bindHoles fun i => if i = id then replacement else .hole i

/-- Replaces a name where it is free. -/
def replaceName (ty : Ty) (name : String) (replacement : Ty) : Ty :=
  match ty with
  | .ident n loc => if n = name then replacement else .ident n loc
  | .hole id => .hole id
  | .arrow arg ret => .arrow (arg.replaceName name replacement) (ret.replaceName name replacement)
  | .generic param body =>
    .generic param (if param = name then body else body.replaceName name replacement)
  | .app callee arg loc =>
    .app (callee.replaceName name replacement) (arg.replaceName name replacement) loc
  | .record row label => .record (row.replaceName name replacement) label
  | .emptyRow => .emptyRow
  | .field key type base =>
    .field key (type.replaceName name replacement) (base.replaceName name replacement)

/-- Whether a name occurs free. -/
def mentionsName (name : String) : Ty → Bool
  | .ident n _ => n = name
  | .hole _ | .emptyRow => false
  | .generic param body => param ≠ name && mentionsName name body
  | .arrow a b | .app a b _ | .field _ a b => mentionsName name a || mentionsName name b
  | .record row _ => mentionsName name row

/-- What a substitution replaces. -/
inductive Target where
  | name (name : String)
  | hole (id : Nat)
deriving DecidableEq, Repr

/-- Replaces a name or a placeholder. -/
def replace (ty : Ty) (target : Target) (replacement : Ty) : Ty :=
  match target with
  | .name name => ty.replaceName name replacement
  | .hole id => ty.replaceHole id replacement

/-- Whether a substitution finds anything to replace. -/
def mentions (ty : Ty) : Target → Bool
  | .name name => ty.mentionsName name
  | .hole id => ty.occurs id

/-- The type after a substitution, or `none` when there was nothing to replace. -/
def replace? (ty : Ty) (target : Target) (replacement : Ty) : Option Ty :=
  if ty.mentions target then some (ty.replace target replacement) else none

end RowScript.Ty
