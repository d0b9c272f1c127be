import RowScript.Fault
import RowScript.Signature.Tree

/-!
# The types that written types stand for

Parameters and arguments are taken one at a time, and a record becomes a row with
its last field in front. The only thing that can be wrong with a tree is a spread
that does not come first in its record.
-/

namespace RowScript

namespace TypeExpr

mutual

/-- The type that a written type stands for. -/
def toTy : TypeExpr → Except Fault Ty
  | .identifier id => pure (.ident id.name id.loc)
  | .arrow _ argument body => do
    let arg ← toTy argument
    let ret ← toTy body
    pure (.arrow arg ret)
  | .application loc callee arguments => applied loc (.ident callee.name callee.loc) arguments
  | .array loc element => do
    let element ← toTy element
    pure (.app (.named "Array") element loc)
  | .record _ properties => do
    let row ← rowOnto .emptyRow true properties
    pure (.record row none)
  | .abstraction _ params body => do
    let body ← toTy body
    pure (params.foldr (fun param inner => .generic param.name inner) body)
termination_by structural type => type

/-- Applies a type to arguments from left to right. -/
def applied (loc : Loc) (callee : Ty) : List TypeExpr → Except Fault Ty
  | [] => pure callee
  | argument :: rest => do
    let arg ← toTy argument
    applied loc (.app callee arg loc) rest
termination_by structural arguments => arguments

/-- Adds the parts of a record to a row. -/
def rowOnto (row : Ty) (isFirst : Bool) : List TypeProperty → Except Fault Ty
  | [] => pure row
  | property :: rest => do
    let row ← propertyOnto row isFirst property
    rowOnto row false rest
termination_by structural properties => properties

/-- Adds one part of a record to a row. -/
def propertyOnto (row : Ty) (isFirst : Bool) : TypeProperty → Except Fault Ty
  | .spread loc argument =>
    if isFirst then pure (.ident argument.name argument.loc)
    else throw ⟨.violation .lateSpread, some loc⟩
  | .field _ key value => do
    let type ← toTy value
    pure (.field key.name type row)
termination_by structural property => property

end

end TypeExpr

/-- Labels a record, or a record under one type parameter, with its declared
name. -/
def Ty.labelled (label : String) : Ty → Ty
  | .record row _ => .record row (some label)
  | .generic param (.record row _) => .generic param (.record row (some label))
  | ty => ty

end RowScript
