import RowScript.Text.Position

/-!
# Types as written in comments

A block comment declares types, `type Pair<a> = { first: a, second: a };`, and a
line comment gives the type of the function below it or of a global value,
`// first<a> :: Pair<a> -> a`. These trees keep what was written with its ranges;
nothing in them has been checked.
-/

namespace RowScript

/-- A name with the range where it is written. -/
structure Identifier where
  loc : Loc
  name : String
deriving DecidableEq, Repr, Inhabited

mutual

/-- Written types. -/
inductive TypeExpr where
  | identifier (id : Identifier)
  | arrow (loc : Loc) (argument body : TypeExpr)
  | application (loc : Loc) (callee : Identifier) (arguments : List TypeExpr)
  | array (loc : Loc) (element : TypeExpr)
  | record (loc : Loc) (properties : List TypeProperty)
  | abstraction (loc : Loc) (params : List Identifier) (body : TypeExpr)

/-- Parts of a written record type. -/
inductive TypeProperty where
  | spread (loc : Loc) (argument : Identifier)
  | field (loc : Loc) (key : Identifier) (value : TypeExpr)

end

instance : Inhabited TypeExpr := ⟨.identifier default⟩

/-- A declaration of a type. -/
structure TypeDeclaration where
  loc : Loc
  id : Identifier
  init : TypeExpr

/-- A name and its type. -/
structure Signature where
  loc : Loc
  name : String
  value : TypeExpr

/-- The range of a written type. -/
def TypeExpr.loc : TypeExpr → Loc
  | .identifier id => id.loc
  | .arrow loc _ _ | .application loc _ _ | .array loc _ | .record loc _
  | .abstraction loc _ _ => loc

/-- A type with parameters, or just the type if there are none. -/
def TypeExpr.withParams (loc : Loc) (params : List Identifier) (body : TypeExpr) : TypeExpr :=
  if params.isEmpty then body else .abstraction loc params body

end RowScript
