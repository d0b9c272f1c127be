import RowScript.Text.Position

/-!
# Types

One type of syntax covers both types and rows, because names, applications and
placeholders stand for either. A row is a chain of fields that ends in the
empty row, in a name or in a placeholder. Records written in a global
declaration carry the declared name and are shown by it.

Names and applications remember where they were written. That range takes no
part in comparing types: `Ty.agrees` is the equality of this library, and plain
`=` is finer than it.
-/

namespace RowScript

/-- Types and rows. -/
inductive Ty where
  /-- A declared type, a built-in type or a type parameter, by name. -/
  | ident (name : String) (loc : Loc)
  /-- A placeholder for a type that inference has to find. -/
  | hole (id : Nat)
  | arrow (arg ret : Ty)
  /-- A type that is generic in the named parameter. -/
  | generic (param : String) (body : Ty)
  /-- A generic type applied to an argument. -/
  | app (callee arg : Ty) (loc : Loc)
  /-- A record with the given row; a label replaces the row when shown. -/
  | record (row : Ty) (label : Option String)
  | emptyRow
  /-- A row with one more field in front of another row. -/
  | field (key : String) (type : Ty) (base : Ty)
deriving DecidableEq, Repr, Inhabited

/-- Two types that have to be made equal. -/
abbrev Constraint := Ty × Ty

namespace Ty

/-- A name that nobody wrote. -/
def named (name : String) : Ty := .ident name .synthetic

def unit : Ty := named "()"
def boolean : Ty := named "Boolean"
def number : Ty := named "Number"
def string : Ty := named "String"

/-- The type of arrays with elements of type `element`. -/
def arrayOf (element : Ty) : Ty := .app (named "Array") element .synthetic

/-- Equality of types, which does not look at ranges. -/
def agrees : Ty → Ty → Bool
  | .ident a _, .ident b _ => a = b
  | .hole a, .hole b => a = b
  | .arrow a b, .arrow c d => agrees a c && agrees b d
  | .generic a b, .generic c d => a = c && agrees b d
  | .app a b _, .app c d _ => agrees a c && agrees b d
  | .record a b, .record c d => agrees a c && b = d
  | .emptyRow, .emptyRow => true
  | .field a b c, .field d e f => a = d && agrees b e && agrees c f
  | _, _ => false

/-- The placeholders of a type in the order of their occurrence, with repeats. -/
def holes : Ty → List Nat
  | .ident .. | .emptyRow => []
  | .hole id => [id]
  | .arrow a b | .app a b _ | .field _ a b => holes a ++ holes b
  | .generic _ inner | .record inner _ => holes inner

/-- Whether a placeholder occurs in a type. -/
def occurs (id : Nat) (ty : Ty) : Bool := ty.holes.contains id

/-- The names and type parameters that a type mentions. -/
def names : Ty → List String
  | .ident name _ => [name]
  | .hole _ | .emptyRow => []
  | .generic param body => param :: names body
  | .arrow a b | .app a b _ | .field _ a b => names a ++ names b
  | .record row _ => names row

/-- What is left of a type under its leading type parameters. -/
def body : Ty → Ty
  | .generic _ inner => body inner
  | ty => ty

/-- What a chain of fields ends in. -/
def rowTail : Ty → Ty
  | .field _ _ base => rowTail base
  | ty => ty

/-- Whether a row has a field with the given key. -/
def rowHasKey (key : String) : Ty → Bool
  | .field k _ base => k = key || rowHasKey key base
  | _ => false

/-- Whether a type is a record with the given field written out in its row. -/
def hasField (key : String) : Ty → Bool
  | .record row _ => rowHasKey key row
  | _ => false

/-- Labelled records, also generic ones. Applications of such a type stay as they
are instead of being unfolded. -/
def isNominal (ty : Ty) : Bool :=
  match ty.body with
  | .record _ (some _) => true
  | _ => false

/-- A function from `arg` to `ret`, with the type parameters of `ret` moved to the
front of the whole type. -/
def functionTo (arg : Ty) : Ty → Ty
  | .generic param inner => .generic param (functionTo arg inner)
  | ret => .arrow arg ret

end Ty

end RowScript
