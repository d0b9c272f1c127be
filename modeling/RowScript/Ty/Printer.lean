import RowScript.Ty.Basic

/-!
# Showing types

A type is shown as its text together with the names of its leading type
parameters, because callers put those in different places: in front of the type,
behind a name that has the type, or behind the key of a field.
-/

namespace RowScript.Ty

/-- Type parameters in angle brackets, or nothing. -/
def angled (params : List String) : String :=
  if params.isEmpty then "" else "<" ++ ", ".intercalate params ++ ">"

/-- Parenthesizes the text of a function type, for use where it is an operand. -/
def parenthesized (ty : Ty) (text : String) : String :=
  match ty.body with
  | .arrow .. => "(" ++ text ++ ")"
  | _ => text

/-- The text of a type without its leading type parameters, and those parameters.
In the row of a record (`inRow`) a name or placeholder stands for further fields
and is written with dots, or left out altogether with `hideTail`. -/
def print (inRow hideTail : Bool) : Ty → String × List String
  | .generic param body =>
    let (text, params) := print inRow hideTail body
    (text, param :: params)
  | .app callee arg _ =>
    let calleeText := (print false false callee).1
    let argText := (print false false arg).1
    (if calleeText = "Array" then parenthesized arg argText ++ "[]"
      else calleeText ++ "<" ++ argText ++ ">", [])
  | .arrow arg ret =>
    (parenthesized arg (print false false arg).1 ++ " -> " ++ (print false false ret).1, [])
  | .ident name _ => (if inRow then if hideTail then "" else "..." ++ name else name, [])
  | .hole id => (if inRow then if hideTail then "" else s!"...?X{id}" else s!"?X{id}", [])
  | .record _ (some label) => (label, [])
  | .record .emptyRow none => ("\x7b\x7d", [])
  | .record row none => ("\x7b " ++ (print true hideTail row).1 ++ " \x7d", [])
  | .field key type base =>
    let (typeText, params) := print false false type
    let baseText := (print inRow hideTail base).1
    let entry := key ++ angled params ++ ": " ++ typeText
    (if baseText.isEmpty then entry else baseText ++ ", " ++ entry, [])
  | .emptyRow => ("", [])

/-- The text of a type, with its type parameters in front. -/
def toText (ty : Ty) : String :=
  let (text, params) := print false false ty
  if params.isEmpty then text else angled params ++ " " ++ text

/-- The text of a row, as it stands between the braces of a record. -/
def rowText (row : Ty) (hideTail : Bool) : String := (print true hideTail row).1

/-- A name with its type, in the form in which types are written in comments. -/
def signature (name : String) (ty : Ty) : String :=
  let (text, params) := print false false ty
  name ++ angled params ++ " :: " ++ text

end RowScript.Ty
