import RowScript.Command
import RowScript.Script.Grammar
import RowScript.Script.Terms
import RowScript.Signature.Grammar
import RowScript.Signature.Types

/-!
# The commands that a text stands for

A script is its statements together with the type declarations of its first block
comment, ordered by the lines they start on. A line comment right above a function
gives the function its type.

A file of global declarations consists of comments only: block comments declare
types, and line comments give types to global values.
-/

namespace RowScript

open Text

/-- What becomes a command: a statement, a declared type or a global value. -/
inductive TopLevel where
  | statement (statement : Statement)
  | type (declaration : TypeDeclaration)
  | value (signature : Signature)

def TopLevel.loc : TopLevel → Loc
  | .statement inner => inner.loc
  | .type inner => inner.loc
  | .value inner => inner.loc

/-- The comment that could belong to a declaration: the last one that ends before it
and does not start before the end of what precedes it. The comment with the type
declarations does not count. -/
def leadingComment (comments : List Comment) (header : Option Comment)
    (previousEnd : Option Position) (start : Position) : Option Comment :=
  comments.reverse.find? fun comment =>
    !header.any (·.offset = comment.offset) && !decide (start < comment.loc.stop)
      && !previousEnd.any (fun stop => decide (comment.loc.start < stop))

/-- The type written above a function. The comment has to end on the line before the
function starts, and nothing but a function can have one. -/
def writtenType (text : List Char) (comment : Option Comment) (name : String) (init : Expr) :
    Except Fault (Option Ty) :=
  match comment, init with
  | some comment, .arrow loc _ _ =>
    if comment.loc.stop.line ≠ loc.start.line - 1 then pure none
    else if comment.isBlock then throw ⟨.violation .blockSignature, some comment.loc⟩
    else do
      let written ← Signature.ofComment text comment name
      let type ← written.toTy
      match type with
      | .arrow .. | .generic .. => pure (some type)
      | _ => throw ⟨.violation .missingReturnType, some comment.loc⟩
  | _, _ => pure none

/-- Puts a written type on a function. -/
def Term.ascribe (ascribed : Option Ty) : Term → Term
  | .function param body _ loc => .function param body ascribed loc
  | term => term

/-- The command of a declaration. -/
def declarationCommand (text : List Char) (comment : Option Comment) (isGlobal : Bool)
    (loc : Loc) (keyword : DeclarationKeyword) (declarators : List Declarator) :
    Except Fault Command :=
  match keyword, declarators with
  | .constKeyword, [.mk _ (.identifier id) (some init)]
  | .letKeyword, [.mk _ (.identifier id) (some init)] => do
    let ascribed ← writtenType text comment id.name init
    let term ← init.toTerm
    pure (.bind id.name (.defined (term.ascribe ascribed) none id.loc none isGlobal) loc)
  | _, _ => throw (malformedDeclaration loc keyword declarators)

/-- The command of a statement, of a declared type or of a global value. -/
def TopLevel.toCommand (text : List Char) (comment : Option Comment) (isGlobal : Bool) :
    TopLevel → Except Fault Command
  | .statement (.declaration loc keyword declarators) =>
    declarationCommand text comment isGlobal loc keyword declarators
  | .statement (.expression loc inner) => do
    let term ← inner.toTerm
    pure (.evaluate term loc)
  | .statement other => throw ⟨.violation (.unsupported other.construct), some other.loc⟩
  | .type declaration => do
    let type ← declaration.init.toTy
    let type := if isGlobal then type.labelled declaration.id.name else type
    pure (.bind declaration.id.name (.typeAlias type declaration.id.loc isGlobal) declaration.loc)
  | .value signature => do
    let type ← signature.value.toTy
    pure (.bind signature.name (.typed type .synthetic true) .synthetic)

/-- The commands of a list of statements and declarations, in order. -/
def TopLevel.toCommands (text : List Char) (comments : List Comment) (header : Option Comment)
    (isGlobal : Bool) (previousEnd : Option Position) :
    List TopLevel → Except Fault (List Command)
  | [] => pure []
  | node :: rest => do
    let comment := leadingComment comments header previousEnd node.loc.start
    let command ← node.toCommand text comment isGlobal
    let commands ← toCommands text comments header isGlobal (some node.loc.stop) rest
    pure (command :: commands)

/-- The commands of a script. -/
def parseScript (text : List Char) : Except Fault (List Command) := do
  let program ← Program.parse text
  let header := program.comments.find? (·.isBlock)
  let declarations ← match header with
    | some comment => TypeDeclaration.ofComment text comment
    | none => pure []
  let nodes := declarations.map .type ++ program.body.map .statement
  let sorted := nodes.mergeSort fun a b => a.loc.start.line ≤ b.loc.start.line
  TopLevel.toCommands text program.comments header false none sorted

/-- The declarations in one comment of a file of global declarations. -/
def TopLevel.ofComment (text : List Char) (comment : Comment) : Except Fault (List TopLevel) := do
  if comment.isBlock then
    let declarations ← TypeDeclaration.ofComment text comment
    pure (declarations.map .type)
  else
    let signature ← Signature.globalOfComment text comment
    pure [.value signature]

/-- The commands of a file of global declarations. -/
def parseDeclarations (text : List Char) : Except Fault (List Command) := do
  let program ← Program.parse text
  let nodes ← program.comments.mapM (TopLevel.ofComment text)
  TopLevel.toCommands text [] none true none nodes.flatten

end RowScript
