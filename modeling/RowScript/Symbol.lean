import RowScript.Checker.Commands

/-!
# Symbols at positions

What stands at a position of a checked script: a declaration, a parameter, the use
of a name or a literal, together with its type. The bindings of the context are
searched first, from the oldest one on, and then the expression statements.

Inside a term, names are looked up in the context that inference built for it. A
generic function that is called is shown with the types it was called at.
-/

namespace RowScript

/-- What a symbol is. -/
inductive SymbolKind where
  | variableDeclaration
  | functionArgument
  | variableUsage
  | builtin
  | typeDeclaration
deriving DecidableEq, Repr

def SymbolKind.toText : SymbolKind → String
  | .variableDeclaration => "variable-declaration"
  | .functionArgument => "function-argument"
  | .variableUsage => "variable-usage"
  | .builtin => "builtin"
  | .typeDeclaration => "type-declaration"

/-- A name, or a literal without a name, with its type. The type is missing only for
a value that was never checked. -/
structure Symbol where
  kind : SymbolKind
  name : String
  type : Option Ty
deriving DecidableEq, Repr

namespace Symbol

/-- The symbol as it is shown. -/
def toText? (symbol : Symbol) : Option String := symbol.type.map (Ty.signature symbol.name)

/-- The type parameters that are shown behind the name. -/
def generics? (symbol : Symbol) : Option (List String) :=
  symbol.type.map fun type => (type.print false false).2

/-- Replaces leading type parameters by the types given for them, at most a given
number of times. -/
def instantiateUpTo (types : List (String × Ty)) : Nat → Ty → Ty
  | n + 1, .generic param body =>
    match types.lookup param with
    | some type => instantiateUpTo types n (body.replaceName param type)
    | none => .generic param body
  | _, ty => ty

/-- Replaces leading type parameters by the types given for them. A parameter that is
the whole body brings in further parameters, those of the type given for it. A type
that is brought in for the third time would be brought in for ever. -/
def instantiate (types : List (String × Ty)) (ty : Ty) : Ty :=
  let given := types.flatMap fun (_, type) => type.params
  instantiateUpTo types (ty.params.length + 2 * given.length) ty

end Symbol

/-- What looking up a position needs to know. -/
structure Finder where
  line : Int
  column : Int
  instantiations : List (Loc × List (String × Ty))

namespace Finder

/-- Whether a range covers the position. -/
def isAt (finder : Finder) (loc : Loc) : Bool := loc.contains finder.line finder.column

/-- The symbol of a name that stands for a value. -/
def valueSymbol (ctx : Context) (kind : SymbolKind) (name : String) : Option Symbol :=
  match ctx.find? name with
  | some (.typed type _ _) | some (.defined _ (some type) _ _ _) => some ⟨kind, name, some type⟩
  | _ => none

/-- Shows a generic callee at the types it was called with. -/
def instantiated (finder : Finder) (callee : Loc) (symbol : Symbol) : Symbol :=
  match finder.instantiations.lookup callee with
  | some types =>
    { symbol with type := symbol.type.map (Symbol.instantiate types) }
  | none => symbol

/-- The context as seen from inside the value of a local declaration. -/
def innerContext (ctx : Context) (name : String) : Context :=
  match ctx.find? name with
  | some (.defined _ _ _ (some inner) _) => inner
  | _ => ctx

mutual

/-- The symbol at the position inside a term. The range of a local declaration does
not cover its body, so a declaration is always entered. -/
def search (finder : Finder) (ctx : Context) : Term → Option Symbol
  | .letIn name value body nameLoc _ =>
    if finder.isAt nameLoc then valueSymbol ctx .variableDeclaration name
    else if finder.isAt value.loc then search finder (innerContext ctx name) value
    else search finder ctx body
  | .reference name loc =>
    if finder.isAt loc then valueSymbol ctx .variableUsage name else none
  | .function param body _ loc =>
    if finder.isAt loc then
      match param with
      | some param =>
        if finder.isAt param.loc then valueSymbol ctx .functionArgument param.name
        else search finder ctx body
      | none => search finder ctx body
    else none
  | .application func arg loc =>
    if finder.isAt loc then
      if finder.isAt func.loc then
        match func with
        | .reference _ callee => (search finder ctx func).map (finder.instantiated callee)
        | _ => search finder ctx func
      else search finder ctx arg
    else none
  | .conditional condition consequence alternative loc =>
    if finder.isAt loc then
      if finder.isAt condition.loc then search finder ctx condition
      else if finder.isAt consequence.loc then search finder ctx consequence
      else if finder.isAt alternative.loc then search finder ctx alternative
      else none
    else none
  | .fieldAccess _ record loc | .recordRestrict _ record loc =>
    if finder.isAt loc then search finder ctx record else none
  | .recordExtend _ value record loc =>
    if finder.isAt loc then
      match record with
      | .emptyRecord _ => search finder ctx value
      | _ => if finder.isAt record.loc then search finder ctx record else search finder ctx value
    else none
  | .array elements loc => if finder.isAt loc then searchFirst finder ctx elements else none
  | .emptyRecord loc =>
    if finder.isAt loc then some ⟨.builtin, "", some (.record .emptyRow none)⟩ else none
  | .string loc => if finder.isAt loc then some ⟨.builtin, "", some .string⟩ else none
  | .number loc => if finder.isAt loc then some ⟨.builtin, "", some .number⟩ else none
  | .boolean loc => if finder.isAt loc then some ⟨.builtin, "", some .boolean⟩ else none
  | .unit _ => none
termination_by structural term => term

/-- The symbol inside the first of several terms that covers the position. -/
def searchFirst (finder : Finder) (ctx : Context) : List Term → Option Symbol
  | [] => none
  | term :: rest =>
    if finder.isAt term.loc then search finder ctx term else searchFirst finder ctx rest
termination_by structural terms => terms

end

/-- Whether a binding covers the position, and then its symbol there. -/
def inBinding (finder : Finder) (ctx : Context) (entry : Entry Binding) :
    Option (Option Symbol) :=
  match entry.binding with
  | .defined term type nameLoc inner false =>
    if finder.isAt nameLoc then some (some ⟨.variableDeclaration, entry.name, type⟩)
    else if finder.isAt term.loc then some (finder.search (inner.getD ctx) term)
    else none
  | .typeAlias type nameLoc false =>
    if finder.isAt nameLoc then some (some ⟨.typeDeclaration, entry.name, some type⟩) else none
  | _ => none

/-- Whether a command covers the position, and then its symbol there. -/
def inCommand (finder : Finder) (ctx : Context) (evaluated : List (Loc × Context)) :
    Command → Option (Option Symbol)
  | .evaluate term loc =>
    if finder.isAt loc then some (finder.search ((evaluated.lookup loc).getD ctx) term) else none
  | .bind .. => none

end Finder

/-- The symbol at a position, given the context after some commands. -/
def symbolAt (ctx : Context) (commands : List Command) (line column : Int)
    (instantiations : List (Loc × List (String × Ty))) (evaluated : List (Loc × Context)) :
    Option Symbol :=
  let finder : Finder := ⟨line, column, instantiations⟩
  match ctx.reverse.findSome? (finder.inBinding ctx) with
  | some found => found
  | none => (commands.findSome? (finder.inCommand ctx evaluated)).join

end RowScript
