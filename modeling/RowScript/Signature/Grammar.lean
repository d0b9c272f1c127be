import RowScript.Fault
import RowScript.Signature.Tree
import RowScript.Text.Comment

/-!
# The grammar of written types

```
type        ::= operand [ "->" type ]
operand     ::= ( "(" type ")" | name "<" type, ... ">" | record | name ) "[]"*
record      ::= "{" [ field, ... ] "}"
field       ::= "..." name | word [ params ] ":" type
declaration ::= "type" TypeName [ params ] "=" type [ ";" ]
signature   ::= word [ params ] "::" type
params      ::= "<" word, ... ">"
```

An arrow is the widest part of a type and associates to the right. A type nests at
most as deep as it is long, so the depth given to the grammar is never reached.
-/

namespace RowScript

open Text

namespace TypeGrammar

/-- A word of ASCII letters, digits, underscores and dollar signs. -/
def word : Parser String := .word isKeywordChar

/-- The name of the type without values of interest, written as two parentheses. -/
def unitName : Parser String := .oneOf [("()", "()")]

/-- A word with its range. -/
def wordIdentifier : Parser Identifier := do
  let (loc, name) ← word.located
  return ⟨loc, name⟩

/-- A name of a type with its range. -/
def typeIdentifier : Parser Identifier := do
  let (loc, name) ← (word <|> unitName).located
  return ⟨loc, name⟩

/-- Type parameters in angle brackets, if there are any. -/
def params : Parser (List Identifier) := do
  let params ← Parser.optional do
    Parser.symbol "<"
    let params ← Parser.commaSeparated wordIdentifier
    Parser.symbol ">"
    return params
  return params.getD []

/-- The arguments of a type application. -/
def arguments (type : Parser TypeExpr) : Parser (List TypeExpr) := do
  Parser.symbol "<"
  let arguments ← Parser.commaSeparated type
  Parser.symbol ">"
  return arguments

/-- A name, applied to arguments if it is followed by some. -/
def application (type : Parser TypeExpr) : Parser TypeExpr := do
  let (loc, callee, arguments) ← Parser.located do
    let callee ← typeIdentifier
    let arguments ← (some <$> arguments type) <|> pure none
    return (callee, arguments)
  return match arguments with
    | some arguments => .application loc callee arguments
    | none => .identifier callee

/-- A part of a record. -/
def property (type : Parser TypeExpr) : Parser TypeProperty :=
  (do
    let (loc, argument) ← Parser.located do
      Parser.symbol "..."
      typeIdentifier
    return .spread loc argument)
  <|> (do
    let (loc, key, params, value) ← Parser.located do
      let key ← wordIdentifier
      let params ← params
      Parser.symbol ":"
      let value ← type
      return (key, params, value)
    return .field loc key (value.withParams loc params))

/-- A record with its parts between braces. -/
def record (type : Parser TypeExpr) : Parser TypeExpr := do
  let (loc, properties) ← Parser.located
    (Parser.between "\x7b" "\x7d" (Parser.commaSeparated (property type)))
  return .record loc properties

/-- A type in parentheses. -/
def parenthesized (type : Parser TypeExpr) : Parser TypeExpr := do
  Parser.symbol "("
  let inner ← type
  Parser.symbol ")"
  return inner

/-- What can stand on either side of an arrow: a type, made an array type by each
pair of brackets behind it. -/
def operand (type : Parser TypeExpr) : Parser TypeExpr := do
  let (loc, element, brackets) ← Parser.located do
    let element ← parenthesized type <|> record type <|> application type
    let brackets ← Parser.many (Parser.symbol "[]")
    return (element, brackets)
  return brackets.foldl (fun inner _ => .array loc inner) element

/-- An operand, and what an arrow behind it leads to. -/
def arrow (type : Parser TypeExpr) : Parser TypeExpr := do
  let (loc, argument, body) ← Parser.located do
    let argument ← operand type
    let body ← Parser.optional do
      Parser.symbol "->"
      type
    return (argument, body)
  return match body with
    | some body => .arrow loc argument body
    | none => argument

/-- A type that nests at most as deep as given. -/
def typeUpTo : Nat → Parser TypeExpr
  | 0 => .fail
  | depth + 1 => fun cursor => arrow (typeUpTo depth) cursor

/-- A type. -/
def type : Parser TypeExpr := fun cursor => typeUpTo (cursor.ahead.length + 1) cursor

end TypeGrammar

/-- A declaration of a type. Behind the keyword, nothing else can be meant. -/
def TypeDeclaration.grammar : Parser TypeDeclaration := do
  let (loc, id, params, value) ← Parser.located do
    Parser.keyword "type"
    Parser.commit do
      let (loc, name) ←
        (Parser.wordOf Char.isUpper isWordChar <|> TypeGrammar.unitName).located
      let params ← TypeGrammar.params
      Parser.symbol "="
      let value ← TypeGrammar.type
      let _ ← Parser.optional (Parser.symbol ";")
      return (Identifier.mk loc name, params, value)
  return ⟨loc, id, value.withParams loc params⟩

/-- A name with its type, where the name is made of the given characters. -/
def Signature.grammar (nameChar : Char → Bool) : Parser Signature := do
  let (loc, name, params, value) ← Parser.located do
    let name ← Parser.word nameChar
    let params ← TypeGrammar.params
    Parser.symbol "::"
    let value ← Parser.commit TypeGrammar.type
    return (name, params, value)
  return ⟨loc, name, value.withParams loc params⟩

/-- Reads a whole text with types in it. -/
def readSignatures {α : Type} (p : Parser α) (text : List Char) : Except Fault α :=
  match p.run text with
  | .ok value => pure value
  | .error offset => throw ⟨.signatureSyntax, some (.ofOffsets text offset (offset + 1))⟩

/-- The type that a whole text stands for. -/
def TypeExpr.parse (text : List Char) : Except Fault TypeExpr :=
  readSignatures TypeGrammar.type text

/-- The type declarations in a comment of a text. -/
def TypeDeclaration.ofComment (text : List Char) (comment : Comment) :
    Except Fault (List TypeDeclaration) :=
  readSignatures (Parser.many TypeDeclaration.grammar) (comment.isolate text)

/-- The type that a comment gives to a function of the given name. -/
def Signature.ofComment (text : List Char) (comment : Comment) (name : String) :
    Except Fault TypeExpr := do
  let signature ← readSignatures (Signature.grammar isKeywordChar) (comment.isolate text)
  if signature.name = name then pure signature.value
  else throw ⟨.expected ["'" ++ name ++ "'"], some signature.loc⟩

/-- A comment that gives a global value its type. Such names may contain number
signs. -/
def Signature.globalOfComment (text : List Char) (comment : Comment) :
    Except Fault Signature :=
  readSignatures (Signature.grammar fun c => isKeywordChar c || c = '#') (comment.isolate text)

end RowScript
