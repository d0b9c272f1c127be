import RowScript.Fault
import RowScript.Script.Tree

/-!
# The grammar of scripts

```
statement   ::= declaration | "return" [ expression ] [ ";" ] | block
              | expression [ ";" ] | ";"
declaration ::= ( "const" | "let" | "var" ) declarator, ... [ ";" ]
declarator  ::= ( identifier | pattern ) [ "=" expression ]
block       ::= "{" statement* "}"
expression  ::= params "=>" ( block | expression )
              | binary [ "?" expression ":" expression ]
params      ::= identifier | "(" [ identifier, ... ] ")"
```

Binary operators come in six levels, each associating to the left; above them are
the prefix operators, and above those member access, indexing and calls. Alternatives
are tried in the order given. Behind an arrow, a question mark or the keyword of a
declaration a failure is final.

A statement and the expression it starts with may share their first character, and
every other way to nest takes a character. Twice the length of the text is therefore
more depth than any text can use.
-/

namespace RowScript

open Text

namespace ScriptGrammar

/-- Words that cannot be names. -/
def keywords : List String :=
  ["const", "let", "var", "return", "true", "false", "null", "if", "else", "function", "new",
    "this", "typeof", "class", "for", "while", "do", "switch", "case", "break", "continue", "in",
    "of"]

/-- Characters that may start a name. -/
def isNameStart (c : Char) : Bool := c.isAlpha || c = '_' || c = '$'

/-- Characters that may continue a name. -/
def isNameChar (c : Char) : Bool := isWordChar c || c = '$'

/-- A name, keywords included. -/
def name : Parser String := .wordOf isNameStart isNameChar

/-- A name that is not a keyword. -/
def identifier : Parser Identifier := do
  let (loc, name) ← Parser.located do
    Parser.noKeyword keywords
    name
  return ⟨loc, name⟩

/-- A name in a place where keywords are allowed too. -/
def memberName : Parser Identifier := do
  let (loc, name) ← name.located
  return ⟨loc, name⟩

/-- The length of an exponent at the start of a text, if there is one. -/
def exponentLength (text : List Char) : Nat :=
  match text with
  | c :: rest =>
    if c = 'e' || c = 'E' then
      let signLength := if rest.head?.any (fun c => c = '+' || c = '-') then 1 else 0
      match ((rest.drop signLength).takeWhile isDecimalDigit).length with
      | 0 => 0
      | digits => digits + signLength + 1
    else 0
  | [] => 0

/-- The length of the digits of a number, with a point in them or in front. -/
def mantissaLength (text : List Char) : Nat :=
  match (text.takeWhile isDecimalDigit).length with
  | 0 =>
    match text with
    | '.' :: rest =>
      match (rest.takeWhile isDecimalDigit).length with
      | 0 => 0
      | digits => digits + 1
    | _ => 0
  | digits =>
    match text.drop digits with
    | '.' :: rest => digits + 1 + (rest.takeWhile isDecimalDigit).length
    | _ => digits

/-- A number, known by its text. -/
def number : Parser Literal := do
  let (loc, raw) ← Parser.located <| Parser.token fun text =>
    match mantissaLength text with
    | 0 => none
    | mantissa =>
      let length := mantissa + exponentLength (text.drop mantissa)
      some (String.ofList (text.take length), length)
  return ⟨loc, .number, raw⟩

/-- A string with its value. -/
def string : Parser Literal := do
  let (loc, raw) ← Parser.quoted.located
  let value := unescape (raw.toList.tail.dropLast)
  return ⟨loc, .string (String.ofList value), raw⟩

/-- A keyword that is a literal. -/
def keywordLiteral (keyword : String) (value : LiteralValue) : Parser Literal := do
  let (loc, _) ← (Parser.keyword keyword).located
  return ⟨loc, value, keyword⟩

/-- Any literal. -/
def literal : Parser Literal :=
  number <|> string <|> keywordLiteral "true" (.boolean true)
    <|> keywordLiteral "false" (.boolean false) <|> keywordLiteral "null" .null

section

variable (expression : Parser Expr)

/-- An expression with dots in front. -/
def spread : Parser (Loc × Expr) :=
  Parser.located do
    Parser.symbol "..."
    expression

/-- A key in brackets with its value. -/
def computedProperty : Parser Property := do
  let (loc, key, value) ← Parser.located do
    Parser.symbol "["
    let key ← expression
    Parser.symbol "]"
    Parser.symbol ":"
    let value ← expression
    return (key, value)
  return .computed loc key value

/-- A key with its value. -/
def keyedProperty : Parser Property := do
  let (loc, key, value) ← Parser.located do
    let key ← .identifier <$> memberName <|> .literal <$> string <|> .literal <$> number
    Parser.symbol ":"
    let value ← expression
    return (key, value)
  return .field loc key value

/-- A name that is both key and value. -/
def shorthandProperty : Parser Property := do
  let id ← identifier
  return .field id.loc (.identifier id) (.identifier id)

/-- A part of an object. -/
def property : Parser Property :=
  (do let (loc, argument) ← spread expression; return .spread loc argument)
    <|> computedProperty expression <|> keyedProperty expression <|> shorthandProperty

/-- An object with its parts between braces. -/
def object : Parser Expr := do
  let (loc, properties) ← Parser.located
    (Parser.between "\x7b" "\x7d" (Parser.commaTerminated (property expression)))
  return .object loc properties

/-- An element of an array or an argument of a call. -/
def element : Parser Expr :=
  (do let (loc, argument) ← spread expression; return .spread loc argument) <|> expression

/-- An array with its elements between brackets. -/
def array : Parser Expr := do
  let (loc, elements) ← Parser.located
    (Parser.between "[" "]" (Parser.commaTerminated (element expression)))
  return .array loc elements

/-- An expression in parentheses. -/
def parenthesized : Parser Expr := do
  Parser.symbol "("
  let inner ← expression
  Parser.symbol ")"
  return inner

/-- Expressions without operators around them. -/
def primary : Parser Expr :=
  .literal <$> literal <|> .identifier <$> identifier <|> object expression <|> array expression
    <|> parenthesized expression

/-- What can stand behind an expression. -/
inductive Suffix where
  | member (loc : Loc) (property : Identifier)
  | index (loc : Loc) (property : Expr)
  | call (loc : Loc) (arguments : List Expr)

/-- The expression together with a suffix; its range starts with the expression. -/
def Suffix.onto (object : Expr) : Suffix → Expr
  | .member loc property => .member (object.loc.span loc) object property
  | .index loc property => .index (object.loc.span loc) object property
  | .call loc arguments => .call (object.loc.span loc) object arguments

/-- A member name, an index or the arguments of a call. -/
def suffix : Parser Suffix :=
  (do
    let (loc, property) ← Parser.located do
      Parser.symbol "."
      memberName
    return .member loc property)
  <|> (do
    let (loc, property) ← Parser.located do
      Parser.symbol "["
      let property ← expression
      Parser.symbol "]"
      return property
    return .index loc property)
  <|> (do
    let (loc, arguments) ← Parser.located
      (Parser.between "(" ")" (Parser.commaSeparated (element expression)))
    return .call loc arguments)

/-- A primary expression with its suffixes. A suffix is a choice, so no blanks are read
behind the last one: of `!x ;` the operator and its operand take up columns 0 to 2, and of
`-1 + 2` as well. -/
def suffixed : Parser Expr := do
  let object ← primary expression
  let suffixes ← Parser.many (suffix expression)
  return suffixes.foldl Suffix.onto object

/-- An expression with at most the given number of operators in front. -/
def unaryUpTo : Nat → Parser Expr
  | 0 => suffixed expression
  | depth + 1 => fun cursor =>
    ((do
      let (loc, operator, argument) ← Parser.located do
        let operator ← Parser.oneOf
          [("!", UnaryOperator.not), ("-", .negate), ("+", .plus), ("typeof", .typeof)]
        let argument ← unaryUpTo depth
        return (operator, argument)
      return .unary loc operator argument)
    <|> suffixed expression) cursor

/-- An expression with operators in front. -/
def unary : Parser Expr := fun cursor => unaryUpTo expression cursor.ahead.length cursor

end

/-- One level of binary operators, associating to the left. An operator and its right operand
are a sequence, so the blanks behind an operand on its own are read. -/
def binaryLevel (operators : List BinaryOperator) (operand : Parser Expr) : Parser Expr := do
  let first ← operand
  let others ← Parser.manyOrBlanks do
    let operator ← Parser.oneOf (operators.map fun operator => (operator.toText, operator))
    let right ← operand
    return (operator, right)
  return others.foldl
    (fun left (operator, right) => .binary (left.loc.span right.loc) operator left right) first

/-- The levels of binary operators from the tightest to the loosest. Within a level
a longer operator comes before one that it starts with. -/
def operatorLevels : List (List BinaryOperator) :=
  [[.multiply, .divide, .remainder], [.add, .subtract],
    [.lessOrEqual, .greaterOrEqual, .less, .greater],
    [.identical, .notIdentical, .equal, .notEqual], [.and], [.or, .coalesce]]

/-- An expression with binary operators of all levels. -/
def binary (expression : Parser Expr) : Parser Expr :=
  operatorLevels.foldl (fun operand level => binaryLevel level operand) (unary expression)

/-- An expression that may be the test of a conditional. -/
def conditional (expression : Parser Expr) : Parser Expr := do
  let (loc, test, branches) ← Parser.located do
    let test ← binary expression
    let branches ← Parser.optional do
      Parser.symbol "?"
      Parser.commit do
        let consequent ← expression
        Parser.symbol ":"
        let alternate ← expression
        return (consequent, alternate)
    return (test, branches)
  return match branches with
    | some (consequent, alternate) => .conditional loc test consequent alternate
    | none => test

/-- The parameters of a function. -/
def arrowParams : Parser (List Identifier) :=
  (do let id ← identifier; return [id])
    <|> Parser.between "(" ")" (Parser.commaSeparated identifier)

/-- Statements in braces. A lone semicolon is no statement. -/
def block (statement : Parser (Option Statement)) : Parser Block := do
  let (loc, statements) ← Parser.located do
    Parser.symbol "\x7b"
    let statements ← Parser.many statement
    Parser.symbol "\x7d"
    return statements.filterMap id
  return .mk loc statements

/-- A function. Braces behind the arrow are a block if they can be one. -/
def arrow (expression : Parser Expr) (statement : Parser (Option Statement)) : Parser Expr := do
  let (loc, params, body) ← Parser.located do
    let params ← arrowParams
    Parser.symbol "=>"
    let body ← Parser.commit (.block <$> block statement <|> .expression <$> expression)
    return (params, body)
  return .arrow loc params body

/-- The word that starts a declaration. It must stand apart from letters, numbers
and underscores of any script. -/
def declarationKeyword : Parser DeclarationKeyword := fun cursor =>
  let cursor := cursor.skipBlanks
  let isNext (keyword : DeclarationKeyword) : Bool :=
    keyword.toText.toList.isPrefixOf cursor.ahead
      && !(cursor.ahead.drop keyword.toText.length).head?.any isWordChar
  match [DeclarationKeyword.constKeyword, .letKeyword, .varKeyword].find? isNext with
  | some keyword =>
    if cursor.last.any isWordChar then .failed cursor.offset
    else .done keyword (cursor.drop keyword.toText.length)
  | none => .failed cursor.offset

/-- What a declaration binds. -/
def declarationTarget : Parser DeclarationTarget :=
  .identifier <$> identifier
    <|> (do let (loc, _) ← (Parser.group '\x7b' '\x7d').located; return .objectPattern loc)
    <|> (do let (loc, _) ← (Parser.group '[' ']').located; return .arrayPattern loc)

/-- One binding of a declaration. -/
def declarator (expression : Parser Expr) : Parser Declarator := do
  let (loc, target, init) ← Parser.located do
    let target ← declarationTarget
    let init ← Parser.optional do
      Parser.symbol "="
      expression
    return (target, init)
  return .mk loc target init

/-- A declaration. -/
def declaration (expression : Parser Expr) : Parser Statement := do
  let (loc, keyword, declarators) ← Parser.located do
    let keyword ← declarationKeyword
    let declarators ← Parser.commit (Parser.commaSeparated (declarator expression))
    let _ ← Parser.optional (Parser.symbol ";")
    return (keyword, declarators)
  return .declaration loc keyword declarators

/-- A return statement. -/
def returnStatement (expression : Parser Expr) : Parser Statement := do
  let (loc, argument) ← Parser.located do
    Parser.keyword "return"
    let argument ← Parser.optional expression
    let _ ← Parser.optional (Parser.symbol ";")
    return argument
  return .ret loc argument

/-- An expression as a statement. -/
def expressionStatement (expression : Parser Expr) : Parser Statement := do
  let (loc, expression) ← Parser.located do
    let inner ← expression
    let _ ← Parser.optional (Parser.symbol ";")
    return inner
  return .expression loc expression

/-- An expression, given how to read what is inside of it. -/
def expressionWith (expression : Parser Expr) (statement : Parser (Option Statement)) :
    Parser Expr :=
  arrow expression statement <|> conditional expression

/-- A statement, given how to read what is inside of it. Braces are a block if they
can be one, and otherwise an object. -/
def statementWith (expression : Parser Expr) (statement : Parser (Option Statement)) :
    Parser (Option Statement) :=
  some <$> declaration expression
    <|> some <$> returnStatement expression
    <|> (fun inner => some (.block inner)) <$> block statement
    <|> some <$> expressionStatement expression
    <|> (do Parser.symbol ";"; return none)

mutual

/-- An expression that nests at most as deep as given. -/
def expressionUpTo : Nat → Parser Expr
  | 0 => .fail
  | depth + 1 => fun cursor => expressionWith (expressionUpTo depth) (statementUpTo depth) cursor
termination_by structural depth => depth

/-- A statement that nests at most as deep as given. -/
def statementUpTo : Nat → Parser (Option Statement)
  | 0 => .fail
  | depth + 1 => fun cursor => statementWith (expressionUpTo depth) (statementUpTo depth) cursor
termination_by structural depth => depth

end

/-- A statement. -/
def statement : Parser (Option Statement) := fun cursor =>
  statementUpTo (2 * cursor.ahead.length + 2) cursor

/-- All statements of a script. -/
def statements : Parser (List Statement) := do
  let statements ← Parser.many statement
  return statements.filterMap id

end ScriptGrammar

/-- Reads a script: first its comments, then its statements with the comments
blanked. -/
def Program.parse (text : List Char) : Except Fault Program :=
  let comments := Comment.scan text
  match ScriptGrammar.statements.run (Comment.eraseAll text comments) with
  | .ok body => pure ⟨.ofOffsets text 0 text.length, body, comments⟩
  | .error offset => throw ⟨.scriptSyntax, some (.ofOffsets text offset (offset + 1))⟩

end RowScript
