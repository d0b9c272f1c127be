import RowScript.Signature.Tree
import RowScript.Text.Comment

/-!
# Scripts as written

The tree of a script with the ranges of all its parts. It covers more than the
core language does: operators on booleans, several declarations at once, patterns
and so on parse, and are refused when the script is turned into commands.
-/

namespace RowScript

/-- What a literal stands for. Numbers are known by their text only. -/
inductive LiteralValue where
  | number
  | string (value : String)
  | boolean (value : Bool)
  | null
deriving DecidableEq, Repr, Inhabited

/-- A literal with its text. -/
structure Literal where
  loc : Loc
  value : LiteralValue
  raw : String
deriving DecidableEq, Repr, Inhabited

/-- Operators between two operands. -/
inductive BinaryOperator where
  | multiply | divide | remainder
  | add | subtract
  | lessOrEqual | greaterOrEqual | less | greater
  | identical | notIdentical | equal | notEqual
  | and
  | or | coalesce
deriving DecidableEq, Repr, Inhabited

/-- Operators in front of one operand. -/
inductive UnaryOperator where
  | not | negate | plus | typeof
deriving DecidableEq, Repr, Inhabited

/-- The words that start a declaration. -/
inductive DeclarationKeyword where
  | constKeyword | letKeyword | varKeyword
deriving DecidableEq, Repr, Inhabited

/-- What a declaration can bind. The insides of patterns are not looked at. -/
inductive DeclarationTarget where
  | identifier (id : Identifier)
  | objectPattern (loc : Loc)
  | arrayPattern (loc : Loc)
deriving DecidableEq, Repr, Inhabited

/-- The key of a field in an object. -/
inductive FieldKey where
  | identifier (id : Identifier)
  | literal (literal : Literal)
deriving DecidableEq, Repr, Inhabited

mutual

/-- Expressions. -/
inductive Expr where
  | identifier (id : Identifier)
  | literal (literal : Literal)
  | arrow (loc : Loc) (params : List Identifier) (body : Body)
  | conditional (loc : Loc) (test consequent alternate : Expr)
  | binary (loc : Loc) (operator : BinaryOperator) (left right : Expr)
  | unary (loc : Loc) (operator : UnaryOperator) (argument : Expr)
  | call (loc : Loc) (callee : Expr) (arguments : List Expr)
  | member (loc : Loc) (object : Expr) (property : Identifier)
  | index (loc : Loc) (object property : Expr)
  | object (loc : Loc) (properties : List Property)
  | array (loc : Loc) (elements : List Expr)
  /-- Spread elements stand among call arguments and array elements. -/
  | spread (loc : Loc) (argument : Expr)

/-- The body of a function. -/
inductive Body where
  | block (block : Block)
  | expression (expression : Expr)

/-- Statements in braces. -/
inductive Block where
  | mk (loc : Loc) (statements : List Statement)

/-- Parts of an object. -/
inductive Property where
  | spread (loc : Loc) (argument : Expr)
  | computed (loc : Loc) (key value : Expr)
  | field (loc : Loc) (key : FieldKey) (value : Expr)

/-- Statements. -/
inductive Statement where
  | declaration (loc : Loc) (keyword : DeclarationKeyword) (declarators : List Declarator)
  | expression (loc : Loc) (expression : Expr)
  | ret (loc : Loc) (argument : Option Expr)
  | block (block : Block)

/-- One binding of a declaration. -/
inductive Declarator where
  | mk (loc : Loc) (target : DeclarationTarget) (init : Option Expr)

end

instance : Inhabited Expr := ⟨.identifier default⟩

/-- A whole script: its statements, and its comments beside them. -/
structure Program where
  loc : Loc
  body : List Statement
  comments : List Text.Comment

def BinaryOperator.toText : BinaryOperator → String
  | .multiply => "*"
  | .divide => "/"
  | .remainder => "%"
  | .add => "+"
  | .subtract => "-"
  | .lessOrEqual => "<="
  | .greaterOrEqual => ">="
  | .less => "<"
  | .greater => ">"
  | .identical => "==="
  | .notIdentical => "!=="
  | .equal => "=="
  | .notEqual => "!="
  | .and => "&&"
  | .or => "||"
  | .coalesce => "??"

def UnaryOperator.toText : UnaryOperator → String
  | .not => "!"
  | .negate => "-"
  | .plus => "+"
  | .typeof => "typeof"

def DeclarationKeyword.toText : DeclarationKeyword → String
  | .constKeyword => "const"
  | .letKeyword => "let"
  | .varKeyword => "var"

/-- The range of what a declaration binds. -/
def DeclarationTarget.loc : DeclarationTarget → Loc
  | .identifier id => id.loc
  | .objectPattern loc | .arrayPattern loc => loc

def FieldKey.loc : FieldKey → Loc
  | .identifier id => id.loc
  | .literal lit => lit.loc

def Block.loc : Block → Loc
  | .mk loc _ => loc

/-- The range of an expression. -/
def Expr.loc : Expr → Loc
  | .identifier id => id.loc
  | .literal lit => lit.loc
  | .arrow loc _ _ | .conditional loc _ _ _ | .binary loc _ _ _ | .unary loc _ _
  | .call loc _ _ | .member loc _ _ | .index loc _ _ | .object loc _ | .array loc _
  | .spread loc _ => loc

/-- The range of a statement. -/
def Statement.loc : Statement → Loc
  | .declaration loc _ _ | .expression loc _ | .ret loc _ => loc
  | .block inner => inner.loc

def Declarator.loc : Declarator → Loc
  | .mk loc _ _ => loc

end RowScript
