import RowScript.Fault
import RowScript.Script.Tree
import RowScript.Term.Basic

/-!
# The terms that expressions stand for

The core language has functions of at most one parameter, calls with at most one
argument, arithmetic, member access, objects, arrays and literals. A function body
in braces is a chain of declarations that ends in a return statement; it is read
from the end, so a fault in a later statement is found first. Everything else is
refused with the range of what is not supported.
-/

namespace RowScript

/-- The name of the function behind all arithmetic operators. -/
def arithmeticFunction : String := "Number##binaryOp"

/-- Operators on numbers. -/
def BinaryOperator.isArithmetic : BinaryOperator → Bool
  | .add | .subtract | .multiply | .divide | .remainder => true
  | _ => false

/-- The name of a field. -/
def FieldKey.toText : FieldKey → String
  | .identifier id => id.name
  | .literal ⟨_, .string value, _⟩ => value
  | .literal lit => lit.raw

/-- The term of a literal. -/
def Literal.toTerm (lit : Literal) : Except Fault Term :=
  match lit.value with
  | .boolean _ => pure (.boolean lit.loc)
  | .number => pure (.number lit.loc)
  | .string _ => pure (.string lit.loc)
  | .null => throw ⟨.violation (.unknownLiteral lit.raw), some lit.loc⟩

/-- What is wrong with a declaration that does not initialize a single name. -/
def malformedDeclaration (loc : Loc) (keyword : DeclarationKeyword)
    (declarators : List Declarator) : Fault :=
  if keyword = .varKeyword then ⟨.violation (.declarationKeyword keyword.toText), some loc⟩
  else
    match declarators with
    | [.mk _ (.objectPattern loc) _] | [.mk _ (.arrayPattern loc) _] =>
      ⟨.violation .patternTarget, some loc⟩
    | [.mk loc _ _] => ⟨.violation .uninitialized, some loc⟩
    | _ :: .mk loc _ _ :: _ => ⟨.violation .severalDeclarations, some loc⟩
    | [] => ⟨.violation .severalDeclarations, some loc⟩

/-- The construct that a statement is, where it is not supported. -/
def Statement.construct : Statement → Construct
  | .expression .. | .declaration .. => .expressionStatement
  | .ret .. => .returnStatement
  | .block _ => .blockStatement

mutual

/-- The term of an expression. -/
def Expr.toTerm : Expr → Except Fault Term
  | .identifier id => pure (.reference id.name id.loc)
  | .literal lit => lit.toTerm
  | .arrow _ (_ :: second :: _) _ => throw ⟨.violation .severalParameters, some second.loc⟩
  | .arrow loc [param] body => do
    let body ← Body.toTerm body
    pure (.function (some ⟨param.name, param.loc⟩) body none loc)
  | .arrow loc [] body => do
    let body ← Body.toTerm body
    pure (.function none body none loc)
  | .conditional loc test consequent alternate => do
    let condition ← Expr.toTerm test
    let consequence ← Expr.toTerm consequent
    let alternative ← Expr.toTerm alternate
    pure (.conditional condition consequence alternative loc)
  | .binary loc operator left right =>
    if operator.isArithmetic then do
      let leftTerm ← Expr.toTerm left
      let rightTerm ← Expr.toTerm right
      let function := .reference arithmeticFunction .synthetic
      pure (.application (.application function leftTerm left.loc) rightTerm loc)
    else throw ⟨.violation (.unknownOperator operator.toText), some loc⟩
  | .call _ _ (_ :: second :: _) => throw ⟨.violation .severalArguments, some second.loc⟩
  | .call loc callee [argument] => do
    let arg ← Expr.toTerm argument
    let func ← Expr.toTerm callee
    pure (.application func arg loc)
  | .call loc callee [] => do
    let func ← Expr.toTerm callee
    pure (.application func (.unit loc) loc)
  | .member loc object property => do
    let record ← Expr.toTerm object
    pure (.fieldAccess property.name record loc)
  | .index _ _ property => throw ⟨.violation .computedField, some property.loc⟩
  | .object loc properties => Property.ontoRecord loc (.emptyRecord loc) true properties
  | .array loc elements => do
    let elements ← Expr.toTerms elements
    pure (.array elements loc)
  | .unary loc _ _ => throw ⟨.violation (.unsupported .unaryExpression), some loc⟩
  | .spread loc _ => throw ⟨.violation (.unsupported .spreadElement), some loc⟩
termination_by structural expression => expression

/-- The terms of a list of expressions. -/
def Expr.toTerms : List Expr → Except Fault (List Term)
  | [] => pure []
  | expression :: rest => do
    let term ← Expr.toTerm expression
    let terms ← Expr.toTerms rest
    pure (term :: terms)
termination_by structural expressions => expressions

/-- Adds the parts of an object to a record. -/
def Property.ontoRecord (loc : Loc) (record : Term) (isFirst : Bool) :
    List Property → Except Fault Term
  | [] => pure record
  | property :: rest => do
    let record ← Property.onto loc record isFirst property
    Property.ontoRecord loc record false rest
termination_by structural properties => properties

/-- Adds one part of an object to a record. A spread has to come first. -/
def Property.onto (loc : Loc) (record : Term) (isFirst : Bool) : Property → Except Fault Term
  | .spread spreadLoc argument =>
    if isFirst then Expr.toTerm argument
    else throw ⟨.violation .lateSpread, some spreadLoc⟩
  | .computed _ key _ => throw ⟨.violation .computedField, some key.loc⟩
  | .field _ key value => do
    let value ← Expr.toTerm value
    pure (.recordExtend key.toText value record loc)
termination_by structural property => property

/-- The term of a function body. -/
def Body.toTerm : Body → Except Fault Term
  | .expression inner => Expr.toTerm inner
  | .block inner => Block.toTerm inner
termination_by structural body => body

/-- The term of a block. -/
def Block.toTerm : Block → Except Fault Term
  | .mk loc statements => Statement.chain loc statements
termination_by structural block => block

/-- The declarations of a block around the value that it returns. -/
def Statement.chain (loc : Loc) : List Statement → Except Fault Term
  | [] => throw ⟨.violation .emptyBody, some loc⟩
  | [last] => Statement.returned last
  | statement :: rest => do
    let body ← Statement.chain loc rest
    Statement.around body statement
termination_by structural statements => statements

/-- The value of a return statement. -/
def Statement.returned : Statement → Except Fault Term
  | .ret _ (some argument) => Expr.toTerm argument
  | .ret loc none => throw ⟨.violation .emptyReturn, some loc⟩
  | statement => throw ⟨.violation .missingReturn, some statement.loc⟩
termination_by structural statement => statement

/-- A declaration in front of a body. -/
def Statement.around (body : Term) : Statement → Except Fault Term
  | .declaration loc keyword [.mk declaratorLoc (.identifier id) (some init)] =>
    if keyword = .varKeyword then
      throw (malformedDeclaration loc keyword [.mk declaratorLoc (.identifier id) (some init)])
    else do
      let value ← Expr.toTerm init
      pure (.letIn id.name value body id.loc loc)
  | .declaration loc keyword declarators => throw (malformedDeclaration loc keyword declarators)
  | statement => throw ⟨.violation (.unsupported statement.construct), some statement.loc⟩
termination_by structural statement => statement

end

end RowScript
