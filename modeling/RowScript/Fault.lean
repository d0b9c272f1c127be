import RowScript.Diagnostic
import RowScript.Ty.Printer

/-!
# Faults

Everything that can go wrong between a text and its types, as causes. The
wording of each cause is in one place here, and so is the kind of diagnostic
that it becomes. Types inside a cause are shown when the message is made; the
solver names their placeholders before it puts them there.

Two causes are not about the script at all. A binding without a type can only
come from a context that was not built by checking commands, and running out of
fuel means that checking was given too few steps.
-/

namespace RowScript

/-- Constructs that parse and that the core language has no term for. -/
inductive Construct where
  | unaryExpression
  | spreadElement
  | expressionStatement
  | returnStatement
  | blockStatement
deriving DecidableEq, Repr

def Construct.toText : Construct → String
  | .unaryExpression => "UnaryExpression"
  | .spreadElement => "SpreadElement"
  | .expressionStatement => "ExpressionStatement"
  | .returnStatement => "ReturnStatement"
  | .blockStatement => "BlockStatement"

/-- Code that parses but lies outside the supported subset. -/
inductive Violation where
  | unsupported (construct : Construct)
  | declarationKeyword (keyword : String)
  | severalDeclarations
  | patternTarget
  | uninitialized
  | blockSignature
  | missingReturnType
  | severalParameters
  | severalArguments
  | unknownOperator (operator : String)
  | computedField
  | lateSpread
  | unknownLiteral (raw : String)
  | emptyBody
  | missingReturn
  | emptyReturn
  | spreadOfNonRecord (name : String)
deriving DecidableEq, Repr

def Violation.message : Violation → String
  | .unsupported construct => "Unsupported syntax " ++ construct.toText
  | .declarationKeyword keyword =>
    keyword ++ " cannot be used to declare a variable. Use let or const."
  | .severalDeclarations => "Only single declarations allowed."
  | .patternTarget => "Only simple variable assignments allowed"
  | .uninitialized => "Variables must be initialized"
  | .blockSignature => "Function annotations must use //"
  | .missingReturnType => "Function annotation missing return type"
  | .severalParameters => "Functions can only have one argument"
  | .severalArguments => "Functions cannot have more than one argument"
  | .unknownOperator operator => "Unknown operator " ++ operator
  | .computedField => "Computed fields not supported"
  | .lateSpread => "Spread operator only allowed before declared fields"
  | .unknownLiteral raw => "Unknown literal type " ++ raw
  | .emptyBody => "Empty body not allowed."
  | .missingReturn => "Block must end with a return statement."
  | .emptyReturn => "Return statement must return a value"
  | .spreadOfNonRecord name => "Only record types can be spread, not " ++ name

/-- The word for a form of type in messages. -/
def Ty.formText : Ty → String
  | .ident .. => "TypeVar"
  | .hole _ => "Placeholder"
  | .arrow .. => "Arrow"
  | .generic .. => "TypeAbs"
  | .app .. => "TypeApp"
  | .record .. => "RecordType"
  | .emptyRow => "EmptyRow"
  | .field .. => "RowExtend"

/-- Types that do not fit together, or do not fit where they are used. -/
inductive Mismatch where
  | incompatible (lhs rhs : Ty)
  | notARow (type : Ty)
  | spreadOfBuiltin
  | notGeneric
  | notApplicable (callee : Ty)
  | noParameter
  | notAFunction (type : Ty)
deriving DecidableEq, Repr

def Mismatch.message : Mismatch → String
  | .incompatible lhs rhs =>
    "Type " ++ lhs.toText ++ " is not compatible with type " ++ rhs.toText
  | .notARow type => "Expected a row type, got " ++ type.toText
  | .spreadOfBuiltin => "Can't spread built-in type"
  | .notGeneric => "Can't pass type parameter into non-generic type"
  | .notApplicable callee =>
    "Can only pass type parameters into a type variable, not " ++ callee.formText
  | .noParameter => "Function type has no parameters"
  | .notAFunction type => "Expected a function type, got " ++ type.toText

/-- A record whose fields are not the ones that were asked for. -/
inductive FieldMismatch where
  | absent (owner : Ty) (key : String) (type : Ty)
  | unexpected (owner row : Ty)
  | notContained (owner : Ty) (key : String)
deriving DecidableEq, Repr

def FieldMismatch.message : FieldMismatch → String
  | .absent owner key type =>
    "Type " ++ owner.toText ++ " is missing field " ++ key ++ ": " ++ (type.print false false).1
  | .unexpected owner row =>
    "Type " ++ owner.toText ++ " has unexpected fields " ++ row.rowText true
  | .notContained owner key => "Type " ++ owner.toText ++ " does not contain field " ++ key

/-- Why a text was refused. -/
inductive Fault.Cause where
  /-- A script that does not parse. -/
  | scriptSyntax
  /-- A comment with types that do not parse. -/
  | signatureSyntax
  | expected (alternatives : List String)
  | violation (violated : Violation)
  | undeclared (name : String) (isType : Bool)
  | redefined (name : String)
  | reserved (name : String)
  | mismatch (reason : Mismatch)
  | fieldMismatch (reason : FieldMismatch)
  | circular (id : Nat)
  | outOfTypeVariables
  /-- A value without a type, in a context that was not built by checking. -/
  | untyped (name : String)
  /-- More steps were needed than the given fuel allows. -/
  | outOfFuel
deriving DecidableEq, Repr

/-- A cause and the range it is reported for. -/
structure Fault where
  cause : Fault.Cause
  loc : Option Loc
deriving DecidableEq, Repr

namespace Fault

/-- The wording of a cause. -/
def Cause.message : Cause → String
  | .scriptSyntax => "Syntax error"
  | .signatureSyntax => "Syntax error in a type"
  | .expected alternatives => "Expected " ++ " or ".intercalate alternatives
  | .violation violated => violated.message
  | .undeclared name true => "Undeclared type variable " ++ name
  | .undeclared name false => "Undeclared variable " ++ name
  | .redefined name => name ++ " is already defined"
  | .reserved name => name ++ " is a reserved word"
  | .mismatch reason => reason.message
  | .fieldMismatch reason => reason.message
  | .circular id => s!"Circular constraints for ?X{id}"
  | .outOfTypeVariables => "Ran out of lowercase type variables"
  | .untyped name => name ++ " has no type"
  | .outOfFuel => "Out of fuel"

/-- The kind of diagnostic that a cause becomes. -/
def Cause.kind : Cause → Diagnostic.Kind
  | .signatureSyntax | .expected _ => .grammar
  | .scriptSyntax | .violation _ => .structural
  | .undeclared .. => .undeclaredName
  | .redefined _ => .redefinition
  | .reserved _ => .reservedWord
  | .mismatch _ => .typeMismatch
  | .fieldMismatch _ => .missingField
  | .circular _ => .circularType
  | .outOfTypeVariables => .outOfTypeVariables
  | .untyped _ | .outOfFuel => .general

/-- Whether the script is at fault. -/
def Cause.isReportable : Cause → Bool
  | .untyped _ | .outOfFuel => false
  | _ => true

/-- The fault as it is reported. -/
def diagnostic (fault : Fault) : Diagnostic :=
  ⟨fault.cause.kind, fault.cause.message, fault.loc⟩

end Fault

end RowScript
