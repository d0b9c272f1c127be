import RowScript.Ty.Basic

/-!
# Terms

The core language: functions of at most one parameter, local declarations,
conditionals, literals, and records that are built field by field. A function
may carry the type that was written for it.
-/

namespace RowScript

/-- The parameter of a function. -/
structure Param where
  name : String
  loc : Loc
deriving DecidableEq, Repr, Inhabited

/-- Terms of the core language. -/
inductive Term where
  | reference (name : String) (loc : Loc)
  | function (param : Option Param) (body : Term) (ascribed : Option Ty) (loc : Loc)
  | application (func arg : Term) (loc : Loc)
  | letIn (name : String) (value body : Term) (nameLoc loc : Loc)
  | conditional (condition consequence alternative : Term) (loc : Loc)
  | boolean (loc : Loc)
  | number (loc : Loc)
  | string (loc : Loc)
  | unit (loc : Loc)
  | emptyRecord (loc : Loc)
  | recordExtend (key : String) (value record : Term) (loc : Loc)
  | recordRestrict (key : String) (record : Term) (loc : Loc)
  | fieldAccess (key : String) (record : Term) (loc : Loc)
  | array (elements : List Term) (loc : Loc)
deriving Repr, Inhabited

namespace Term

/-- The range of a term. The range of a local declaration ends before its body. -/
def loc : Term → Loc
  | .reference _ loc | .function _ _ _ loc | .application _ _ loc | .letIn _ _ _ _ loc
  | .conditional _ _ _ loc | .boolean loc | .number loc | .string loc | .unit loc
  | .emptyRecord loc | .recordExtend _ _ _ loc | .recordRestrict _ _ loc
  | .fieldAccess _ _ loc | .array _ loc => loc

mutual

/-- Syntactic values: what may be copied without running anything. A local
declaration of a value is generic in every use. -/
def isValue : Term → Bool
  | .boolean _ | .number _ | .string _ | .unit _ | .function .. | .emptyRecord _ => true
  | .recordExtend _ value record _ => isValue value && isValue record
  | .recordRestrict _ record _ | .fieldAccess _ record _ => isValue record
  | .array elements _ => areValues elements
  | .reference .. | .application .. | .letIn .. | .conditional .. => false
termination_by structural term => term

/-- Whether all terms of a list are syntactic values. -/
def areValues : List Term → Bool
  | [] => true
  | term :: rest => isValue term && areValues rest
termination_by structural terms => terms

end

mutual

/-- Replaces the free references to a name. Bound names are not renamed. -/
def replace (term : Term) (name : String) (replacement : Term) : Term :=
  match term with
  | .reference n loc => if n = name then replacement else .reference n loc
  | .function param body ascribed loc =>
    .function param
      (if param.any (·.name = name) then body else body.replace name replacement) ascribed loc
  | .application func arg loc =>
    .application (func.replace name replacement) (arg.replace name replacement) loc
  | .letIn n value body nameLoc loc =>
    .letIn n (value.replace name replacement)
      (if n = name then body else body.replace name replacement) nameLoc loc
  | .conditional condition consequence alternative loc =>
    .conditional (condition.replace name replacement) (consequence.replace name replacement)
      (alternative.replace name replacement) loc
  | .recordExtend key value record loc =>
    .recordExtend key (value.replace name replacement) (record.replace name replacement) loc
  | .recordRestrict key record loc => .recordRestrict key (record.replace name replacement) loc
  | .fieldAccess key record loc => .fieldAccess key (record.replace name replacement) loc
  | .array elements loc => .array (replaceAll elements name replacement) loc
  | .boolean loc => .boolean loc
  | .number loc => .number loc
  | .string loc => .string loc
  | .unit loc => .unit loc
  | .emptyRecord loc => .emptyRecord loc
termination_by structural term

/-- Replaces the free references to a name in a list of terms. -/
def replaceAll (terms : List Term) (name : String) (replacement : Term) : List Term :=
  match terms with
  | [] => []
  | term :: rest => term.replace name replacement :: replaceAll rest name replacement
termination_by structural terms

end

end Term

end RowScript
