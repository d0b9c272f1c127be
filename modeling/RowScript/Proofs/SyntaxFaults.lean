import RowScript.Proofs.ScriptCommands
import RowScript.Proofs.Typing

/-!
# What can be wrong with the text of a script

What is refused between the text and the commands is either a comment with types that do not parse
or code outside of the supported subset.
-/

namespace RowScript

open Text Term Bool

variable {fault : Fault} {violated : Violation} {loc : Option Loc} {keyword : DeclarationKeyword}
  {declarators : List Declarator}

/-- Faults of the text: its types do not parse, or its code is not supported. -/
def Fault.IsSyntactic (fault : Fault) : Prop :=
  fault.cause.kind = .grammar ∨ fault.cause.kind = .structural

/-- The computation fails with faults of the text only, and its result has a property. -/
structure Renders {α : Type} (P : α → Prop) (x : Except Fault α) : Prop where
  isSyntactic : ∀ fault, x = .error fault → fault.IsSyntactic
  result : ∀ a, x = .ok a → P a

/-- The same without a property. -/
abbrev FailsInText {α : Type} (x : Except Fault α) : Prop := Renders (fun _ => True) x

namespace Renders

variable {α β : Type} {P : α → Prop} {Q : β → Prop}

theorem pure {a : α} (ha : P a) : Renders P (Pure.pure a : Except Fault α) :=
  ⟨nofun, fun _ hok => Except.ok.inj hok ▸ ha⟩

theorem throw (hfault : fault.IsSyntactic) : Renders P (MonadExcept.throw fault : Except Fault α) :=
  ⟨fun _ herror => Except.error.inj herror ▸ hfault, nofun⟩

theorem violation : Renders P (MonadExcept.throw ⟨.violation violated, loc⟩ : Except Fault α) :=
  throw (.inr rfl)

theorem malformed {loc : Loc} :
    Renders P (MonadExcept.throw (malformedDeclaration loc keyword declarators) :
      Except Fault α) := by
  unfold malformedDeclaration
  split
  · exact violation
  · split <;> exact violation

theorem bind {x : Except Fault α} {f : α → Except Fault β} (hx : Renders P x)
    (hf : ∀ a, P a → Renders Q (f a)) : Renders Q (x >>= f) := by
  cases hrun : x with
  | error fault => exact throw (hx.isSyntactic fault hrun)
  | ok a => exact hf a (hx.result a hrun)

end Renders

namespace Ty

/-- What may stand in a row when a type is written. -/
def isRowForm : Ty → Bool
  | .ident .. | .emptyRow | .field .. => true
  | _ => false

/-- Types that can be written: there are no labels and no placeholders, and rows consist of
fields. -/
def isWritten : Ty → Bool
  | .ident .. | .emptyRow => true
  | .hole _ => false
  | .arrow a b | .app a b _ => isWritten a && isWritten b
  | .record row label => label.isNone && row.isRowForm && isWritten row
  | .field _ type base => isWritten type && base.isRowForm && isWritten base
  | .generic _ body => isWritten body

theorem isWritten_foldr_generic {ty : Ty} (params : List Identifier) (hty : ty.isWritten) :
    (params.foldr (fun param inner => Ty.generic param.name inner) ty).isWritten := by
  induction params with
  | nil => exact hty
  | cons param rest ih => exact ih

end Ty

namespace TypeExpr

mutual

theorem renders_toTy (expr : TypeExpr) : Renders (·.isWritten = true) expr.toTy := by
  cases expr with
  | identifier id => exact .pure rfl
  | arrow loc argument body =>
    rw [toTy]
    refine (renders_toTy argument).bind fun arg harg => ?_
    refine (renders_toTy body).bind fun ret hret => .pure ?_
    rw [Ty.isWritten, harg, hret, Bool.and_true]
  | application loc callee arguments => exact renders_applied loc arguments rfl
  | array loc element =>
    refine (renders_toTy element).bind fun inner hinner => .pure ?_
    rw [Ty.isWritten, hinner, Bool.and_true]
    rfl
  | record loc properties =>
    refine (renders_rowOnto properties ⟨rfl, rfl⟩).bind fun row hrow => .pure ?_
    rw [Ty.isWritten, hrow.1, hrow.2]
    rfl
  | abstraction loc params body =>
    exact (renders_toTy body).bind fun _ hinner =>
      .pure (Ty.isWritten_foldr_generic params hinner)

theorem renders_applied (loc : Loc) (arguments : List TypeExpr) {callee : Ty}
    (hcallee : callee.isWritten) : Renders (·.isWritten = true) (applied loc callee arguments) := by
  cases arguments with
  | nil => exact .pure hcallee
  | cons argument rest =>
    refine (renders_toTy argument).bind fun arg harg => renders_applied loc rest ?_
    rw [Ty.isWritten, hcallee, harg, Bool.and_true]

theorem renders_rowOnto (properties : List TypeProperty) {row : Ty} {isFirst : Bool}
    (hrow : row.isRowForm ∧ row.isWritten) :
    Renders (fun row => row.isRowForm = true ∧ row.isWritten = true)
      (rowOnto row isFirst properties) := by
  cases properties with
  | nil => exact .pure hrow
  | cons property rest =>
    exact (renders_propertyOnto property hrow).bind fun _ hnext => renders_rowOnto rest hnext

theorem renders_propertyOnto (property : TypeProperty) {row : Ty} {isFirst : Bool}
    (hrow : row.isRowForm ∧ row.isWritten) :
    Renders (fun row => row.isRowForm = true ∧ row.isWritten = true)
      (propertyOnto row isFirst property) := by
  cases property with
  | spread loc argument =>
    simp only [propertyOnto]
    split
    · exact .pure ⟨rfl, rfl⟩
    · exact .violation
  | field loc key value =>
    refine (renders_toTy value).bind fun type htype => .pure ⟨rfl, ?_⟩
    rw [Ty.isWritten, htype, hrow.1, hrow.2]
    rfl

end

end TypeExpr

/-- A term as it stands in an expression: no function in it has a written type. -/
def Term.isBare (term : Term) : Bool := term.allFunctions fun _ ascribed => ascribed.isNone

theorem Literal.renders_toTerm (lit : Literal) : Renders (·.isBare = true) lit.toTerm := by
  unfold Literal.toTerm
  split
  · exact .pure rfl
  · exact .pure rfl
  · exact .pure rfl
  · exact .violation

mutual

theorem Expr.renders_toTerm (expr : Expr) : Renders (·.isBare = true) expr.toTerm := by
  cases expr with
  | identifier id => exact .pure rfl
  | literal lit => exact lit.renders_toTerm
  | arrow loc params body =>
    cases params with
    | nil => exact (Body.renders_toTerm body).bind fun _ hbody => .pure hbody
    | cons param others =>
      cases others with
      | nil => exact (Body.renders_toTerm body).bind fun _ hbody => .pure hbody
      | cons second others => exact .violation
  | conditional loc test consequent alternate =>
    rw [Expr.toTerm]
    refine (Expr.renders_toTerm test).bind fun condition hcondition => ?_
    refine (Expr.renders_toTerm consequent).bind fun consequence hconsequence => ?_
    refine (Expr.renders_toTerm alternate).bind fun alternative halternative => .pure ?_
    simp only [isBare, allFunctions, Bool.and_eq_true]
    exact ⟨⟨hcondition, hconsequence⟩, halternative⟩
  | binary loc operator left right =>
    rw [Expr.toTerm]
    split
    · refine (Expr.renders_toTerm left).bind fun leftTerm hleft => ?_
      refine (Expr.renders_toTerm right).bind fun rightTerm hright => .pure ?_
      simp only [isBare, allFunctions, Bool.true_and, Bool.and_eq_true]
      exact ⟨hleft, hright⟩
    · exact .violation
  | unary loc operator argument => exact .violation
  | call loc callee arguments =>
    cases arguments with
    | nil =>
      refine (Expr.renders_toTerm callee).bind fun func hfunc => .pure ?_
      simp only [isBare, allFunctions, Bool.and_true]
      exact hfunc
    | cons argument others =>
      cases others with
      | nil =>
        rw [Expr.toTerm]
        refine (Expr.renders_toTerm argument).bind fun arg harg => ?_
        refine (Expr.renders_toTerm callee).bind fun func hfunc => .pure ?_
        simp only [isBare, allFunctions, Bool.and_eq_true]
        exact ⟨hfunc, harg⟩
      | cons second others => exact .violation
  | member loc object property =>
    exact (Expr.renders_toTerm object).bind fun _ hobject => .pure hobject
  | index loc object property => exact .violation
  | object loc properties => exact Property.renders_ontoRecord loc properties rfl
  | array loc elements => exact (Expr.renders_toTerms elements).bind fun _ hterms => .pure hterms
  | spread loc argument => exact .violation

theorem Expr.renders_toTerms (expressions : List Expr) :
    Renders (allFunctionsIn (fun _ ascribed => ascribed.isNone) · = true)
      (Expr.toTerms expressions) := by
  cases expressions with
  | nil => exact .pure rfl
  | cons expression rest =>
    rw [Expr.toTerms]
    refine (Expr.renders_toTerm expression).bind fun term hterm => ?_
    refine (Expr.renders_toTerms rest).bind fun others hothers => .pure ?_
    rw [allFunctionsIn, and_eq_true]
    exact ⟨hterm, hothers⟩

theorem Property.renders_ontoRecord (loc : Loc) (properties : List Property) {record : Term}
    {isFirst : Bool} (hrecord : record.isBare) :
    Renders (·.isBare = true) (Property.ontoRecord loc record isFirst properties) := by
  cases properties with
  | nil => exact .pure hrecord
  | cons property rest =>
    exact (Property.renders_onto loc property hrecord).bind fun _ hnext =>
      Property.renders_ontoRecord loc rest hnext

theorem Property.renders_onto (loc : Loc) (property : Property) {record : Term} {isFirst : Bool}
    (hrecord : record.isBare) :
    Renders (·.isBare = true) (Property.onto loc record isFirst property) := by
  cases property with
  | spread spreadLoc argument =>
    simp only [Property.onto]
    split
    · exact Expr.renders_toTerm argument
    · exact .violation
  | computed _ key value => exact .violation
  | field _ key value =>
    refine (Expr.renders_toTerm value).bind fun found hfound => .pure ?_
    simp only [isBare, allFunctions, and_eq_true]
    exact ⟨hfound, hrecord⟩

theorem Body.renders_toTerm (body : Body) : Renders (·.isBare = true) body.toTerm := by
  cases body with
  | expression inner => exact Expr.renders_toTerm inner
  | block inner => exact Block.renders_toTerm inner

theorem Block.renders_toTerm (block : Block) : Renders (·.isBare = true) block.toTerm := by
  cases block with
  | mk loc statements => exact Statement.renders_chain loc statements

theorem Statement.renders_chain (loc : Loc) (statements : List Statement) :
    Renders (·.isBare = true) (Statement.chain loc statements) := by
  cases statements with
  | nil => exact .violation
  | cons statement rest =>
    cases rest with
    | nil => exact Statement.renders_returned statement
    | cons next rest =>
      rw [Statement.chain]
      · exact (Statement.renders_chain loc (next :: rest)).bind fun _ hbody =>
          Statement.renders_around statement hbody
      · nofun

theorem Statement.renders_returned (statement : Statement) :
    Renders (·.isBare = true) statement.returned := by
  cases statement with
  | ret loc argument =>
    cases argument with
    | none => exact .violation
    | some argument => exact Expr.renders_toTerm argument
  | declaration | expression | block => exact .violation

theorem Statement.renders_around (statement : Statement) {body : Term}
    (hbody : body.isBare) : Renders (·.isBare = true) (statement.around body) := by
  cases statement with
  | declaration loc keyword declarators =>
    cases declarators with
    | nil => exact .malformed
    | cons first others =>
      cases others with
      | cons second others =>
        rw [Statement.around]
        · exact .malformed
        · nofun
      | nil =>
        cases first with
        | mk declaratorLoc target init =>
          cases target with
          | objectPattern | arrayPattern => exact .malformed
          | identifier id =>
            cases init with
            | none => exact .malformed
            | some init =>
              simp only [Statement.around]
              split
              · exact .malformed
              · refine (Expr.renders_toTerm init).bind fun value hvalue => .pure ?_
                simp only [isBare, allFunctions, and_eq_true]
                exact ⟨hvalue, hbody⟩
  | ret | expression | block => exact .violation

end

theorem failsInText_readSignatures {α : Type} (p : Parser α) (text : List Char) :
    FailsInText (readSignatures p text) := by
  unfold readSignatures
  split
  · exact .pure trivial
  · exact .throw (.inl rfl)

variable (text : List Char)

include text

theorem Signature.failsInText_ofComment (comment : Comment) (name : String) :
    FailsInText (Signature.ofComment text comment name) := by
  refine (failsInText_readSignatures _ _).bind fun signature _ => ?_
  split
  · exact .pure trivial
  · exact .throw (.inl rfl)

theorem renders_writtenType (comment : Option Comment) (name : String) (init : Expr) :
    Renders (∀ ty, · = some ty → ty.isWritten) (writtenType text comment name init) := by
  have hnone : Renders (∀ ty : Ty, · = some ty → ty.isWritten) (Pure.pure none) :=
    .pure (by simp)
  unfold writtenType
  split
  · split
    · exact hnone
    · split
      · exact .violation
      · refine (Signature.failsInText_ofComment ..).bind fun written _ => ?_
        refine written.renders_toTy.bind fun type htype => ?_
        have hsome : Renders (∀ ty, · = some ty → ty.isWritten) (Pure.pure (some type)) :=
          .pure fun ty heq => Option.some.inj heq ▸ htype
        split
        · exact hsome
        · exact hsome
        · exact .violation
  · exact hnone

theorem failsInText_declarationCommand (comment : Option Comment) (isGlobal : Bool) (loc : Loc)
    (keyword : DeclarationKeyword) (declarators : List Declarator) :
    FailsInText (declarationCommand text comment isGlobal loc keyword declarators) := by
  unfold declarationCommand
  split
  · refine (renders_writtenType ..).bind fun ascribed _ => ?_
    exact (Expr.renders_toTerm _).bind fun _ _ => .pure trivial
  · refine (renders_writtenType ..).bind fun ascribed _ => ?_
    exact (Expr.renders_toTerm _).bind fun _ _ => .pure trivial
  · exact .malformed

theorem TopLevel.failsInText_toCommand (comment : Option Comment) (isGlobal : Bool)
    (node : TopLevel) : FailsInText (node.toCommand text comment isGlobal) := by
  cases node with
  | statement inner =>
    cases inner with
    | declaration loc keyword declarators => exact failsInText_declarationCommand ..
    | expression loc inner => exact inner.renders_toTerm.bind fun _ _ => .pure trivial
    | ret | block => exact .violation
  | type declaration => exact declaration.init.renders_toTy.bind fun _ _ => .pure trivial
  | value signature => exact signature.value.renders_toTy.bind fun _ _ => .pure trivial

theorem TopLevel.failsInText_toCommands (comments : List Comment) (header : Option Comment)
    (isGlobal : Bool) (previousEnd : Option Position) (nodes : List TopLevel) :
    FailsInText (TopLevel.toCommands text comments header isGlobal previousEnd nodes) := by
  induction nodes generalizing previousEnd with
  | nil => exact .pure trivial
  | cons node rest ih =>
    refine (failsInText_toCommand ..).bind fun command _ => ?_
    exact (ih _).bind fun _ _ => .pure trivial

theorem Program.failsInText_parse : FailsInText (Program.parse text) := by
  unfold Program.parse
  simp only
  split
  · exact .pure trivial
  · exact .throw (.inr rfl)

/-- A script that cannot be read has a fault in its text. -/
theorem failsInText_parseScript : FailsInText (parseScript text) := by
  refine (Program.failsInText_parse text).bind fun program _ => ?_
  simp only
  split
  · refine (failsInText_readSignatures ..).bind fun declarations _ => ?_
    exact TopLevel.failsInText_toCommands ..
  · exact .bind (P := fun _ => True) (.pure trivial) fun _ _ => TopLevel.failsInText_toCommands ..

end RowScript
