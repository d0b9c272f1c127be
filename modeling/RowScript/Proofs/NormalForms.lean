import RowScript.Proofs.ClosedTypes
import RowScript.Proofs.ReadCommands

/-!
# Normal forms of written types

In a normal form a row ends in no name but that of a type parameter, except in a record that is only
a spread and where an application puts its argument. Normalizing twice changes nothing more, unless
a type parameter that came in with a declared type is captured.
-/

namespace RowScript

open Context Ty

open Bool (and_eq_true)

variable {binding : Binding}

namespace Ty

/-! ## Written types -/

variable {ty : Ty}

theorem isUnlabelled_of_isWritten (hty : ty.isWritten) : ty.isUnlabelled := by
  induction ty with
  | ident | emptyRow => rfl
  | hole => cases hty
  | arrow a b iha ihb | app a b _ iha ihb =>
    rw [isWritten, and_eq_true] at hty
    rw [isUnlabelled, iha hty.1, ihb hty.2, Bool.and_true]
  | field key a b iha ihb =>
    simp only [isWritten, and_eq_true] at hty
    rw [isUnlabelled, iha hty.1.1, ihb hty.2, Bool.and_true]
  | generic param body ih => exact ih hty
  | record row label ih =>
    simp only [isWritten, and_eq_true] at hty
    rw [isUnlabelled, hty.1.1, ih hty.2, Bool.and_true]

end Ty

/-! ## Rows -/

theorem Context.hasTypeParameter_withTypeParameter (ctx : Context) (param name : String) :
    (ctx.withTypeParameter param).hasTypeParameter name =
      (decide (name = param) || ctx.hasTypeParameter name) := by
  unfold hasTypeParameter withTypeParameter
  rw [find?_cons]
  by_cases hname : name = param <;> simp [hname]

namespace Ty

/-- What may stand in a row of a normal form. -/
def isRow (ctx : Context) : Ty → Bool
  | .field .. | .emptyRow => true
  | .ident name _ => ctx.hasTypeParameter name
  | _ => false

/-- Every row of a type is fields that end in nothing or in a type parameter. -/
def rowsFit : Context → Ty → Bool
  | _, .ident .. | _, .hole _ | _, .emptyRow => true
  | ctx, .arrow a b | ctx, .app a b _ => rowsFit ctx a && rowsFit ctx b
  | ctx, .record row _ => row.isRow ctx && rowsFit ctx row
  | ctx, .field _ type base => rowsFit ctx type && (base.isRow ctx && rowsFit ctx base)
  | ctx, .generic param body => rowsFit (ctx.withTypeParameter param) body

def isName (name : String) : Ty → Bool
  | .ident n _ => n = name
  | _ => false

/-- Whether a name is used, where it is free, as a row. -/
def usesRow (name : String) : Ty → Bool
  | .ident .. | .hole _ | .emptyRow => false
  | .arrow a b | .app a b _ => usesRow name a || usesRow name b
  | .record row _ => row.isName name || usesRow name row
  | .field _ type base => usesRow name type || (base.isName name || usesRow name base)
  | .generic param body => param ≠ name && usesRow name body

variable {ctx ctx' : Context} {ty body arg : Ty} {param : String}

theorem isRow_mono (hctx : ∀ name, ctx.hasTypeParameter name → ctx'.hasTypeParameter name)
    (hty : ty.isRow ctx) : ty.isRow ctx' := by
  cases ty with
  | ident name loc => exact hctx name hty
  | _ => exact hty

theorem rowsFit_mono (hctx : ∀ name, ctx.hasTypeParameter name → ctx'.hasTypeParameter name)
    (hty : ty.rowsFit ctx) : ty.rowsFit ctx' := by
  induction ty generalizing ctx ctx' with
  | ident | hole | emptyRow => rfl
  | arrow a b iha ihb | app a b _ iha ihb =>
    rw [rowsFit, and_eq_true] at hty ⊢
    exact ⟨iha hctx hty.1, ihb hctx hty.2⟩
  | record row label ih =>
    rw [rowsFit, and_eq_true] at hty ⊢
    exact ⟨isRow_mono hctx hty.1, ih hctx hty.2⟩
  | field key type base ihtype ihbase =>
    rw [rowsFit, and_eq_true, and_eq_true] at hty ⊢
    exact ⟨ihtype hctx hty.1, isRow_mono hctx hty.2.1, ihbase hctx hty.2.2⟩
  | generic param body ih =>
    refine ih (fun name hname => ?_) hty
    rw [hasTypeParameter_withTypeParameter, Bool.or_eq_true] at hname ⊢
    exact hname.imp_right (hctx name)

theorem rowsFit_withTypeParameter (hty : ty.rowsFit ctx) (param : String) :
    ty.rowsFit (ctx.withTypeParameter param) := by
  refine rowsFit_mono (fun name hname => ?_) hty
  rw [hasTypeParameter_withTypeParameter, hname, Bool.or_true]

theorem isRow_replaceName (hbody : body.isRow (ctx.withTypeParameter param))
    (harg : body.isName param → arg.isRow ctx) : (body.replaceName param arg).isRow ctx := by
  cases body with
  | ident name loc =>
    rw [replaceName]
    by_cases hname : name = param
    · rw [if_pos hname]
      exact harg (decide_eq_true hname)
    · rw [if_neg hname]
      rw [isRow, hasTypeParameter_withTypeParameter, decide_eq_false hname,
        Bool.false_or] at hbody
      exact hbody
  | field | emptyRow => rfl
  | hole | arrow | generic | app | record => cases hbody

/-- An argument takes the place of a parameter. Where the parameter is a row, the argument
must be one. -/
theorem rowsFit_replaceName (hbody : body.rowsFit (ctx.withTypeParameter param))
    (harg : arg.rowsFit ctx) (hrow : body.usesRow param → arg.isRow ctx) :
    (body.replaceName param arg).rowsFit ctx := by
  induction body generalizing ctx with
  | ident name loc =>
    rw [replaceName]
    split
    · exact harg
    · rfl
  | hole | emptyRow => rfl
  | arrow a b iha ihb | app a b _ iha ihb =>
    rw [rowsFit, and_eq_true] at hbody
    simp only [usesRow, Bool.or_eq_true] at hrow
    rw [replaceName, rowsFit, iha hbody.1 harg fun h => hrow (.inl h),
      ihb hbody.2 harg fun h => hrow (.inr h), Bool.and_true]
  | record row label ih =>
    rw [rowsFit, and_eq_true] at hbody
    simp only [usesRow, Bool.or_eq_true] at hrow
    rw [replaceName, rowsFit, isRow_replaceName hbody.1 fun h => hrow (.inl h),
      ih hbody.2 harg fun h => hrow (.inr h), Bool.and_true]
  | field key type base ihtype ihbase =>
    rw [rowsFit, and_eq_true, and_eq_true] at hbody
    simp only [usesRow, Bool.or_eq_true] at hrow
    rw [replaceName, rowsFit, ihtype hbody.1 harg fun h => hrow (.inl h),
      isRow_replaceName hbody.2.1 fun h => hrow (.inr (.inl h)),
      ihbase hbody.2.2 harg fun h => hrow (.inr (.inr h))]
    rfl
  | generic inner body ih =>
    rw [replaceName, rowsFit]
    by_cases hinner : inner = param
    · rw [if_pos hinner]
      refine rowsFit_mono (fun name hname => ?_) hbody
      simp only [hasTypeParameter_withTypeParameter, hinner] at hname ⊢
      simpa using hname
    · rw [if_neg hinner]
      apply ih _ (rowsFit_withTypeParameter harg inner)
      · intro huses
        refine isRow_mono (fun name hname => ?_) (hrow (by simp [usesRow, hinner, huses]))
        rw [hasTypeParameter_withTypeParameter, hname, Bool.or_true]
      · refine rowsFit_mono (fun name hname => ?_) hbody
        simp only [hasTypeParameter_withTypeParameter] at hname ⊢
        rwa [Bool.or_left_comm]

end Ty

namespace Context

variable {ctx : Context} {loc : Option Loc} {callee : Ty} {param name : String}

theorem applyType_of_keeps (hkeeps : ctx.keeps callee) (arg : Ty) (appLoc : Loc) :
    ctx.applyType callee arg appLoc loc = .ok (.app callee arg appLoc) := by
  unfold keeps at hkeeps
  split at hkeeps
  · rfl
  · split at hkeeps
    · rename_i hfind
      simp only [applyType, hfind, if_pos (of_decide_eq_true hkeeps)]
      rfl
    · rename_i hfind
      simp only [applyType, hfind, if_pos hkeeps]
      rfl
    · cases hkeeps
  · cases hkeeps

/-- Whether an argument may take the place of the parameter: if this is a row, then the
argument must be one. -/
def admitsArgument (ctx : Context) (loc : Option Loc) (callee arg : Ty) : Bool :=
  match ctx.normalize loc callee, ctx.normalize loc arg with
  | .ok callee, .ok arg =>
    match ctx.opens? callee with
    | some (param, body) => !body.usesRow param || arg.isRow ctx
    | none => true
  | _, _ => true

/-- The form of what stands behind a field: a name is spread. -/
def normalizeBase (ctx : Context) (loc : Option Loc) : Ty → Except Fault Ty
  | .ident name nameLoc => ctx.spreadRow name nameLoc loc
  | base => ctx.normalize loc base

theorem normalize_field_base (key : String) (type base : Ty) :
    ctx.normalize loc (.field key type base) =
      (do pure (.field key (← ctx.normalize loc type) (← ctx.normalizeBase loc base))) := by
  cases base <;> rfl

/-- The declared types have fitting rows. -/
def DeclaresRows (ctx : Context) : Prop :=
  ∀ name type, ctx.alias? name = some type → type.rowsFit ctx = true

theorem DeclaresRows.withTypeParameter (hctx : ctx.DeclaresRows) (param : String) :
    (ctx.withTypeParameter param).DeclaresRows := by
  intro name type halias
  exact rowsFit_withTypeParameter (hctx name type (alias?_withTypeParameter halias).2) param

theorem DeclaresRows.opens? (hctx : ctx.DeclaresRows) {body : Ty}
    (hcallee : callee.rowsFit ctx) (hopens : ctx.opens? callee = some (param, body)) :
    body.rowsFit (ctx.withTypeParameter param) := by
  obtain rfl | ⟨name, nameLoc, rfl, halias⟩ := opens?_eq_some hopens
  · exact hcallee
  · have hdeclared := hctx name _ halias
    exact hdeclared

theorem DeclaresRows.spreadRow (hctx : ctx.DeclaresRows) {nameLoc : Loc} {row : Ty}
    (hrun : ctx.spreadRow name nameLoc loc = .ok row) : row.isRow ctx ∧ row.rowsFit ctx := by
  unfold Context.spreadRow at hrun
  split at hrun <;> cases hrun
  · rename_i hfind
    exact ⟨by rw [isRow, hasTypeParameter, hfind], rfl⟩
  · rename_i hfind
    have hrecord := hctx _ _ (alias?_of_find? hfind)
    rwa [rowsFit, and_eq_true] at hrecord

end Context

/-- No record of a type is only a spread of something else than a type parameter, and no
application puts something else than a row where a row is expected. -/
def Ty.spreadsFit (loc : Option Loc) : Context → Ty → Bool
  | _, .ident .. | _, .hole _ | _, .emptyRow => true
  | ctx, .arrow a b | ctx, .field _ a b => spreadsFit loc ctx a && spreadsFit loc ctx b
  | ctx, .record row _ => row.isRow ctx && spreadsFit loc ctx row
  | ctx, .generic param body => spreadsFit loc (ctx.withTypeParameter param) body
  | ctx, .app callee arg _ =>
    spreadsFit loc ctx callee && spreadsFit loc ctx arg && ctx.admitsArgument loc callee arg

namespace Context

variable {ctx : Context} {loc : Option Loc} {written normal : Ty}

/-- Fields stay fields, and only a name is changed in a row. -/
theorem Normalizes.isRow (hrun : Normalizes loc ctx written normal)
    (hform : written.isRow ctx) : normal.isRow ctx := by
  cases hrun with
  | ident | emptyRow => exact hform
  | spread | field => rfl
  | hole | arrow | generic | app | record => cases hform

/-- A written type whose spreads fit has a normal form whose rows fit. -/
theorem rowsFit_normalize (hctx : ctx.DeclaresRows) (hwritten : written.isWritten)
    (hspreads : written.spreadsFit loc ctx)
    (hrun : ctx.normalize loc written = .ok normal) : normal.rowsFit ctx := by
  have hnormalizes := normalizes_of_ok hrun
  clear hrun
  induction hnormalizes with
  | ident | emptyRow => rfl
  | hole => cases hwritten
  | arrow _ _ iha ihb =>
    simp only [isWritten, spreadsFit, and_eq_true] at hwritten hspreads
    rw [rowsFit, iha hctx hwritten.1 hspreads.1, ihb hctx hwritten.2 hspreads.2, Bool.and_true]
  | record _ hrow ih =>
    simp only [isWritten, spreadsFit, and_eq_true] at hwritten hspreads
    rw [rowsFit, hrow.isRow hspreads.1, ih hctx hwritten.2 hspreads.2, Bool.and_true]
  | spread _ _ hrow ih =>
    simp only [isWritten, spreadsFit, and_eq_true] at hwritten hspreads
    obtain ⟨hform, hfit⟩ := hctx.spreadRow hrow
    rw [rowsFit, ih hctx hwritten.1.1 hspreads.1, hform, hfit]
    rfl
  | @field ctx _ _ base _ _ _ hbase hne ihtype ihbase =>
    simp only [isWritten, spreadsFit, and_eq_true] at hwritten hspreads
    have hform : base.isRow ctx := by
      have hform := hwritten.1.2
      cases base with
      | ident name nameLoc => exact absurd rfl (hne name nameLoc)
      | field | emptyRow => rfl
      | hole | arrow | generic | app | record => cases hform
    rw [rowsFit, ihtype hctx hwritten.1.1 hspreads.1, hbase.isRow hform,
      ihbase hctx hwritten.2 hspreads.2]
    rfl
  | generic _ _ ih => exact ih (hctx.withTypeParameter _) hwritten hspreads
  | app hcallee harg happly ihcallee iharg =>
    simp only [isWritten, spreadsFit, and_eq_true] at hwritten hspreads
    have hcalleeFit := ihcallee hctx hwritten.1 hspreads.1.1
    have hargFit := iharg hctx hwritten.2 hspreads.1.2
    obtain ⟨param, body, hopens, rfl⟩ | ⟨-, rfl⟩ := applyType_eq_ok happly
    · apply rowsFit_replaceName (hctx.opens? hcalleeFit hopens) hargFit
      intro huses
      have hadmits := hspreads.2
      simpa [admitsArgument, hcallee.eq_ok, harg.eq_ok, hopens, huses] using hadmits
    · rw [rowsFit, hcalleeFit, hargFit, Bool.and_true]

end Context

/-! ## Names and applications -/

namespace Ty

/-- What an application may be headed by. -/
def isArrayHead : Ty → Bool
  | .ident name _ => name = "Array"
  | .app .. => true
  | _ => false

/-- Only arrays are applied, and no type parameter hides them. -/
def appliesArrays : Ty → Bool
  | .ident .. | .hole _ | .emptyRow => true
  | .arrow a b | .field _ a b => appliesArrays a && appliesArrays b
  | .record row _ => appliesArrays row
  | .generic param body => param ≠ "Array" && appliesArrays body
  | .app callee arg _ => callee.isArrayHead && (appliesArrays callee && appliesArrays arg)

variable {body arg : Ty} {param : String}

theorem appliesArrays_replaceName (hparam : param ≠ "Array") (hbody : body.appliesArrays)
    (harg : arg.appliesArrays) : (body.replaceName param arg).appliesArrays := by
  induction body with
  | ident name loc =>
    rw [replaceName]
    split
    · exact harg
    · rfl
  | hole | emptyRow => rfl
  | arrow a b iha ihb | field _ a b iha ihb =>
    rw [appliesArrays, and_eq_true] at hbody
    rw [replaceName, appliesArrays, iha hbody.1, ihb hbody.2, Bool.and_true]
  | record row label ih => exact ih hbody
  | generic inner body ih =>
    rw [appliesArrays, and_eq_true] at hbody
    rw [replaceName, appliesArrays, hbody.1, Bool.true_and]
    split
    · exact hbody.2
    · exact ih hbody.2
  | app callee arg' loc ihcallee iharg =>
    rw [appliesArrays, and_eq_true, and_eq_true] at hbody
    have hhead : (callee.replaceName param arg).isArrayHead := by
      have hcallee := hbody.1
      cases callee with
      | ident name nameLoc =>
        have hname : name = "Array" := of_decide_eq_true hcallee
        rw [replaceName, if_neg (hname ▸ Ne.symm hparam)]
        exact hcallee
      | app => rfl
      | hole | arrow | generic | record | emptyRow | field => cases hcallee
    rw [replaceName, appliesArrays, hhead, ihcallee hbody.2.1, iharg hbody.2.2]
    rfl

theorem isUnlabelled_replaceName (hbody : body.isUnlabelled)
    (harg : arg.isUnlabelled) : (body.replaceName param arg).isUnlabelled := by
  induction body with
  | ident name loc =>
    rw [replaceName]
    split
    · exact harg
    · rfl
  | hole | emptyRow => rfl
  | arrow a b iha ihb | app a b _ iha ihb | field _ a b iha ihb =>
    rw [isUnlabelled, and_eq_true] at hbody
    rw [replaceName, isUnlabelled, iha hbody.1, ihb hbody.2, Bool.and_true]
  | record row label ih =>
    rw [isUnlabelled, and_eq_true] at hbody
    rw [replaceName, isUnlabelled, hbody.1, ih hbody.2, Bool.and_true]
  | generic inner body ih =>
    rw [replaceName, isUnlabelled]
    split
    · exact hbody
    · exact ih hbody

theorem isNominal_eq_false_of_isUnlabelled {ty : Ty} (hty : ty.isUnlabelled) :
    ty.isNominal = false := by
  induction ty with
  | generic param body ih => exact ih hty
  | record row label ih =>
    cases label with
    | none => rfl
    | some => cases hty
  | _ => rfl

/-- Every type parameter can be bound in the place where it stands. -/
def paramsFit : Context → Ty → Bool
  | _, .ident .. | _, .hole _ | _, .emptyRow => true
  | ctx, .arrow a b | ctx, .app a b _ | ctx, .field _ a b => paramsFit ctx a && paramsFit ctx b
  | ctx, .record row _ => paramsFit ctx row
  | ctx, .generic param body =>
    !reservedWords.contains param && !ctx.binds param &&
      paramsFit (ctx.withTypeParameter param) body

end Ty

namespace Context

variable {ctx : Context} {loc : Option Loc} {ty normal callee : Ty} {name param : String}
  {nameLoc : Loc}

/-- Names that may be used as types. -/
def Knows (ctx : Context) (name : String) : Prop :=
  name ∈ predefinedTypes ∨ ctx.binds name = true

instance : DecidablePred ctx.Knows := fun _ => inferInstanceAs (Decidable (_ ∨ _))

theorem checkTypeName_iff : ctx.checkTypeName name nameLoc loc = .ok () ↔ ctx.Knows name := by
  unfold checkTypeName Knows
  by_cases hname : name ∈ predefinedTypes
  · simp [hname, pure, Except.pure]
  · cases hbinds : ctx.binds name <;>
      simp [hname, pure, Except.pure, throw, throwThe, MonadExceptOf.throw]

theorem binds_withTypeParameter (ctx : Context) (param name : String) :
    (ctx.withTypeParameter param).binds name = (decide (name = param) || ctx.binds name) := by
  unfold binds withTypeParameter
  rw [find?_cons]
  by_cases hname : name = param <;> simp [hname]

theorem knows_withTypeParameter :
    (ctx.withTypeParameter param).Knows name ↔ name = param ∨ ctx.Knows name := by
  unfold Knows
  rw [binds_withTypeParameter, Bool.or_eq_true, decide_eq_true_eq, or_left_comm]

/-- All names of a type are looked up when it is brought into its form. -/
theorem closedOver_of_normalize (hrun : ctx.normalize loc ty = .ok normal) :
    ty.ClosedOver ctx.Knows := by
  replace hrun := normalizes_of_ok hrun
  induction hrun with
  | ident hname => exact closedOver_ident.mpr (checkTypeName_iff.mp hname)
  | hole => exact closedOver_hole
  | emptyRow => exact closedOver_emptyRow
  | arrow _ _ iha ihb => exact closedOver_arrow.mpr ⟨iha, ihb⟩
  | record _ _ ih => exact closedOver_record.mpr ih
  | @spread ctx _ _ _ name _ _ _ hrow ih =>
    refine closedOver_field.mpr ⟨ih, closedOver_ident.mpr (.inr ?_)⟩
    rw [spreadRow] at hrow
    cases hfind : ctx.find? name with
    | none => simp [hfind, throw, throwThe, MonadExceptOf.throw] at hrow
    | some => rw [binds, hfind, Option.isSome_some]
  | field _ _ _ _ ihtype ihbase => exact closedOver_field.mpr ⟨ihtype, ihbase⟩
  | generic _ _ ih => exact closedOver_generic.mpr (ih.mono fun _ => knows_withTypeParameter.mp)
  | app _ _ _ ihcallee iharg => exact closedOver_app.mpr ⟨ihcallee, iharg⟩

theorem paramsFit_of_normalize (hrun : ctx.normalize loc ty = .ok normal) : ty.paramsFit ctx := by
  replace hrun := normalizes_of_ok hrun
  induction hrun with
  | ident | hole | emptyRow => rfl
  | arrow _ _ iha ihb | field _ _ _ _ iha ihb | app _ _ _ iha ihb =>
    rw [paramsFit, iha, ihb, Bool.and_true]
  | record _ _ ih => exact ih
  | spread _ _ _ ih => rw [paramsFit, ih, paramsFit, Bool.and_true]
  | generic hparam _ ih => rw [paramsFit, checkBindable_iff.mp hparam, ih, Bool.and_true]

/-- Arrays are declared, and are the only labelled type with a parameter. All declared types
are made of known names and apply arrays only. -/
structure Standard (ctx : Context) : Prop where
  bound : ctx.binds "Array"
  array : ctx.keeps (.named "Array")
  closed : ∀ name type, ctx.alias? name = some type → type.ClosedOver ctx.Knows
  applies : ∀ name type, ctx.alias? name = some type → type.appliesArrays
  labels : ∀ name type, ctx.alias? name = some type →
    type.isUnlabelled ∨ (type.params = [] ∧ type.isNominal) ∨ name = "Array"

theorem keeps_cons {stamp : Nat} (hname : name ≠ "Array") :
    keeps (⟨stamp, name, binding⟩ :: ctx) (.named "Array") =
      ctx.keeps (.named "Array") := by
  simp only [named, keeps, find?_cons, if_neg (Ne.symm hname)]

variable (hctx : ctx.Standard)

include hctx

theorem Standard.withTypeParameter (hparam : param ≠ "Array") :
    (ctx.withTypeParameter param).Standard where
  bound := by rw [binds_withTypeParameter, hctx.bound, Bool.or_true]
  array := (keeps_cons hparam).trans hctx.array
  closed name type halias :=
    (hctx.closed name type (alias?_withTypeParameter halias).2).mono
      fun _ hknown => knows_withTypeParameter.mpr (.inr hknown)
  applies name type halias := hctx.applies name type (alias?_withTypeParameter halias).2
  labels name type halias := hctx.labels name type (alias?_withTypeParameter halias).2

theorem Standard.isUnlabelled {type : Ty} {isGlobal : Bool}
    (hfind : ctx.find? name = some (.typeAlias type nameLoc isGlobal))
    (hnominal : type.isNominal = false) : type.isUnlabelled := by
  obtain hunlabelled | ⟨-, hlabelled⟩ | rfl := hctx.labels name type (alias?_of_find? hfind)
  · exact hunlabelled
  · rw [hnominal] at hlabelled
    cases hlabelled
  · have harray := hctx.array
    simp only [named, keeps, hfind] at harray
    cases type with
    | generic => exact absurd harray (by simp [hnominal])
    | _ => cases harray

theorem Standard.isArrayHead (hkeeps : ctx.keeps callee) : callee.isArrayHead := by
  unfold keeps at hkeeps
  split at hkeeps
  · rfl
  · rename_i name nameLoc
    split at hkeeps
    · exact hkeeps
    · rename_i param body _ _ hfind
      obtain hunlabelled | ⟨hparams, -⟩ | rfl := hctx.labels name _ (alias?_of_find? hfind)
      · rw [isNominal_eq_false_of_isUnlabelled hunlabelled] at hkeeps
        cases hkeeps
      · cases hparams
      · rfl
    · cases hkeeps
  · cases hkeeps

theorem Standard.keeps (hhead : callee.isArrayHead) : ctx.keeps callee := by
  cases callee with
  | ident name nameLoc =>
    obtain rfl : name = "Array" := of_decide_eq_true hhead
    exact hctx.array
  | app => rfl
  | hole | arrow | generic | record | emptyRow | field => cases hhead

theorem Standard.opens? {body : Ty} (hcallee : callee.appliesArrays ∧ callee.isUnlabelled)
    (hopens : ctx.opens? callee = some (param, body)) :
    param ≠ "Array" ∧ body.appliesArrays ∧ body.isUnlabelled := by
  have hgeneric : (generic param body).appliesArrays = true ∧
      (generic param body).isUnlabelled = true := by
    unfold Context.opens? at hopens
    split at hopens
    · cases hopens
      exact hcallee
    · split at hopens
      · rename_i hfind
        split at hopens <;> cases hopens
        rename_i hnominal
        exact ⟨hctx.applies _ _ (alias?_of_find? hfind),
          hctx.isUnlabelled hfind (Bool.eq_false_iff.mpr hnominal)⟩
      · cases hopens
    · cases hopens
  rw [appliesArrays, and_eq_true, decide_eq_true_eq] at hgeneric
  exact ⟨hgeneric.1.1, hgeneric.1.2, hgeneric.2⟩

theorem Standard.spreadRow {row : Ty} (hrun : ctx.spreadRow name nameLoc loc = .ok row) :
    row.appliesArrays ∧ row.isUnlabelled := by
  unfold Context.spreadRow at hrun
  split at hrun <;> cases hrun
  · exact ⟨rfl, rfl⟩
  · rename_i hfind
    have happlies := hctx.applies _ _ (alias?_of_find? hfind)
    have hunlabelled := hctx.isUnlabelled hfind rfl
    exact ⟨happlies, hunlabelled⟩

/-- In the form of a type only arrays are applied, and nothing is labelled. -/
theorem Standard.normalize (hty : ty.isUnlabelled) (hrun : ctx.normalize loc ty = .ok normal) :
    normal.appliesArrays ∧ normal.isUnlabelled := by
  replace hrun := normalizes_of_ok hrun
  induction hrun with
  | ident | hole | emptyRow => exact ⟨rfl, rfl⟩
  | arrow _ _ iha ihb | field _ _ _ _ iha ihb =>
    rw [Ty.isUnlabelled, and_eq_true] at hty
    obtain ⟨happliesA, hunlabelledA⟩ := iha hctx hty.1
    obtain ⟨happliesB, hunlabelledB⟩ := ihb hctx hty.2
    rw [Ty.appliesArrays, Ty.isUnlabelled, happliesA, happliesB, hunlabelledA, hunlabelledB]
    exact ⟨rfl, rfl⟩
  | record _ _ ih =>
    rw [Ty.isUnlabelled, and_eq_true] at hty
    obtain ⟨happlies, hunlabelled⟩ := ih hctx hty.2
    rw [Ty.appliesArrays, Ty.isUnlabelled, happlies, hty.1, hunlabelled]
    exact ⟨rfl, rfl⟩
  | spread _ _ hrow ih =>
    rw [Ty.isUnlabelled, and_eq_true] at hty
    obtain ⟨happlies, hunlabelled⟩ := ih hctx hty.1
    obtain ⟨hrowApplies, hrowUnlabelled⟩ := hctx.spreadRow hrow
    rw [Ty.appliesArrays, Ty.isUnlabelled, happlies, hunlabelled, hrowApplies, hrowUnlabelled]
    exact ⟨rfl, rfl⟩
  | @generic _ param _ _ hbindable _ ih =>
    have hparam : param ≠ "Array" := by
      rintro rfl
      have hfree := checkBindable_iff.mp hbindable
      simp [hctx.bound] at hfree
    obtain ⟨happlies, hunlabelled⟩ := ih (hctx.withTypeParameter hparam) hty
    exact ⟨by rw [Ty.appliesArrays, decide_eq_true hparam, happlies]; rfl, hunlabelled⟩
  | app _ _ happly ihcallee iharg =>
    rw [Ty.isUnlabelled, and_eq_true] at hty
    have hplainCallee := ihcallee hctx hty.1
    have hplainArg := iharg hctx hty.2
    obtain ⟨param, body, hopens, rfl⟩ | ⟨hkeeps, rfl⟩ := applyType_eq_ok happly
    · obtain ⟨hparam, happlies, hunlabelled⟩ := hctx.opens? hplainCallee hopens
      exact ⟨Ty.appliesArrays_replaceName hparam happlies hplainArg.1,
        Ty.isUnlabelled_replaceName hunlabelled hplainArg.2⟩
    · rw [Ty.appliesArrays, Ty.isUnlabelled, hctx.isArrayHead hkeeps, hplainCallee.1,
        hplainCallee.2, hplainArg.1, hplainArg.2]
      exact ⟨rfl, rfl⟩

/-- A type with known names, applied arrays, fitting rows and fitting parameters is a normal
form. -/
theorem Standard.normalize_eq_self (hclosed : ty.ClosedOver ctx.Knows) (happlies : ty.appliesArrays)
    (hrows : ty.rowsFit ctx) (hparams : ty.paramsFit ctx) : ctx.normalize loc ty = .ok ty := by
  induction ty generalizing ctx with
  | ident name nameLoc =>
    rw [Context.normalize, checkTypeName_iff.mpr (Ty.closedOver_ident.mp hclosed)]
    rfl
  | hole | emptyRow => rfl
  | arrow a b iha ihb =>
    rw [Ty.closedOver_arrow] at hclosed
    rw [Ty.appliesArrays, and_eq_true] at happlies
    rw [Ty.rowsFit, and_eq_true] at hrows
    rw [Ty.paramsFit, and_eq_true] at hparams
    rw [Context.normalize, iha hctx hclosed.1 happlies.1 hrows.1 hparams.1,
      ihb hctx hclosed.2 happlies.2 hrows.2 hparams.2]
    rfl
  | record row label ih =>
    rw [Ty.rowsFit, and_eq_true] at hrows
    rw [Context.normalize, ih hctx (Ty.closedOver_record.mp hclosed) happlies hrows.2 hparams]
    rfl
  | field key type base ihtype ihbase =>
    rw [Ty.closedOver_field] at hclosed
    rw [Ty.appliesArrays, and_eq_true] at happlies
    rw [Ty.rowsFit, and_eq_true, and_eq_true] at hrows
    rw [Ty.paramsFit, and_eq_true] at hparams
    have hbase : ctx.normalizeBase loc base = .ok base := by
      cases base with
      | ident name nameLoc =>
        have hparam : ctx.hasTypeParameter name := hrows.2.1
        unfold hasTypeParameter at hparam
        split at hparam
        · rename_i hfind
          simp only [normalizeBase, Context.spreadRow, hfind]
          rfl
        · cases hparam
      | _ => exact ihbase hctx hclosed.2 happlies.2 hrows.2.2 hparams.2
    rw [normalize_field_base, ihtype hctx hclosed.1 happlies.1 hrows.1 hparams.1, hbase]
    rfl
  | generic param body ih =>
    rw [Ty.appliesArrays, and_eq_true, decide_eq_true_eq] at happlies
    rw [Ty.paramsFit, and_eq_true] at hparams
    have hbody := ih (hctx.withTypeParameter happlies.1)
      ((Ty.closedOver_generic.mp hclosed).mono fun _ => knows_withTypeParameter.mpr)
      happlies.2 hrows hparams.2
    rw [Context.normalize, checkBindable_iff.mpr hparams.1, hbody]
    rfl
  | app callee arg appLoc ihcallee iharg =>
    rw [Ty.closedOver_app] at hclosed
    rw [Ty.appliesArrays, and_eq_true, and_eq_true] at happlies
    rw [Ty.rowsFit, and_eq_true] at hrows
    rw [Ty.paramsFit, and_eq_true] at hparams
    rw [Context.normalize, ihcallee hctx hclosed.1 happlies.2.1 hrows.1 hparams.1,
      iharg hctx hclosed.2 happlies.2.2 hrows.2 hparams.2]
    exact applyType_of_keeps (hctx.keeps happlies.1) arg appLoc

theorem Standard.closedOver_normalize (hrun : ctx.normalize loc ty = .ok normal) :
    normal.ClosedOver ctx.Knows :=
  Context.closedOver_normalize (fun name type _ => hctx.closed name type)
    (closedOver_of_normalize hrun) hrun

end Context

/-! ## Commands -/

section Commands

variable {fuel : Nat} {ctx ctx' : Context} {checker final : Checker} {command : Command}
  {commands : List Command}

/-- Whether the type that a command declares, if any, has no labels. -/
def Command.isUnlabelled : Command → Bool
  | .bind _ (.typeAlias type _ _) _ => type.isUnlabelled
  | _ => true

theorem Context.Standard.cons (hctx : ctx.Standard) {stamp : Nat} {name : String}
    (hname : ctx.find? name = none)
    (hbinding : ∀ type nameLoc isGlobal, binding = .typeAlias type nameLoc isGlobal →
      type.ClosedOver ctx.Knows ∧ type.appliesArrays ∧ type.isUnlabelled) :
    Standard (⟨stamp, name, binding⟩ :: ctx) := by
  have hknows : ∀ other, ctx.Knows other → Knows (⟨stamp, name, binding⟩ :: ctx) other := by
    rintro other (hother | hother)
    · exact .inl hother
    · right
      rw [binds, find?_cons]
      split
      · rfl
      · exact hother
  have halias : ∀ other type, alias? (⟨stamp, name, binding⟩ :: ctx) other = some type →
      ctx.alias? other = some type ∨
        type.ClosedOver ctx.Knows ∧ type.appliesArrays = true ∧ type.isUnlabelled = true := by
    intro other type halias
    obtain ⟨_, _, hfind⟩ := exists_find?_of_alias? halias
    rw [find?_cons] at hfind
    split at hfind
    · cases hfind
      exact .inr (hbinding _ _ _ rfl)
    · exact .inl (alias?_of_find? hfind)
  have harray : name ≠ "Array" := by
    rintro rfl
    have hbound := hctx.bound
    rw [binds, hname] at hbound
    cases hbound
  refine ⟨?_, (keeps_cons harray).trans hctx.array, ?_, ?_, ?_⟩
  · rw [binds, find?_cons, if_neg (Ne.symm harray)]
    exact hctx.bound
  · intro other type htype
    exact ((halias other type htype).elim (hctx.closed other type) And.left).mono hknows
  · intro other type htype
    exact (halias other type htype).elim (hctx.applies other type) fun h => h.2.1
  · intro other type htype
    exact (halias other type htype).elim (hctx.labels other type) fun h => .inl h.2.2

theorem checkCommand_standard (hctx : ctx.Standard) (hcommand : command.isUnlabelled)
    (hrun : checkCommand fuel ctx command checker = .ok ctx' final) : ctx'.Standard := by
  cases checkedCommand_of_ok hrun with
  | evaluate => exact hctx
  | bind hbinding hname =>
    apply hctx.cons hname
    rintro type nameLoc isGlobal rfl
    cases checkedBinding_of_ok hbinding with
    | typeAlias htype => exact ⟨hctx.closedOver_normalize htype, hctx.normalize hcommand htype⟩

theorem checkCommands_standard (hctx : ctx.Standard)
    (hcommands : ∀ command ∈ commands, command.isUnlabelled)
    (hrun : checkCommands fuel ctx commands checker = .ok ctx' final) : ctx'.Standard :=
  checkCommands_induction (P := fun ctx _ => ctx.Standard)
    (fun command hcommand _ _ _ _ hctx hfirst =>
      checkCommand_standard hctx (hcommands command hcommand) hfirst) hctx hrun

theorem parseScript_isUnlabelled {text : List Char} (hrun : parseScript text = .ok commands) :
    ∀ command ∈ commands, command.isUnlabelled := by
  intro command hcommand
  obtain ⟨program, declarations, node, comment, -, hnode, hbecomes⟩ :=
    parseScript_becomes hrun hcommand
  cases hbecomes with
  | declaration | expression => rfl
  | type htype => exact isUnlabelled_of_isWritten ((TypeExpr.renders_toTy _).result _ htype)
  | value => exact absurd hnode Program.value_notMem_nodes

theorem checkCommand_fuel (hcommand : command.isGlobal) (other : Nat) :
    checkCommand fuel ctx command = checkCommand other ctx command := by
  unfold Command.isGlobal at hcommand
  split at hcommand
  · rfl
  · rfl
  · cases hcommand

theorem checkCommands_fuel (hcommands : ∀ command ∈ commands, command.isGlobal) (other : Nat) :
    checkCommands fuel ctx commands = checkCommands other ctx commands := by
  induction commands generalizing ctx with
  | nil => rfl
  | cons command rest ih =>
    rw [List.forall_mem_cons] at hcommands
    simp only [checkCommands, List.foldlM_cons, checkCommand_fuel hcommands.1 other]
    congr 1
    funext next
    exact ih hcommands.2

theorem preludeContext_fuel (fuel other : Nat) : preludeContext fuel = preludeContext other := by
  unfold preludeContext globalContext
  cases hparse : parseDeclarations preludeText.toList with
  | error fault => rfl
  | ok commands => exact checkCommands_fuel (parseDeclarations_isGlobal hparse) other

/-- What the check of the built-in types looks at in one entry. -/
def Context.isStandardEntry (ctx : Context) (entry : Entry Binding) : Bool :=
  match entry.binding with
  | .typeAlias type _ _ =>
    decide (type.ClosedOver ctx.Knows) && type.appliesArrays &&
      (type.isUnlabelled || (type.params.isEmpty && type.isNominal) || entry.name = "Array")
  | _ => true

theorem Context.standard_of_entries (hbound : ctx.binds "Array")
    (harray : ctx.keeps (.named "Array"))
    (hentries : ∀ entry ∈ ctx, ctx.isStandardEntry entry) : ctx.Standard := by
  have hdeclared : ∀ name type, ctx.alias? name = some type →
      type.ClosedOver ctx.Knows ∧ type.appliesArrays = true ∧
        (type.isUnlabelled = true ∨ (type.params = [] ∧ type.isNominal = true) ∨
          name = "Array") := by
    intro name type halias
    obtain ⟨_, _, hfind⟩ := exists_find?_of_alias? halias
    obtain ⟨entry, hentry, hbinding⟩ := Option.map_eq_some_iff.mp hfind
    have hname : entry.name = name := by simpa using List.find?_some hentry
    have htest := hentries entry (List.mem_of_find?_eq_some hentry)
    simpa [isStandardEntry, hbinding, hname, and_assoc, or_assoc] using htest
  exact ⟨hbound, harray, fun name type h => (hdeclared name type h).1,
    fun name type h => (hdeclared name type h).2.1, fun name type h => (hdeclared name type h).2.2⟩

theorem preludeContext_standard {globals : Context} {loaded : Checker}
    (hrun : preludeContext fuel {} = .ok globals loaded) : globals.Standard := by
  have hyields : (preludeContext 0).yields {} (fun globals _ =>
      globals.binds "Array" && globals.keeps (.named "Array") &&
        globals.all globals.isStandardEntry) = true := by
    rw [preludeContext_eq]
    decide +kernel
  rw [preludeContext_fuel fuel 0] at hrun
  obtain ⟨found, _, hfound, htest⟩ := CheckM.exists_of_yields hyields
  obtain ⟨rfl, -⟩ : globals = found ∧ _ := by simpa using hrun.symm.trans hfound
  simp only [and_eq_true, List.all_eq_true] at htest
  exact standard_of_entries htest.1.1 htest.1.2 htest.2

/-- Take a context that scripts lead to from the built-in types, and in which the declared
types have fitting rows, and a written type whose spreads fit: no record is only a spread of
a declared type, and no application puts such a type where a row is expected. Then the rows
of its normal form fit. Normalizing a second time changes nothing exactly if every
type parameter of the normal form can be bound in the place where it stands. -/
theorem normalize_normalForm {globals : Context} {loaded : Checker} {commands : List Command}
    {expr : TypeExpr} {written normal : Ty} {loc : Option Loc}
    (hglobals : preludeContext fuel {} = .ok globals loaded)
    (hscripts : ∀ command ∈ commands, ∃ text script,
      parseScript text = .ok script ∧ command ∈ script)
    (hcommands : checkCommands fuel globals commands loaded = .ok ctx final)
    (hdeclared : ctx.DeclaresRows) (hwritten : expr.toTy = .ok written)
    (hspreads : written.spreadsFit loc ctx = true)
    (hrun : ctx.normalize loc written = .ok normal) :
    normal.rowsFit ctx = true ∧
      (ctx.normalize loc normal = .ok normal ↔ normal.paramsFit ctx = true) := by
  have hunlabelled : ∀ command ∈ commands, command.isUnlabelled = true := by
    intro command hcommand
    obtain ⟨text, script, hscript, hmem⟩ := hscripts command hcommand
    exact parseScript_isUnlabelled hscript command hmem
  have hctx := checkCommands_standard (preludeContext_standard hglobals) hunlabelled hcommands
  have hform := expr.renders_toTy.result _ hwritten
  have hrows := rowsFit_normalize hdeclared hform hspreads hrun
  have happlies := (hctx.normalize (isUnlabelled_of_isWritten hform) hrun).1
  exact ⟨hrows, paramsFit_of_normalize,
    hctx.normalize_eq_self (hctx.closedOver_normalize hrun) happlies hrows⟩

/-- Whether the declared types have fitting rows. -/
def Context.declaresRows (ctx : Context) : Bool :=
  ctx.all fun entry =>
    match entry.binding with
    | .typeAlias type _ _ => type.rowsFit ctx
    | _ => true

theorem Context.declaresRows_of_all (hctx : ctx.declaresRows) : ctx.DeclaresRows := by
  intro name type halias
  obtain ⟨_, _, hfind⟩ := exists_find?_of_alias? halias
  obtain ⟨entry, hentry, hbinding⟩ := exists_mem_of_find? hfind
  have hrows := List.all_eq_true.mp hctx entry hentry
  rwa [hbinding] at hrows

/-- A script that declares a record with further fields. -/
def widerScript : String := "/*\ntype W<r> = \x7b ...r, x: Number \x7d;\n*/"

/-- A written name. -/
def writtenName (name : String) : Identifier := ⟨.synthetic, name⟩

/-- Functions on such records of a type parameter, with an array as their result. -/
def widerExpr : TypeExpr :=
  .abstraction .synthetic [writtenName "s"] (.arrow .synthetic
    (.application .synthetic (writtenName "W") [.identifier (writtenName "s")])
    (.array .synthetic (.identifier (writtenName "Number"))))

/-- The declared type is applied to a type parameter, which is a row. -/
theorem normalize_normalForm_wider :
    ∃ globals commands ctx loaded final written normal,
      preludeContext 60 {} = .ok globals loaded ∧
      parseScript widerScript.toList = .ok commands ∧
      checkCommands 60 globals commands loaded = .ok ctx final ∧
      ctx.DeclaresRows ∧ widerExpr.toTy = .ok written ∧ written.spreadsFit none ctx = true ∧
      ctx.normalize none written = .ok normal ∧
      normal.toText = "<s> \x7b ...s, x: Number \x7d -> Number[]" ∧
      normal.rowsFit ctx = true ∧ ctx.normalize none normal = .ok normal := by
  have hyields : (checkScript 60 widerScript.toList).yields {} (fun result _ =>
      result.2.2.declaresRows && Except.passes widerExpr.toTy (fun written =>
        written.spreadsFit none result.2.2 &&
          Except.passes (result.2.2.normalize none written) (fun normal =>
            normal.toText = "<s> \x7b ...s, x: Number \x7d -> Number[]" &&
              normal.paramsFit result.2.2))) = true := by
    rw [checkScript, widerScript, preludeContext_eq, String.toList_ofList]
    decide +kernel
  obtain ⟨⟨globals, commands, ctx⟩, final, hrun, htest⟩ := CheckM.exists_of_yields hyields
  obtain ⟨loaded, hglobals, hscript, hcommands⟩ := checkScript_eq_ok hrun
  obtain ⟨hrows, hexpr⟩ := Bool.and_eq_true_iff.mp htest
  obtain ⟨written, hwritten, hexpr⟩ := Except.exists_of_passes hexpr
  obtain ⟨hspreads, hnormalizes⟩ := Bool.and_eq_true_iff.mp hexpr
  obtain ⟨normal, hnormal, hnormalTest⟩ := Except.exists_of_passes hnormalizes
  obtain ⟨htext, hparams⟩ := Bool.and_eq_true_iff.mp hnormalTest
  have hdeclared := declaresRows_of_all hrows
  obtain ⟨hfit, hagain⟩ := normalize_normalForm hglobals
    (fun command hcommand => ⟨_, commands, hscript, hcommand⟩) hcommands hdeclared hwritten
    hspreads hnormal
  exact ⟨globals, commands, ctx, loaded, final, written, normal, hglobals, hscript, hcommands,
    hdeclared, hwritten, hspreads, hnormal, of_decide_eq_true htext, hfit, hagain.mpr hparams⟩

/-- A script that declares a record. -/
def heightScript : String := "/*\ntype Q = \x7b y: Number \x7d;\n*/"

/-- The first declared type, applied to the name of the second one or to its record. -/
theorem normalize_row_of_record :
    ∃ globals wider height ctx loaded final named again direct,
      preludeContext 60 {} = .ok globals loaded ∧
      parseScript widerScript.toList = .ok wider ∧ parseScript heightScript.toList = .ok height ∧
      checkCommands 60 globals (wider ++ height) loaded = .ok ctx final ∧
      -- a name stays behind where a row is expected, and goes away the second time
      ctx.normalize none (.app (.named "W") (.named "Q") .synthetic) = .ok named ∧
      named.toText = "\x7b ...Q, x: Number \x7d" ∧ named.rowsFit ctx = false ∧
      ctx.normalize none named = .ok again ∧ again.toText = "\x7b y: Number, x: Number \x7d" ∧
      -- a record stays where a row is expected
      ctx.normalize none (.app (.named "W") (.record (.field "y" .number .emptyRow) none)
        .synthetic) = .ok direct ∧
      direct.toText = "\x7b \x7b y: Number \x7d, x: Number \x7d" ∧
      direct.rowsFit ctx = false := by
  have hyields : (preludeContext 60).yields {} (fun globals loaded =>
      Except.passes (parseScript widerScript.toList) (fun wider =>
      Except.passes (parseScript heightScript.toList) (fun height =>
      (checkCommands 60 globals (wider ++ height)).yields loaded (fun ctx _ =>
        Except.passes (ctx.normalize none (.app (.named "W") (.named "Q") .synthetic)) (fun named =>
          decide (named.toText = "\x7b ...Q, x: Number \x7d" ∧ named.rowsFit ctx = false) &&
          Except.passes (ctx.normalize none named) (fun again =>
            decide (again.toText = "\x7b y: Number, x: Number \x7d"))) &&
        Except.passes (ctx.normalize none (.app (.named "W")
            (.record (.field "y" .number .emptyRow) none) .synthetic)) (fun direct =>
          decide (direct.toText = "\x7b \x7b y: Number \x7d, x: Number \x7d" ∧
            direct.rowsFit ctx = false)))))) = true := by
    rw [widerScript, heightScript, preludeContext_eq, String.toList_ofList, String.toList_ofList]
    decide +kernel
  obtain ⟨globals, loaded, hglobals, hwider⟩ := CheckM.exists_of_yields hyields
  obtain ⟨wider, hwider, hheight⟩ := Except.exists_of_passes hwider
  obtain ⟨height, hheight, hcommands⟩ := Except.exists_of_passes hheight
  obtain ⟨ctx, final, hcommands, htest⟩ := CheckM.exists_of_yields hcommands
  obtain ⟨hnamed, hdirect⟩ := Bool.and_eq_true_iff.mp htest
  obtain ⟨named, hnamed, hagain⟩ := Except.exists_of_passes hnamed
  obtain ⟨hshown, hagain⟩ := Bool.and_eq_true_iff.mp hagain
  obtain ⟨again, hagain, hshownAgain⟩ := Except.exists_of_passes hagain
  obtain ⟨direct, hdirect, hshownDirect⟩ := Except.exists_of_passes hdirect
  obtain ⟨htext, hrows⟩ := of_decide_eq_true hshown
  obtain ⟨htextDirect, hrowsDirect⟩ := of_decide_eq_true hshownDirect
  exact ⟨globals, wider, height, ctx, loaded, final, named, again, direct, hglobals, hwider,
    hheight, hcommands, hnamed, htext, hrows, hagain, of_decide_eq_true hshownAgain, hdirect,
    htextDirect, hrowsDirect⟩

end Commands

end RowScript
