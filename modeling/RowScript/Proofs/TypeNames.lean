import RowScript.Proofs.NormalForms
import RowScript.Proofs.TypeLookups

/-!
# Which names an accepted type has

A name in a written type has to be bound, but it must be the name of a type only where it is spread
or applied. Anywhere else the name of a value is taken for the name of a type.
-/

namespace RowScript

open Bool

namespace Ty

/-- Whether a name is free in a type where something is asked of it: behind a field, where
it is spread, or as what is applied to an argument. -/
def operates (name : String) : Ty → Bool
  | .ident .. | .hole _ | .emptyRow => false
  | .arrow a b => operates name a || operates name b
  | .record row _ => operates name row
  | .generic param body => param ≠ name && operates name body
  | .field _ type base => operates name type || (base.isName name || operates name base)
  | .app callee arg _ => callee.isName name || operates name callee || operates name arg

/-- Whether nothing is applied in a type. -/
def isApplicationFree : Ty → Bool
  | .ident .. | .hole _ | .emptyRow => true
  | .arrow a b | .field _ a b => isApplicationFree a && isApplicationFree b
  | .record inner _ | .generic _ inner => isApplicationFree inner
  | .app .. => false

theorem eq_ident_of_isName {name : String} {ty : Ty} (hname : ty.isName name) :
    ∃ nameLoc, ty = .ident name nameLoc := by
  cases ty with
  | ident n nameLoc => exact ⟨nameLoc, by rw [← of_decide_eq_true hname]⟩
  | _ => cases hname

end Ty

namespace Context

variable {ctx : Context} {loc : Option Loc} {name : String} {ty normal type : Ty} {nameLoc : Loc}

/-- The names of types: predefined ones, declared types and type parameters. -/
def IsType (ctx : Context) (name : String) : Prop :=
  name ∈ predefinedTypes ∨ (∃ type, ctx.typeUse? name = some (.declared type)) ∨
    ctx.typeUse? name = some .parameter

/-- The names of values. -/
def IsValue (ctx : Context) (name : String) : Prop := ctx.typeUse? name = some .value

theorem isType_of_alias {isGlobal : Bool}
    (hfind : ctx.find? name = some (.typeAlias type nameLoc isGlobal)) : ctx.IsType name :=
  .inr (.inl ⟨type, by rw [typeUse?, hfind]; rfl⟩)

theorem isType_of_typeParameter (hfind : ctx.find? name = some .typeParameter) : ctx.IsType name :=
  .inr (.inr (by rw [typeUse?, hfind]; rfl))

/-- A known name that is not the name of a type is the name of a value. -/
theorem Knows.isType_or_isValue (hknown : ctx.Knows name) : ctx.IsType name ∨ ctx.IsValue name := by
  rcases hknown with hname | hbinds
  · exact .inl (.inl hname)
  · obtain ⟨binding, hfind⟩ := Option.isSome_iff_exists.mp hbinds
    cases binding with
    | typed | defined => exact .inr (by rw [IsValue, typeUse?, hfind]; rfl)
    | typeAlias type nameLoc isGlobal => exact .inl (isType_of_alias hfind)
    | typeParameter => exact .inl (isType_of_typeParameter hfind)

theorem typeUse?_withTypeParameter {param : String} (hparam : param ≠ name) :
    (ctx.withTypeParameter param).typeUse? name = ctx.typeUse? name := by
  rw [typeUse?, withTypeParameter, find?_cons, if_neg (Ne.symm hparam), typeUse?]

theorem isType_of_spreadRow {row : Ty} (hrun : ctx.spreadRow name nameLoc loc = .ok row) :
    ctx.IsType name := by
  unfold spreadRow at hrun
  split at hrun <;> cases hrun
  · exact isType_of_typeParameter ‹_›
  · exact isType_of_alias ‹_›

theorem isType_of_applyType {appLoc : Loc} {arg applied : Ty}
    (hrun : ctx.applyType (.ident name nameLoc) arg appLoc loc = .ok applied) :
    ctx.IsType name := by
  simp only [applyType] at hrun
  split at hrun
  · split at hrun <;> cases hrun
    rename_i hname
    exact .inl (by simp [hname, predefinedTypes])
  · exact isType_of_alias ‹_›
  · cases hrun

/-- A type is accepted only if all names that it spreads or applies are names of types. -/
theorem isType_of_operates (hrun : ctx.normalize loc ty = .ok normal)
    (hname : ty.operates name) : ctx.IsType name := by
  replace hrun := normalizes_of_ok hrun
  induction hrun with
  | ident | hole | emptyRow => cases hname
  | arrow _ _ iha ihb =>
    rw [Ty.operates, or_eq_true] at hname
    exact hname.elim iha ihb
  | record _ _ ih => exact ih hname
  | spread _ _ hrow ih =>
    simp only [Ty.operates, or_eq_true] at hname
    rcases hname with hname | hname | hname
    · exact ih hname
    · obtain ⟨_, hident⟩ := Ty.eq_ident_of_isName hname
      cases hident
      exact isType_of_spreadRow hrow
    · cases hname
  | field _ _ _ hne ihtype ihbase =>
    simp only [Ty.operates, or_eq_true] at hname
    rcases hname with hname | hname | hname
    · exact ihtype hname
    · obtain ⟨nameLoc, rfl⟩ := Ty.eq_ident_of_isName hname
      exact absurd rfl (hne name nameLoc)
    · exact ihbase hname
  | generic _ _ ih =>
    simp only [Ty.operates, and_eq_true, decide_eq_true_eq] at hname
    have htype := ih hname.2
    rwa [IsType, typeUse?_withTypeParameter hname.1] at htype
  | app hcallee _ happly ihcallee iharg =>
    simp only [Ty.operates, or_eq_true] at hname
    rcases hname with (hname | hname) | hname
    · obtain ⟨nameLoc, rfl⟩ := Ty.eq_ident_of_isName hname
      cases hcallee
      exact isType_of_applyType happly
    · exact ihcallee hname
    · exact iharg hname

/-- Where nothing is applied, the name of a value is kept wherever it was written. -/
theorem mentionsName_normalize (hrun : ctx.normalize loc ty = .ok normal)
    (hfree : ty.isApplicationFree) (hvalue : ctx.IsValue name)
    (hname : ty.mentionsName name) : normal.mentionsName name := by
  replace hrun := normalizes_of_ok hrun
  induction hrun with
  | ident => exact hname
  | hole | emptyRow => cases hname
  | arrow _ _ iha ihb | field _ _ _ _ iha ihb =>
    rw [Ty.isApplicationFree, and_eq_true] at hfree
    rw [Ty.mentionsName, or_eq_true] at hname ⊢
    exact hname.imp (iha hfree.1 hvalue) (ihb hfree.2 hvalue)
  | record _ _ ih =>
    have hkept := ih hfree hvalue hname
    exact hkept
  | spread _ _ hrow ih =>
    rw [Ty.isApplicationFree, and_eq_true] at hfree
    rw [Ty.mentionsName, or_eq_true] at hname ⊢
    refine hname.imp (ih hfree.1 hvalue) fun hname => ?_
    -- a value would have been refused as a spread
    obtain rfl := of_decide_eq_true hname
    obtain ⟨binding, hfind, huse⟩ := Option.map_eq_some_iff.mp hvalue
    rw [spreadRow_of_value hfind huse] at hrow
    cases hrow
  | generic _ _ ih =>
    simp only [Ty.mentionsName, and_eq_true, decide_eq_true_eq] at hname ⊢
    refine ⟨hname.1, ih hfree ?_ hname.2⟩
    rw [IsValue, typeUse?_withTypeParameter hname.1, hvalue]
  | app => cases hfree

/-- Every name that is free in an accepted type is the name of a type, or it is the name of a
value and was written there. No value is spread or applied. If nothing is applied in the type
as written, then exactly the names of values that are written in it come through. -/
theorem normalize_names
    (hctx : ∀ name type, ctx.alias? name = some type → type.ClosedOver ctx.IsType)
    (hrun : ctx.normalize loc ty = .ok normal) :
    (∀ name, normal.mentionsName name = true →
        ctx.IsType name ∨ ctx.IsValue name ∧ ty.mentionsName name = true) ∧
      (∀ name, ty.operates name = true → ctx.IsType name) ∧
      (ty.isApplicationFree = true → ∀ name, ctx.IsValue name →
        ty.mentionsName name = true → normal.mentionsName name = true) := by
  refine ⟨?_, fun _ => isType_of_operates hrun, fun hfree _ => mentionsName_normalize hrun hfree⟩
  have hdeclares : ctx.DeclaresClosed fun name =>
      ctx.IsType name ∨ ctx.IsValue name ∧ ty.mentionsName name = true :=
    fun name type _ halias => (hctx name type halias).mono fun _ => .inl
  refine closedOver_normalize hdeclares (fun name hname => ?_) hrun
  exact (closedOver_of_normalize hrun name hname).isType_or_isValue.imp_right fun h => ⟨h, hname⟩

/-- A context with a value, a declared record and a declared generic type. -/
def boxedContext : Context :=
  [⟨2, "Box", .typeAlias (.generic "a" (.record (.field "it" (.named "a") .emptyRow) none))
      .synthetic false⟩,
    ⟨1, "Point", .typeAlias (.record (.field "x" .number .emptyRow) none) .synthetic false⟩,
    ⟨0, "one", .typed .number .synthetic false⟩]

/-- A function from a box to a record that spreads another one. -/
def boxedType : Ty :=
  .arrow (.app (.named "Box") (.named "one") .synthetic)
    (.record (.field "y" (.named "one") (.named "Point")) none)

theorem boxedContext_declares (halias : boxedContext.alias? name = some type) :
    type.ClosedOver boxedContext.IsType := by
  have hnumber : boxedContext.IsType "Number" := .inl (by decide)
  simp only [alias?, boxedContext, find?_cons] at halias
  by_cases hbox : name = "Box"
  · rw [if_pos hbox] at halias
    cases halias
    simp
  · rw [if_neg hbox] at halias
    by_cases hpoint : name = "Point"
    · rw [if_pos hpoint] at halias
      cases halias
      simpa [Ty.number] using hnumber
    · rw [if_neg hpoint] at halias
      split at halias
      · rename_i hfind
        split at hfind <;> cases hfind
      · cases halias

/-- The names of the type are those of types, and of the value that is written in it. -/
theorem normalize_names_boxed :
    ∃ normal, boxedContext.normalize none boxedType = .ok normal ∧
      normal.mentionsName "one" = true ∧
      (∀ name, normal.mentionsName name = true →
        boxedContext.IsType name ∨
          boxedContext.IsValue name ∧ boxedType.mentionsName name = true) ∧
      ∀ name, boxedType.operates name = true → boxedContext.IsType name := by
  have hrun : boxedContext.normalize none boxedType = .ok
      (.arrow (.record (.field "it" (.named "one") .emptyRow) none)
        (.record (.field "y" (.named "one") (.field "x" .number .emptyRow)) none)) := rfl
  have hnames := normalize_names (fun _ _ => boxedContext_declares) hrun
  exact ⟨_, hrun, rfl, hnames.1, hnames.2.1⟩

/-- The name of a value is accepted in a type although it is not the name of a type. -/
theorem normalize_value_name :
    (∀ name type, boxedContext.alias? name = some type → type.ClosedOver boxedContext.IsType) ∧
      boxedContext.normalize none (.arrow (.named "one") (.named "one")) =
        .ok (.arrow (.named "one") (.named "one")) ∧
      (Ty.arrow (.named "one") (.named "one")).mentionsName "one" = true ∧
      ¬ boxedContext.IsType "one" := by
  refine ⟨fun _ _ => boxedContext_declares, rfl, rfl, ?_⟩
  rintro (hpredefined | ⟨type, huse⟩ | huse)
  · exact absurd hpredefined (by decide)
  · cases huse
  · cases huse

end Context

end RowScript
