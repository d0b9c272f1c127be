import RowScript.Proofs.FreeNames

/-!
# What written types look up

Normalizing a written type asks for each of its names whether it is bound, and if so whether it is a
value, a declared type or a type parameter.
-/

namespace RowScript

open Context

/-- What a binding means to a written type that uses its name. -/
inductive Binding.TypeUse where
  | value
  | declared (type : Ty)
  | parameter
deriving DecidableEq

def Binding.typeUse : Binding → Binding.TypeUse
  | .typed .. | .defined .. => .value
  | .typeAlias type _ _ => .declared type
  | .typeParameter => .parameter

namespace Context

/-- What a name means in a written type. -/
def typeUse? (ctx : Context) (name : String) : Option Binding.TypeUse :=
  (ctx.find? name).map (·.typeUse)

/-- Two contexts in which the names of a set mean the same in written types. Declared
types do not lead out of the set. -/
structure SameTypeUses (S : String → Prop) (ctx other : Context) : Prop where
  same : ∀ name, S name → other.typeUse? name = ctx.typeUse? name
  closed : ctx.DeclaresClosed S

variable {S : String → Prop} {ctx other : Context} {name : String} {loc : Option Loc}
  {value : Binding}

theorem binds_eq_typeUse? : ctx.binds name = (ctx.typeUse? name).isSome := by
  rw [binds, typeUse?, Option.isSome_map]

theorem spreadRow_of_value (hfind : ctx.find? name = some value) (huse : value.typeUse = .value)
    (nameLoc : Loc) :
    ctx.spreadRow name nameLoc loc =
      .error ⟨.violation (.spreadOfNonRecord name), nameLoc.orElse loc⟩ := by
  cases value with
  | typed | defined => simp only [spreadRow, hfind]; rfl
  | _ => cases huse

theorem normalize_field {key : String} {type base : Ty}
    (hbase : ∀ name nameLoc, base ≠ .ident name nameLoc) :
    ctx.normalize loc (.field key type base) =
      (do pure (.field key (← ctx.normalize loc type) (← ctx.normalize loc base))) := by
  cases base with
  | ident name nameLoc => exact absurd rfl (hbase name nameLoc)
  | _ => rfl

theorem applyType_of_value (hfind : ctx.find? name = some value) (huse : value.typeUse = .value)
    {nameLoc : Loc} (arg : Ty) (appLoc : Loc) :
    ctx.applyType (.ident name nameLoc) arg appLoc loc =
      .error ⟨.mismatch .notGeneric, appLoc.orElse loc⟩ := by
  cases value with
  | typed | defined => simp only [applyType, hfind]; rfl
  | _ => cases huse

/-- What a lookup gives in one context and in the other: nothing, a value, the same
declared type or a type parameter. -/
theorem find?_cases (hsame : other.typeUse? name = ctx.typeUse? name) :
    (ctx.find? name = none ∧ other.find? name = none) ∨
    (∃ value value', ctx.find? name = some value ∧ value.typeUse = .value ∧
      other.find? name = some value' ∧ value'.typeUse = .value) ∨
    (∃ type loc isGlobal loc' isGlobal', ctx.find? name = some (.typeAlias type loc isGlobal) ∧
      other.find? name = some (.typeAlias type loc' isGlobal')) ∨
    (ctx.find? name = some .typeParameter ∧ other.find? name = some .typeParameter) := by
  simp only [typeUse?] at hsame
  cases hfind : ctx.find? name with
  | none =>
    rw [hfind, Option.map_none, Option.map_eq_none_iff] at hsame
    exact .inl ⟨rfl, hsame⟩
  | some binding =>
    rw [hfind, Option.map_some, Option.map_eq_some_iff] at hsame
    obtain ⟨binding', hfind', huse⟩ := hsame
    refine .inr ?_
    cases binding with
    | typed | defined => exact .inl ⟨_, binding', rfl, rfl, hfind', huse⟩
    | typeAlias type loc isGlobal =>
      cases binding' with
      | typeAlias type' loc' isGlobal' =>
        cases huse
        exact .inr (.inl ⟨type, loc, isGlobal, loc', isGlobal', rfl, hfind'⟩)
      | _ => cases huse
    | typeParameter =>
      cases binding' with
      | typeParameter => exact .inr (.inr ⟨rfl, hfind'⟩)
      | _ => cases huse

namespace SameTypeUses

variable (huses : SameTypeUses S ctx other)

include huses

theorem binds (hname : S name) : other.binds name = ctx.binds name := by
  rw [binds_eq_typeUse?, binds_eq_typeUse?, huses.same name hname]

theorem withTypeParameter {param : String} (hparam : S param) :
    SameTypeUses S (ctx.withTypeParameter param) (other.withTypeParameter param) where
  same name hname := by
    have hsame := huses.same name hname
    simp only [typeUse?, Context.withTypeParameter, find?_cons] at hsame ⊢
    split
    · rfl
    · exact hsame
  closed name type hname halias := by
    refine (huses.closed.withTypeParameter param name type (.inr hname) halias).mono ?_
    rintro other (rfl | hother)
    · exact hparam
    · exact hother

theorem checkTypeName (hname : S name) (nameLoc : Loc) :
    other.checkTypeName name nameLoc loc = ctx.checkTypeName name nameLoc loc := by
  rw [Context.checkTypeName, huses.binds hname, Context.checkTypeName]

theorem checkIfName {ty : Ty} (hty : ty.ClosedOver S) :
    other.checkIfName ty loc = ctx.checkIfName ty loc := by
  cases ty with
  | ident name nameLoc => exact huses.checkTypeName (Ty.closedOver_ident.mp hty) nameLoc
  | _ => rfl

theorem checkBindable (hname : S name) :
    other.checkBindable name loc = ctx.checkBindable name loc := by
  rw [Context.checkBindable, huses.binds hname, Context.checkBindable]

theorem spreadRow (hname : S name) (nameLoc : Loc) (loc : Option Loc) :
    other.spreadRow name nameLoc loc = ctx.spreadRow name nameLoc loc := by
  rcases find?_cases (huses.same name hname) with ⟨hfind, hfind'⟩ |
    ⟨_, _, hfind, huse, hfind', huse'⟩ | ⟨type, _, _, _, _, hfind, hfind'⟩ | ⟨hfind, hfind'⟩
  · rw [Context.spreadRow, hfind', Context.spreadRow, hfind]
  · rw [spreadRow_of_value hfind huse, spreadRow_of_value hfind' huse']
  · rw [Context.spreadRow, hfind', Context.spreadRow, hfind]
    cases type with
    | record row label => cases label <;> rfl
    | _ => rfl
  · rw [Context.spreadRow, hfind', Context.spreadRow, hfind]

theorem applyType {callee : Ty} (hcallee : callee.ClosedOver S) (arg : Ty) (appLoc : Loc) :
    other.applyType callee arg appLoc loc = ctx.applyType callee arg appLoc loc := by
  cases callee with
  | ident name nameLoc =>
    rcases find?_cases (huses.same name (Ty.closedOver_ident.mp hcallee)) with ⟨hfind, hfind'⟩ |
      ⟨_, _, hfind, huse, hfind', huse'⟩ | ⟨type, _, _, _, _, hfind, hfind'⟩ | ⟨hfind, hfind'⟩
    · rw [Context.applyType, hfind', Context.applyType, hfind]
    · rw [applyType_of_value hfind huse, applyType_of_value hfind' huse']
    · rw [Context.applyType, hfind', Context.applyType, hfind]
      cases type <;> rfl
    · rw [Context.applyType, hfind', Context.applyType, hfind]
  | _ => rfl

/-- A written type is brought into the same form. The parameters that it binds count too,
since they must not be bound already. -/
theorem normalize {ty : Ty} (hty : ∀ n ∈ ty.names, S n) :
    other.normalize loc ty = ctx.normalize loc ty := by
  induction ty generalizing ctx other with
  | ident name nameLoc =>
    have hname : S name := hty name (by simp [Ty.names])
    simp only [normalize, huses.checkTypeName hname]
  | hole | emptyRow => rfl
  | arrow a b iha ihb =>
    have ha := iha huses fun n hn => hty n (List.mem_append_left _ hn)
    have hb := ihb huses fun n hn => hty n (List.mem_append_right _ hn)
    simp only [normalize, ha, hb]
  | record row label ih => simp only [normalize, ih huses hty]
  | field key type base ihtype ihbase =>
    have htype := ihtype huses fun n hn => hty n (List.mem_append_left _ hn)
    have hnames : ∀ n ∈ base.names, S n := fun n hn => hty n (List.mem_append_right _ hn)
    by_cases hspread : ∃ name nameLoc, base = .ident name nameLoc
    · obtain ⟨name, nameLoc, rfl⟩ := hspread
      have hrow := huses.spreadRow (hnames name (by simp [Ty.names])) nameLoc loc
      simp only [normalize, htype, hrow]
    · have hbase : ∀ name nameLoc, base ≠ .ident name nameLoc := by simpa using hspread
      rw [normalize_field hbase, normalize_field hbase, htype, ihbase huses hnames]
  | generic param body ih =>
    have hparam : S param := hty param (by simp [Ty.names])
    have hbody := ih (huses.withTypeParameter hparam) fun n hn =>
      hty n (List.mem_cons_of_mem _ hn)
    simp only [normalize, huses.checkBindable hparam, hbody]
  | app callee arg appLoc ihcallee iharg =>
    have hnames : ∀ n ∈ callee.names, S n := fun n hn => hty n (List.mem_append_left _ hn)
    have harg := iharg huses fun n hn => hty n (List.mem_append_right _ hn)
    simp only [normalize, ihcallee huses hnames, harg]
    cases hrun : ctx.normalize loc callee with
    | error fault => rfl
    | ok callee' =>
      have hcallee : callee'.ClosedOver S :=
        closedOver_normalize huses.closed (Ty.closedOver_of_names hnames) hrun
      cases ctx.normalize loc arg with
      | error fault => rfl
      | ok arg' => exact huses.applyType hcallee arg' appLoc

end SameTypeUses

end Context

end RowScript
