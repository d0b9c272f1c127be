import RowScript.Proofs.SolverSoundness

/-!
# Written types

The form that a written type is brought into has no placeholders that were not written. Where no
type is generic, it is equal to what was written, up to the names of declared types.
-/

namespace RowScript.Context

open Ty

variable {ctx : Context} {loc : Option Loc} {name : String} {nameLoc appLoc : Loc}
  {callee arg applied ty normal row normalized : Ty} {isGlobal : Bool}

theorem exists_mem_of_find? {binding : Binding} (hfind : ctx.find? name = some binding) :
    ∃ entry ∈ ctx, entry.binding = binding := by
  obtain ⟨entry, hentry, hbinding⟩ := Option.map_eq_some_iff.mp hfind
  exact ⟨entry, List.mem_of_find?_eq_some hentry, hbinding⟩

theorem find?_cons (ctx : Context) (stamp : Nat) (name other : String) (binding : Binding) :
    find? (⟨stamp, name, binding⟩ :: ctx) other =
      if other = name then some binding else ctx.find? other := by
  by_cases hname : other = name
  · simp [find?, hname]
  · simp [find?, hname, Ne.symm hname]

theorem alias?_of_find? {type : Ty}
    (hfind : ctx.find? name = some (.typeAlias type nameLoc isGlobal)) :
    ctx.alias? name = some type := by
  unfold alias?
  rw [hfind]

theorem exists_find?_of_alias? {type : Ty} (halias : ctx.alias? name = some type) :
    ∃ nameLoc isGlobal, ctx.find? name = some (.typeAlias type nameLoc isGlobal) := by
  unfold alias? at halias
  split at halias
  · rename_i hfind
    cases halias
    exact ⟨_, _, hfind⟩
  · cases halias

/-- A value may hide a declared type, and declares none. -/
theorem alias?_of_cons_typed {stamp : Nat} {type declared : Ty} {other : String}
    (halias : alias? (⟨stamp, name, .typed type nameLoc isGlobal⟩ :: ctx) other = some declared) :
    ctx.alias? other = some declared := by
  obtain ⟨_, _, hfind⟩ := exists_find?_of_alias? halias
  rw [find?_cons] at hfind
  split at hfind
  · cases hfind
  · exact alias?_of_find? hfind

/-- A type parameter hides a declared type, and declares none. -/
theorem alias?_withTypeParameter {param : String} {type : Ty}
    (halias : (ctx.withTypeParameter param).alias? name = some type) :
    name ≠ param ∧ ctx.alias? name = some type := by
  simp only [alias?, withTypeParameter, find?_cons] at halias ⊢
  by_cases hname : name = param
  · simp [hname] at halias
  · exact ⟨hname, by simpa [hname] using halias⟩

/-- The parameter and the body of the generic type that a callee stands for, if
applications of it are reduced. -/
def opens? (ctx : Context) : Ty → Option (String × Ty)
  | .generic param body => some (param, body)
  | .ident name _ =>
    match ctx.find? name with
    | some (.typeAlias (.generic param body) _ _) =>
      if (Ty.generic param body).isNominal then none else some (param, body)
    | _ => none
  | _ => none

theorem opens?_eq_some {body : Ty} {param : String}
    (hopens : ctx.opens? callee = some (param, body)) :
    callee = .generic param body ∨ ∃ name nameLoc, callee = .ident name nameLoc ∧
      ctx.alias? name = some (.generic param body) := by
  unfold opens? at hopens
  split at hopens
  · cases hopens
    exact .inl rfl
  · split at hopens
    · rename_i hfind
      split at hopens <;> cases hopens
      exact .inr ⟨_, _, rfl, alias?_of_find? hfind⟩
    · cases hopens
  · cases hopens

/-- Whether applications of a callee stay as they are. -/
def keeps (ctx : Context) : Ty → Bool
  | .app .. => true
  | .ident name _ =>
    match ctx.find? name with
    | none => name = "Array"
    | some (.typeAlias (.generic param body) _ _) => (Ty.generic param body).isNominal
    | some _ => false
  | _ => false

theorem applyType_eq_ok (hrun : ctx.applyType callee arg appLoc loc = .ok applied) :
    (∃ param body, ctx.opens? callee = some (param, body) ∧
        applied = body.replaceName param arg) ∨
      (ctx.keeps callee ∧ applied = .app callee arg appLoc) := by
  unfold applyType at hrun
  split at hrun
  · rename_i param body
    cases hrun
    exact .inl ⟨param, body, rfl, rfl⟩
  · cases hrun
    exact .inr ⟨rfl, rfl⟩
  · split at hrun
    · rename_i hfind
      split at hrun <;> cases hrun
      rename_i hname
      exact .inr ⟨by rw [keeps, hfind]; exact decide_eq_true hname, rfl⟩
    · rename_i param body _ _ hfind
      split at hrun <;> cases hrun
      · rename_i hnominal
        exact .inr ⟨by rw [keeps, hfind]; exact hnominal, rfl⟩
      · rename_i hnominal
        exact .inl ⟨param, body, by rw [opens?, hfind]; exact if_neg hnominal, rfl⟩
    · cases hrun
  · cases hrun

/-- How the form of a type is made from the forms of its parts. -/
inductive Normalizes (loc : Option Loc) : Context → Ty → Ty → Prop where
  | ident {ctx : Context} {name : String} {nameLoc : Loc}
      (hname : ctx.checkTypeName name nameLoc loc = .ok ()) :
      Normalizes loc ctx (.ident name nameLoc) (.ident name nameLoc)
  | hole (ctx : Context) (id : Nat) : Normalizes loc ctx (.hole id) (.hole id)
  | emptyRow (ctx : Context) : Normalizes loc ctx .emptyRow .emptyRow
  | arrow {ctx : Context} {a a' b b' : Ty} (ha : Normalizes loc ctx a a')
      (hb : Normalizes loc ctx b b') : Normalizes loc ctx (.arrow a b) (.arrow a' b')
  | record {ctx : Context} {row row' : Ty} (label : Option String)
      (hrow : Normalizes loc ctx row row') :
      Normalizes loc ctx (.record row label) (.record row' label)
  | spread {ctx : Context} {type type' row : Ty} {name : String} {nameLoc : Loc} (key : String)
      (htype : Normalizes loc ctx type type') (hrow : ctx.spreadRow name nameLoc loc = .ok row) :
      Normalizes loc ctx (.field key type (.ident name nameLoc)) (.field key type' row)
  | field {ctx : Context} {type type' base base' : Ty} (key : String)
      (htype : Normalizes loc ctx type type') (hbase : Normalizes loc ctx base base')
      (hne : ∀ name nameLoc, base ≠ .ident name nameLoc) :
      Normalizes loc ctx (.field key type base) (.field key type' base')
  | generic {ctx : Context} {param : String} {body body' : Ty}
      (hparam : ctx.checkBindable param loc = .ok ())
      (hbody : Normalizes loc (ctx.withTypeParameter param) body body') :
      Normalizes loc ctx (.generic param body) (.generic param body')
  | app {ctx : Context} {callee callee' arg arg' applied : Ty} {appLoc : Loc}
      (hcallee : Normalizes loc ctx callee callee') (harg : Normalizes loc ctx arg arg')
      (happly : ctx.applyType callee' arg' appLoc loc = .ok applied) :
      Normalizes loc ctx (.app callee arg appLoc) applied

theorem normalizes_of_ok (hrun : ctx.normalize loc ty = .ok normal) :
    Normalizes loc ctx ty normal := by
  induction ty generalizing ctx normal with
  | ident name nameLoc =>
    simp only [normalize, Except.bind_eq_ok] at hrun
    obtain ⟨_, hname, hrun⟩ := hrun
    cases hrun
    exact .ident hname
  | hole id =>
    cases hrun
    exact .hole ctx id
  | emptyRow =>
    cases hrun
    exact .emptyRow ctx
  | arrow a b iha ihb =>
    simp only [normalize, Except.bind_eq_ok] at hrun
    obtain ⟨a', ha, b', hb, hrun⟩ := hrun
    cases hrun
    exact .arrow (iha ha) (ihb hb)
  | record row label ih =>
    simp only [normalize, Except.bind_eq_ok] at hrun
    obtain ⟨row', hrow, hrun⟩ := hrun
    cases hrun
    exact .record label (ih hrow)
  | field key type base ihtype ihbase =>
    cases base with
    | ident name nameLoc =>
      simp only [normalize, Except.bind_eq_ok] at hrun
      obtain ⟨type', htype, row, hrow, hrun⟩ := hrun
      cases hrun
      exact .spread key (ihtype htype) hrow
    | _ =>
      rw [normalize] at hrun
      · simp only [Except.bind_eq_ok] at hrun
        obtain ⟨type', htype, base', hbase, hrun⟩ := hrun
        cases hrun
        exact .field key (ihtype htype) (ihbase hbase) (by simp)
      · simp
  | generic param body ih =>
    simp only [normalize, Except.bind_eq_ok] at hrun
    obtain ⟨_, hparam, body', hbody, hrun⟩ := hrun
    cases hrun
    exact .generic hparam (ih hbody)
  | app callee arg appLoc ihcallee iharg =>
    simp only [normalize, Except.bind_eq_ok] at hrun
    obtain ⟨callee', hcallee, arg', harg, happly⟩ := hrun
    exact .app (ihcallee hcallee) (iharg harg) happly

theorem Normalizes.eq_ok (hnormal : Normalizes loc ctx ty normal) :
    ctx.normalize loc ty = .ok normal := by
  induction hnormal with
  | ident hname => simp only [normalize, hname]; rfl
  | hole | emptyRow => rfl
  | arrow _ _ iha ihb => simp only [normalize, iha, ihb]; rfl
  | record _ _ ih => simp only [normalize, ih]; rfl
  | spread _ _ hrow ih => simp only [normalize, ih, hrow]; rfl
  | field _ _ _ hne ihtype ihbase =>
    rw [normalize, ihtype, ihbase]
    · rfl
    · exact hne
  | generic hparam _ ih => simp only [normalize, hparam, ih]; rfl
  | app _ _ happly ihcallee iharg =>
    simp only [normalize, ihcallee, iharg]
    exact happly

section

variable (hctx : (Convention.ofContext ctx).IsClosed)

include hctx

theorem isClosed_withTypeParameter (param : String) :
    (Convention.ofContext (ctx.withTypeParameter param)).IsClosed :=
  fun name type hname => hctx name type (alias?_withTypeParameter hname).2

theorem holes_spreadRow (hrun : ctx.spreadRow name nameLoc loc = .ok row) : row.holes = [] := by
  unfold spreadRow at hrun
  split at hrun <;> cases hrun
  · rfl
  · rename_i hfind
    have hclosed := hctx name _ (alias?_of_find? hfind)
    exact hclosed

theorem mem_holes_applyType {i : Nat} (hrun : ctx.applyType callee arg appLoc loc = .ok applied)
    (hi : i ∈ applied.holes) : i ∈ callee.holes ∨ i ∈ arg.holes := by
  obtain ⟨param, body, hopens, rfl⟩ | ⟨-, rfl⟩ := applyType_eq_ok hrun
  · refine (mem_holes_replaceName hi).imp_left fun hi => ?_
    obtain rfl | ⟨name, nameLoc, rfl, halias⟩ := opens?_eq_some hopens
    · exact hi
    · have hclosed : body.holes = [] := hctx name (.generic param body) halias
      rw [hclosed] at hi
      cases hi
  · exact List.mem_append.mp hi

theorem mem_holes_normalize (hrun : ctx.normalize loc ty = .ok normalized) :
    ∀ i ∈ normalized.holes, i ∈ ty.holes := by
  replace hrun := normalizes_of_ok hrun
  intro i hi
  induction hrun with
  | ident | hole | emptyRow => exact hi
  | arrow _ _ iha ihb | field _ _ _ _ iha ihb =>
    simp only [holes, List.mem_append] at hi ⊢
    exact hi.imp (iha hctx) (ihb hctx)
  | spread _ _ hrow ih =>
    simp only [holes, holes_spreadRow hctx hrow, List.append_nil] at hi ⊢
    exact ih hctx hi
  | record _ _ ih => exact ih hctx hi
  | generic _ _ ih => exact ih (isClosed_withTypeParameter hctx _) hi
  | app _ _ happly ihcallee iharg =>
    rw [holes, List.mem_append]
    exact (mem_holes_applyType hctx happly hi).imp (ihcallee hctx) (iharg hctx)

end

/-- The row that a name is replaced by stands for the name. -/
theorem spreadRow_equal (hctx : ctx.DeclaresMonomorphic)
    (hrun : ctx.spreadRow name nameLoc loc = .ok row) :
    row.isMonomorphic ∧ Equal (.ofContext ctx) .row (.ident name nameLoc) row := by
  unfold spreadRow at hrun
  split at hrun <;> cases hrun
  · exact ⟨rfl, .refl ..⟩
  · rename_i hfind
    have halias := alias?_of_find? hfind
    exact ⟨(hctx name _ halias).1, .spread nameLoc halias⟩

theorem applyType_eq_app (hctx : ctx.DeclaresMonomorphic) (hmono : callee.isMonomorphic)
    (hrun : ctx.applyType callee arg appLoc loc = .ok applied) :
    applied = .app callee arg appLoc := by
  obtain ⟨param, body, hopens, -⟩ | ⟨-, rfl⟩ := applyType_eq_ok hrun
  · obtain rfl | ⟨name, nameLoc, rfl, halias⟩ := opens?_eq_some hopens
    · cases hmono
    · have hgeneric := (hctx name _ halias).1
      cases hgeneric
  · rfl

/-- A type is equal to the type it is brought into the form of. -/
theorem normalize_equal (hctx : ctx.DeclaresMonomorphic) (hmono : ty.isMonomorphic)
    (hrun : ctx.normalize loc ty = .ok normalized) :
    normalized.isMonomorphic ∧
      ∀ position, Equal (.ofContext ctx) position ty normalized := by
  replace hrun := normalizes_of_ok hrun
  induction hrun with
  | ident | hole | emptyRow => exact ⟨rfl, fun position => .refl ..⟩
  | generic => cases hmono
  | arrow _ _ iha ihb =>
    simp only [isMonomorphic, Bool.and_eq_true] at hmono ⊢
    obtain ⟨hmonoa, hequala⟩ := iha hctx hmono.1
    obtain ⟨hmonob, hequalb⟩ := ihb hctx hmono.2
    exact ⟨⟨hmonoa, hmonob⟩, fun position => .arrow (hequala .type) (hequalb .type)⟩
  | record label _ ih =>
    obtain ⟨hmonorow, hequal⟩ := ih hctx hmono
    exact ⟨hmonorow, fun position => .record label (hequal .row)⟩
  | spread key _ hrow ih =>
    simp only [isMonomorphic, Bool.and_eq_true] at hmono ⊢
    obtain ⟨hmonotype, hequaltype⟩ := ih hctx hmono.1
    obtain ⟨hmonorow, hequalrow⟩ := spreadRow_equal hctx hrow
    exact ⟨⟨hmonotype, hmonorow⟩, fun position => .field key (hequaltype .type) hequalrow⟩
  | field key _ _ _ ihtype ihbase =>
    simp only [isMonomorphic, Bool.and_eq_true] at hmono ⊢
    obtain ⟨hmonotype, hequaltype⟩ := ihtype hctx hmono.1
    obtain ⟨hmonobase, hequalbase⟩ := ihbase hctx hmono.2
    exact ⟨⟨hmonotype, hmonobase⟩,
      fun position => .field key (hequaltype .type) (hequalbase .row)⟩
  | app _ _ happly ihcallee iharg =>
    simp only [isMonomorphic, Bool.and_eq_true] at hmono
    obtain ⟨hmonocallee, hequalcallee⟩ := ihcallee hctx hmono.1
    obtain ⟨hmonoarg, hequalarg⟩ := iharg hctx hmono.2
    obtain rfl := applyType_eq_app hctx hmonocallee happly
    exact ⟨by simp [isMonomorphic, hmonocallee, hmonoarg],
      fun position => .app _ _ (hequalcallee .type) (hequalarg .type)⟩

end RowScript.Context
