import RowScript.Proofs.SolverFaults
import RowScript.Proofs.TypeLookups

/-!
# Runs with renumbered placeholders

Solving, inference and the checking of commands do the same in a run that starts from a renumbered
context and a checker whose counter is further on, unless the run stops for lack of a type.
-/

namespace RowScript

open Context Term CheckM Inference Solver List

namespace Renumbering

variable (ρ : Renumbering)

/-- A use of a generic type with renumbered placeholders. -/
def use (logged : Instance) : Instance :=
  ⟨logged.loc, logged.holes.map fun hole => (hole.1, hole.2 + ρ.shift)⟩

/-- Types of type parameters, renumbered. -/
def taken (types : List (String × Ty)) : List (String × Ty) :=
  types.map fun type => (type.1, ρ.ty type.2)

/-- A checker that has handed out more placeholders and remembers renumbered types. -/
def checker (known : Checker) : Checker where
  counter := known.counter + ρ.shift
  stamp := known.stamp
  instances := known.instances.map ρ.use
  instantiations := known.instantiations.map fun logged => (logged.1, ρ.taken logged.2)
  evaluated := known.evaluated.map fun checked => (checked.1, ρ.context checked.2)

section Runs

variable {α β γ δ : Type} {φ : α → β} {ψ : γ → δ}

/-- The outcome of a run, renumbered. -/
def outcome (φ : α → β) :
    EStateM.Result Fault Checker α → EStateM.Result Fault Checker β
  | .ok value final => .ok (φ value) (ρ.checker final)
  | .error found final => .error (ρ.fault found) (ρ.checker final)

/-- A run stopped because a value has no type, and the other run may know its type. -/
def Excuses (result : EStateM.Result Fault Checker α) : Prop :=
  ρ.fill.isSome = true ∧ ∃ name loc final, result = .error ⟨.untyped name, loc⟩ final

/-- From a renumbered checker, `y` does what `x` does. -/
def Carries (φ : α → β) (x : CheckM α) (y : CheckM β) : Prop :=
  ∀ known, y (ρ.checker known) = ρ.outcome φ (x known) ∨ ρ.Excuses (x known)

variable {ρ} {x : CheckM α} {y : CheckM β} {f : α → CheckM γ} {g : β → CheckM δ}

theorem Carries.bind_of_ok (hx : ρ.Carries φ x y)
    (hf : ∀ a known middle, x known = .ok a middle → ρ.Carries ψ (f a) (g (φ a))) :
    ρ.Carries ψ (x >>= f) (y >>= g) := by
  intro known
  show EStateM.bind y g (ρ.checker known) = ρ.outcome ψ (EStateM.bind x f known) ∨
    ρ.Excuses (EStateM.bind x f known)
  rcases hx known with hsame | ⟨hfill, name, loc, final, hstop⟩
  · unfold EStateM.bind
    rw [hsame]
    cases hrun : x known with
    | ok a middle => exact hf a known middle hrun middle
    | error found middle => exact .inl rfl
  · refine .inr ⟨hfill, name, loc, final, ?_⟩
    unfold EStateM.bind
    rw [hstop]

theorem Carries.bind (hx : ρ.Carries φ x y) (hf : ∀ a, ρ.Carries ψ (f a) (g (φ a))) :
    ρ.Carries ψ (x >>= f) (y >>= g) :=
  hx.bind_of_ok fun a _ _ _ => hf a

theorem carries_pure {a : α} {b : β} (hvalue : b = φ a) : ρ.Carries φ (pure a) (pure b) :=
  fun _ => .inl (hvalue ▸ rfl)

theorem carries_throw {found found' : Fault} (hfault : found' = ρ.fault found) :
    ρ.Carries φ (throw found) (throw found') :=
  fun _ => .inl (hfault ▸ rfl)

theorem carries_ofExcept {x : Except Fault α} {y : Except Fault β} (hsame : y = ρ.except φ x) :
    ρ.Carries φ (CheckM.ofExcept x) (CheckM.ofExcept y) := by
  intro known
  subst hsame
  cases x with
  | ok a => exact .inl rfl
  | error found => exact .inl rfl

theorem carries_freshHole : ρ.Carries (· + ρ.shift) freshHole freshHole := by
  intro known
  refine .inl ?_
  show EStateM.Result.ok _ _ = EStateM.Result.ok _ _
  simp only [checker, Nat.add_right_comm]

theorem carries_ofStamped {x y : Stamped Context} (hsame : y = ρ.stamped x) :
    ρ.Carries ρ.context (ofStamped x) (ofStamped y) :=
  fun _ => .inl (hsame ▸ rfl)

end Runs

/-! ## Faults without placeholders -/

/-- A computation fails with faults only that have no placeholder. -/
def Plain {α : Type} (x : Except Fault α) : Prop :=
  Raises (fun cause => ∀ loc, ρ.fault ⟨cause, loc⟩ = ⟨cause, loc⟩) x

section Plain

variable {ρ} {α : Type}

theorem Plain.carries {x : Except Fault α} {φ : α → α} (hx : ρ.Plain x)
    (hvalue : ∀ a, x = .ok a → φ a = a) : ρ.Carries φ (CheckM.ofExcept x) (CheckM.ofExcept x) := by
  refine carries_ofExcept ?_
  cases x with
  | ok a => exact congrArg Except.ok (hvalue a rfl).symm
  | error found => exact congrArg Except.error (hx found rfl found.loc).symm

variable {ctx : Context} {name : String} {loc : Option Loc}

theorem plain_checkBindable : ρ.Plain (ctx.checkBindable name loc) := by
  unfold checkBindable
  split
  · exact .throw fun _ => rfl
  · split
    · exact .throw fun _ => rfl
    · exact .pure ()

theorem plain_checkTypeName (nameLoc : Loc) : ρ.Plain (ctx.checkTypeName name nameLoc loc) := by
  unfold checkTypeName
  split
  · exact .throw fun _ => rfl
  · exact .pure ()

theorem plain_checkIfName (ty : Ty) : ρ.Plain (ctx.checkIfName ty loc) := by
  unfold checkIfName
  split
  · exact plain_checkTypeName _
  · exact .pure ()

theorem plain_nextTypeVariable (taken : List String) :
    ρ.Plain (ctx.nextTypeVariable loc taken) := by
  unfold nextTypeVariable
  split
  · exact .pure _
  · exact .throw fun _ => rfl

theorem plain_spreadRow (nameLoc : Loc) : ρ.Plain (ctx.spreadRow name nameLoc loc) := by
  unfold spreadRow
  split <;> first | exact .pure _ | exact .throw fun _ => rfl

theorem plain_applyType (callee arg : Ty) (appLoc : Loc) :
    ρ.Plain (ctx.applyType callee arg appLoc loc) := by
  unfold applyType
  split
  · exact .pure _
  · exact .pure _
  · split
    · split
      · exact .pure _
      · exact .throw fun _ => rfl
    · split
      · exact .pure _
      · exact .pure _
    · exact .throw fun _ => rfl
  · exact .throw fun _ => rfl

theorem plain_normalize (ty : Ty) : ρ.Plain (ctx.normalize loc ty) := by
  induction ty generalizing ctx with
  | ident name nameLoc => exact (plain_checkTypeName nameLoc).bind fun _ => .pure _
  | hole | emptyRow => exact .pure _
  | arrow a b iha ihb => exact iha.bind fun _ => ihb.bind fun _ => .pure _
  | record row label ih => exact ih.bind fun _ => .pure _
  | field key type base ihtype ihbase =>
    cases base with
    | ident name nameLoc =>
      exact ihtype.bind fun _ => (plain_spreadRow nameLoc).bind fun _ => .pure _
    | _ => exact ihtype.bind fun _ => ihbase.bind fun _ => .pure _
  | generic param body ih => exact plain_checkBindable.bind fun _ => ih.bind fun _ => .pure _
  | app callee arg appLoc ihcallee iharg =>
    exact ihcallee.bind fun _ => iharg.bind fun _ => plain_applyType _ _ _

end Plain

section Contexts

variable {ρ} {ctx : Context} {name : String}

theorem carries_bindName {old new : Binding} (hbinding : new = ρ.binding old) (loc : Option Loc) :
    ρ.Carries ρ.context (CheckM.bindName ctx name old loc)
      (CheckM.bindName (ρ.context ctx) name new loc) := by
  subst hbinding
  unfold bindName
  rw [checkBindable_context]
  exact (plain_checkBindable.carries (φ := id) fun _ _ => rfl).bind fun _ => carries_ofStamped rfl

/-- Declared types have no placeholders, so written types take the same form. -/
theorem normalize_context (hctx : (Ty.Convention.ofContext ctx).IsClosed) (loc : Option Loc)
    (ty : Ty) : (ρ.context ctx).normalize loc ty = ctx.normalize loc ty := by
  have huses : SameTypeUses (fun _ => True) ctx (ρ.context ctx) := by
    refine ⟨fun name _ => ?_, fun _ _ _ _ _ _ => trivial⟩
    rw [typeUse?, find?_context, typeUse?, Option.map_map]
    cases hfind : ctx.find? name with
    | none => rfl
    | some old =>
      cases old with
      | typed => rfl
      | defined term type nameLoc inner isGlobal => cases inner <;> rfl
      | typeParameter => rfl
      | typeAlias type nameLoc isGlobal =>
        have hclosed := hctx name type (alias?_of_find? hfind)
        simp [binding, Binding.typeUse, ρ.ty_of_holes_eq_nil hclosed]
  exact huses.normalize fun _ _ => trivial

theorem isClosed_cons_typed (hctx : (Ty.Convention.ofContext ctx).IsClosed) (stamp : Nat)
    (type : Ty) (nameLoc : Loc) (isGlobal : Bool) :
    (Ty.Convention.ofContext (⟨stamp, name, .typed type nameLoc isGlobal⟩ :: ctx)).IsClosed :=
  fun other declared hdeclared => hctx other declared (alias?_of_cons_typed hdeclared)

end Contexts

/-! ## Solving -/

/-- The records that an equation belongs to, renumbered. -/
def owners (records : Option Constraint) : Option Constraint :=
  records.map fun equal => (ρ.ty equal.1, ρ.ty equal.2)

def equation (equal : Equation) : Equation :=
  ⟨ρ.ty equal.lhs, ρ.ty equal.rhs, ρ.owners equal.owners⟩

/-- A state of the solver, renumbered. -/
def solver (state : Solver) : Solver :=
  ⟨state.pending.map ρ.equation, ρ.constraints state.solved⟩

/-- What pulling a field gives, renumbered. -/
def pulled (found : Constraint × Ty) : Constraint × Ty :=
  ((ρ.ty found.1.1, ρ.ty found.1.2), ρ.ty found.2)

section Solving

variable {ρ} {ctx : Context} {loc : Option Loc} {state : Solver} {lhs rhs type row callee arg : Ty}
  {records : Option Constraint} {id fuel : Nat} {name key param : String}

theorem solver_push :
    (ρ.solver state).push (ρ.ty lhs) (ρ.ty rhs) (ρ.owners records) =
      ρ.solver (state.push lhs rhs records) := rfl

theorem displayed_solver :
    (ρ.ty type).displayed (ρ.solver state).solved.reverse =
      type.displayed state.solved.reverse := by
  have hreverse : (ρ.solver state).solved.reverse = ρ.constraints state.solved.reverse :=
    (map_reverse ..).symm
  rw [hreverse, displayed_constraints]

theorem display_solver : (ρ.solver state).display (ρ.ty type) = state.display type := by
  cases type with
  | field key a b => exact @displayed_solver ρ state (.record (.field key a b) none)
  | emptyRow => exact @displayed_solver ρ state (.record .emptyRow none)
  | _ => exact displayed_solver

theorem declaredType_context (nameLoc : Loc) :
    declaredType (ρ.context ctx) loc name nameLoc =
      ρ.except ρ.ty (declaredType ctx loc name nameLoc) := by
  unfold declaredType
  rw [find?_context]
  cases ctx.find? name with
  | none => rfl
  | some old =>
    cases old with
    | defined term type nameLoc inner isGlobal => cases inner <;> rfl
    | _ => rfl

theorem unfolding?_context :
    unfolding? (ρ.context ctx) loc (ρ.ty type) =
      ρ.except (Option.map ρ.ty) (unfolding? ctx loc type) := by
  cases type with
  | ident name nameLoc =>
    refine ρ.except_bind (declaredType_context nameLoc) fun declared _ => ?_
    have hsame : (ρ.ty declared = .ident name nameLoc) = (declared = .ident name nameLoc) :=
      propext (ρ.ty_inj (b := .ident name nameLoc))
    simp only [ty_ident, hsame]
    split
    · rfl
    · rfl
  | _ => rfl

theorem unfoldApplication_context (appLoc : Loc) :
    (ρ.context ctx).unfoldApplication loc (ρ.ty callee) (ρ.ty arg) appLoc =
      ρ.except ρ.ty (ctx.unfoldApplication loc callee arg appLoc) := by
  cases callee with
  | ident name nameLoc =>
    simp only [ty_ident, unfoldApplication, find?_context]
    cases ctx.find? name with
    | none => rfl
    | some old =>
      cases old with
      | typeAlias type nameLoc isGlobal =>
        cases type with
        | generic param body => exact congrArg Except.ok ρ.replaceName_ty
        | _ => rfl
      | defined term type nameLoc inner isGlobal => cases inner <;> rfl
      | _ => rfl
  | generic param body => exact congrArg Except.ok ρ.replaceName_ty
  | _ => rfl

theorem expandApplication_context (appLoc : Loc) :
    (ρ.context ctx).expandApplication loc (ρ.ty callee) (ρ.ty arg) appLoc =
      ρ.except ρ.ty (ctx.expandApplication loc callee arg appLoc) := by
  induction callee generalizing arg appLoc with
  | app callee first calleeLoc ihcallee _ =>
    refine ρ.except_bind (ihcallee calleeLoc) fun _ _ => unfoldApplication_context appLoc
  | _ => exact unfoldApplication_context appLoc

theorem equation_replaceHole (equal : Equation) :
    (ρ.equation equal).replaceHole (id + ρ.shift) (ρ.ty type) =
      ρ.equation (equal.replaceHole id type) := by
  obtain ⟨lhs, rhs, records⟩ := equal
  simp only [Equation.replaceHole, equation, replaceHole_ty, owners, Option.map_map,
    Equation.mk.injEq, true_and]
  cases records with
  | none => rfl
  | some equal => simp

theorem assign_solver :
    (ρ.solver state).assign loc (id + ρ.shift) (ρ.ty type) =
      ρ.except ρ.solver (state.assign loc id type) := by
  simp only [Solver.assign, occurs_ty]
  split
  · rfl
  · refine congrArg Except.ok (congrArg (Solver.mk · _) ?_)
    simp [solver, equation_replaceHole]

theorem elim_owners {f : Constraint → Ty}
    (hf : ∀ equal, f (ρ.ty equal.1, ρ.ty equal.2) = ρ.ty (f equal)) :
    (ρ.owners records).elim (ρ.ty row) f = ρ.ty (records.elim row f) := by
  cases records with
  | none => rfl
  | some equal => exact hf equal

theorem notContained_solver :
    Solver.notContained loc (ρ.solver state) (ρ.owners records) (ρ.ty row) key =
      Solver.notContained loc state records row key := by
  rw [notContained, elim_owners fun _ => rfl, display_solver, notContained]

theorem plain_displayed (solved : List Constraint) (type : Ty) : ρ.Plain (type.displayed solved) :=
  .displayed (fun _ => rfl) type

theorem plain_display (state : Solver) (type : Ty) : ρ.Plain (state.display type) :=
  .display (fun _ => rfl) type

/-- A fault that is made without placeholders and then thrown. -/
theorem carries_throwing {α β : Type} {φ : α → β} {x : Except Fault Fault} (hx : ρ.Plain x)
    (hfaults : ∀ found, x = .ok found → ρ.fault found = found) :
    ρ.Carries φ (CheckM.ofExcept x >>= fun found => throw found)
      (CheckM.ofExcept x >>= fun found => throw found) := by
  intro known
  cases x with
  | ok found => exact .inl (congrArg (EStateM.Result.error · _) (hfaults found rfl).symm)
  | error found => exact .inl (congrArg (EStateM.Result.error · _) (hx found rfl found.loc).symm)

theorem notContained_carries {α β : Type} {φ : α → β} :
    ρ.Carries φ
      (CheckM.ofExcept (Solver.notContained loc state records row key) >>= fun found => throw found)
      (CheckM.ofExcept (Solver.notContained loc (ρ.solver state) (ρ.owners records) (ρ.ty row)
        key) >>= fun found => throw found) := by
  rw [notContained_solver]
  refine carries_throwing ((plain_display _ _).bind fun _ => .pure _) fun found hfound => ?_
  obtain ⟨owner, -, hfault⟩ := Except.bind_eq_ok.mp hfound
  cases hfault
  rfl

theorem display_carries :
    ρ.Carries (fun shown => shown) (CheckM.ofExcept (state.display type))
      (CheckM.ofExcept ((ρ.solver state).display (ρ.ty type))) := by
  rw [display_solver]
  exact (plain_display _ _).carries fun _ _ => rfl

theorem pullField_carries {tail : Ty} :
    ρ.Carries ρ.pulled (pullField ctx loc state key type tail records fuel row)
      (pullField (ρ.context ctx) loc (ρ.solver state) key (ρ.ty type) (ρ.ty tail)
        (ρ.owners records) fuel (ρ.ty row)) := by
  induction fuel generalizing row with
  | zero => exact carries_throw rfl
  | succ fuel ih =>
    cases row with
    | field k t base =>
      simp only [ty_field, pullField]
      split
      · exact carries_pure rfl
      · exact ih.bind fun found => carries_pure rfl
    | hole id =>
      have hsame : (ρ.ty tail = .hole (id + ρ.shift)) = (tail = .hole id) :=
        propext ρ.ty_eq_hole
      simp only [ty_hole, pullField, hsame]
      split
      · exact carries_throw rfl
      · exact carries_freshHole.bind fun rest => carries_pure rfl
    | ident name nameLoc =>
      refine (carries_ofExcept (declaredType_context nameLoc)).bind fun declared => ?_
      cases declared with
      | record declared label => exact ih
      | _ => exact notContained_carries
    | emptyRow => exact notContained_carries
    | _ =>
      exact display_carries.bind fun _ => carries_throw rfl

theorem incompatible_carries :
    ρ.Carries ρ.solver (CheckM.ofExcept (Solver.decompose.incompatible loc lhs rhs state))
      (CheckM.ofExcept (Solver.decompose.incompatible loc (ρ.ty lhs) (ρ.ty rhs)
        (ρ.solver state))) := by
  unfold decompose.incompatible
  rw [display_solver, display_solver]
  refine Plain.carries ?_ fun _ hrun => ?_
  · exact (plain_display _ _).bind fun _ => (plain_display _ _).bind fun _ => .throw fun _ => rfl
  · obtain ⟨_, -, hrun⟩ := Except.bind_eq_ok.mp hrun
    obtain ⟨_, -, hrun⟩ := Except.bind_eq_ok.mp hrun
    cases hrun

theorem replaceName_hole {body : Ty} :
    (ρ.ty body).replaceName param (.hole (id + ρ.shift)) =
      ρ.ty (body.replaceName param (.hole id)) := by
  rw [← ty_hole, replaceName_ty]

theorem openGeneric_carries {body : Ty} :
    ρ.Carries ρ.ty (openGeneric param body) (openGeneric param (ρ.ty body)) :=
  carries_freshHole.bind fun _ => carries_pure replaceName_hole

theorem assign_carries (loc : Option Loc) (id : Nat) (type : Ty) :
    ρ.Carries ρ.solver (CheckM.ofExcept (state.assign loc id type))
      (CheckM.ofExcept ((ρ.solver state).assign loc (id + ρ.shift) (ρ.ty type))) :=
  carries_ofExcept assign_solver

theorem expand_carries (appLoc : Loc) :
    ρ.Carries ρ.ty (CheckM.ofExcept (ctx.expandApplication loc callee arg appLoc))
      (CheckM.ofExcept ((ρ.context ctx).expandApplication loc (ρ.ty callee) (ρ.ty arg) appLoc)) :=
  carries_ofExcept (expandApplication_context appLoc)

/-- A field that is missing in a closed row has the same message. -/
theorem absent_carries :
    ρ.Carries ρ.solver
      (decompose ctx loc fuel state (.field key type row) .emptyRow records)
      (decompose (ρ.context ctx) loc fuel (ρ.solver state) (.field key (ρ.ty type) (ρ.ty row))
        .emptyRow (ρ.owners records)) := by
  have howner : (ρ.owners records).elim .emptyRow (·.2) = ρ.ty (records.elim .emptyRow (·.2)) := by
    cases records <;> rfl
  simp only [decompose, displayed_solver, howner, display_solver]
  refine Plain.carries ?_ fun result hrun => ?_
  · exact (plain_displayed _ _).bind fun _ => (plain_display _ _).bind fun _ => .throw fun _ => rfl
  · obtain ⟨_, -, _, -, hrun⟩ := by simpa only [Except.bind_eq_ok] using hrun
    cases hrun

/-- Fields that a closed row has no place for have the same message. -/
theorem unexpected_carries :
    ρ.Carries ρ.solver
      (decompose ctx loc fuel state .emptyRow (.field key type row) records)
      (decompose (ρ.context ctx) loc fuel (ρ.solver state) .emptyRow
        (.field key (ρ.ty type) (ρ.ty row)) (ρ.owners records)) := by
  have howner : (ρ.owners records).elim .emptyRow (·.1) = ρ.ty (records.elim .emptyRow (·.1)) := by
    cases records <;> rfl
  have hshown := @displayed_solver ρ state (.record (.field key type row) none)
  rw [ty_record, ty_field] at hshown
  simp only [decompose, hshown, howner, display_solver]
  refine Plain.carries ?_ fun result hrun => ?_
  · exact (plain_display _ _).bind fun _ => (plain_displayed _ _).bind fun _ => .throw fun _ => rfl
  · obtain ⟨_, -, _, -, hrun⟩ := by simpa only [Except.bind_eq_ok] using hrun
    cases hrun

theorem decompose_carries :
    ρ.Carries ρ.solver (decompose ctx loc fuel state lhs rhs records)
      (decompose (ρ.context ctx) loc fuel (ρ.solver state) (ρ.ty lhs) (ρ.ty rhs)
        (ρ.owners records)) := by
  by_cases hright : ∃ id, rhs = .hole id
  · obtain ⟨id, rfl⟩ := hright
    exact assign_carries loc id lhs
  · cases rhs with
    | hole id => exact absurd ⟨id, rfl⟩ hright
    | generic param' body' =>
      cases lhs with
      | hole id => exact assign_carries loc id (.generic param' body')
      | generic param body =>
        refine carries_freshHole.bind fun shared => carries_pure ?_
        rw [← solver_push, ← replaceName_hole, ← replaceName_hole]
        rfl
      | _ => exact openGeneric_carries.bind fun _ => carries_pure rfl
    | app callee' arg' appLoc' =>
      cases lhs with
      | hole id => exact assign_carries loc id (.app callee' arg' appLoc')
      | generic => exact openGeneric_carries.bind fun _ => carries_pure rfl
      | app => exact carries_pure rfl
      | _ => exact (expand_carries appLoc').bind fun _ => carries_pure rfl
    | arrow arg' ret' =>
      cases lhs with
      | hole id => exact assign_carries loc id (.arrow arg' ret')
      | generic => exact openGeneric_carries.bind fun _ => carries_pure rfl
      | app callee arg appLoc => exact (expand_carries appLoc).bind fun _ => carries_pure rfl
      | arrow => exact carries_pure rfl
      | _ => exact incompatible_carries
    | record row' label' =>
      cases lhs with
      | hole id => exact assign_carries loc id (.record row' label')
      | generic => exact openGeneric_carries.bind fun _ => carries_pure rfl
      | app callee arg appLoc => exact (expand_carries appLoc).bind fun _ => carries_pure rfl
      | record row label =>
        simp only [ty_record, decompose]
        split
        · exact carries_pure rfl
        · exact incompatible_carries
      | _ => exact incompatible_carries
    | field key' type' base' =>
      cases lhs with
      | hole id => exact assign_carries loc id (.field key' type' base')
      | generic => exact openGeneric_carries.bind fun _ => carries_pure rfl
      | app callee arg appLoc => exact (expand_carries appLoc).bind fun _ => carries_pure rfl
      | field key type base =>
        refine Carries.bind (φ := ρ.pulled) ?_ fun _ => carries_pure rfl
        rw [rowTail_ty]
        exact pullField_carries
      | emptyRow => exact unexpected_carries
      | _ => exact incompatible_carries
    | emptyRow =>
      cases lhs with
      | hole id => exact assign_carries loc id .emptyRow
      | generic => exact openGeneric_carries.bind fun _ => carries_pure rfl
      | app callee arg appLoc => exact (expand_carries appLoc).bind fun _ => carries_pure rfl
      | field => exact absent_carries
      | _ => exact incompatible_carries
    | ident name' nameLoc' =>
      cases lhs with
      | hole id => exact assign_carries loc id (.ident name' nameLoc')
      | generic => exact openGeneric_carries.bind fun _ => carries_pure rfl
      | app callee arg appLoc => exact (expand_carries appLoc).bind fun _ => carries_pure rfl
      | _ => exact incompatible_carries

theorem step_carries {equal : Equation} :
    ρ.Carries ρ.solver (Solver.step ctx loc fuel state equal)
      (Solver.step (ρ.context ctx) loc fuel (ρ.solver state) (ρ.equation equal)) := by
  simp only [Solver.step, equation, agrees_ty]
  split
  · exact carries_pure rfl
  · refine (carries_ofExcept unfolding?_context).bind fun declared => ?_
    cases declared with
    | some declared => exact carries_pure rfl
    | none =>
      refine (carries_ofExcept unfolding?_context).bind fun declared => ?_
      cases declared with
      | some declared => exact carries_pure rfl
      | none => exact decompose_carries

theorem run_carries :
    ρ.Carries ρ.constraints (run ctx loc fuel state)
      (run (ρ.context ctx) loc fuel (ρ.solver state)) := by
  induction fuel generalizing state with
  | zero => exact carries_throw rfl
  | succ fuel ih =>
    obtain ⟨pending, solved⟩ := state
    cases pending with
    | nil => exact carries_pure rfl
    | cons equal rest => exact (@step_carries ρ ctx loc ⟨rest, solved⟩ fuel equal).bind fun _ => ih

theorem unify_carries {constraints : List Constraint} :
    ρ.Carries ρ.constraints (unify fuel ctx loc constraints)
      (unify fuel (ρ.context ctx) loc (ρ.constraints constraints)) := by
  have hstart : (⟨(ρ.constraints constraints).map fun equal => ⟨equal.1, equal.2, none⟩, []⟩ :
      Solver) = ρ.solver ⟨constraints.map fun equal => ⟨equal.1, equal.2, none⟩, []⟩ := by
    simp [solver, Renumbering.constraints, equation, owners]
  have hrun := @run_carries ρ ctx loc
    ⟨constraints.map fun equal => ⟨equal.1, equal.2, none⟩, []⟩ fuel
  rw [← hstart] at hrun
  exact hrun

end Solving

theorem stamped_bind {x y : Stamped Context} {f g : Context → Stamped Context}
    (hx : y = ρ.stamped x) (hf : ∀ ctx, g (ρ.context ctx) = ρ.stamped (f ctx)) :
    (y >>= g) = ρ.stamped (x >>= f) := by
  subst hx
  funext stamp
  exact congrFun (hf (x stamp).1) (x stamp).2

/-! ## Inference -/

/-- What is inferred, renumbered. -/
def inferred (result : Inferred) : Inferred :=
  ⟨ρ.ty result.type, ρ.constraints result.constraints, result.inner.map ρ.context⟩

/-- What is solved, renumbered. -/
def solved (result : Solved) : Solved :=
  ⟨ρ.ty result.type, ρ.constraints result.principal, ρ.context result.inner⟩

section Inference

variable {ρ} {ctx : Context} {loc : Option Loc} {id : Nat} {type : Ty} {name : String}

theorem mergeInner_context (results : List Solved) :
    mergeInner (ρ.context ctx) (results.map ρ.solved) =
      ρ.stamped (mergeInner ctx results) := by
  refine ρ.foldlM_stamped (fun inner result => ?_) results
  simp only [solved, same_context]
  split
  · rfl
  · split
    · rfl
    · exact ρ.merge_context

theorem replaceParameter_context :
    replaceParameter (id + ρ.shift) (ρ.ty type) (ρ.context ctx) =
      ρ.stamped (replaceParameter id type ctx) := by
  have hsame : (ρ.ty type = .hole (id + ρ.shift)) = (type = .hole id) := propext ρ.ty_eq_hole
  simp only [replaceParameter, hsame]
  split
  · rfl
  · refine ρ.mapTypes_context (f := fun old => old.replace? (.hole id) type)
      (g := fun old => old.replace? (.hole (id + ρ.shift)) (ρ.ty type)) (fun _ => ρ.replace?_ty)
      (fun filled hfilled => ?_) ctx
    simp [Ty.replace?, Ty.mentions, Ty.occurs, ρ.holes_fill filled hfilled]

theorem instantiateFirst_carries (n : Nat) :
    ρ.Carries (fun result => (result.1.map fun hole => (hole.1, hole.2 + ρ.shift), ρ.ty result.2))
      (type.instantiateFirst n) ((ρ.ty type).instantiateFirst n) := by
  induction n generalizing type with
  | zero => exact carries_pure rfl
  | succ n ih =>
    cases type with
    | generic param body =>
      refine carries_freshHole.bind fun hole => ?_
      have hbody := @ih (body.replaceName param (.hole hole))
      rw [← replaceName_hole] at hbody
      exact hbody.bind fun _ => carries_pure rfl
    | _ => exact carries_pure rfl

theorem carries_modify {f g : Checker → Checker}
    (hsame : ∀ known, g (ρ.checker known) = ρ.checker (f known)) :
    ρ.Carries (fun value => value) (modify f : CheckM PUnit) (modify g) := by
  intro known
  refine .inl ?_
  show EStateM.Result.ok PUnit.unit (g (ρ.checker known)) =
    EStateM.Result.ok PUnit.unit (ρ.checker (f known))
  rw [hsame]

theorem instantiate_carries :
    ρ.Carries ρ.ty (type.instantiate loc) ((ρ.ty type).instantiate loc) := by
  unfold Ty.instantiate
  rw [params_ty]
  refine (instantiateFirst_carries _).bind fun result => ?_
  obtain ⟨holes, body⟩ := result
  cases loc with
  | none => exact carries_pure rfl
  | some loc =>
    cases holes with
    | nil => exact carries_pure rfl
    | cons first rest =>
      refine (carries_modify fun known => ?_).bind fun _ => carries_pure rfl
      simp [checker, use]

theorem valueType_carries :
    ρ.Carries ρ.ty (CheckM.ofExcept (ctx.valueType name loc))
      (CheckM.ofExcept ((ρ.context ctx).valueType name loc)) := by
  unfold valueType
  rw [find?_context]
  cases ctx.find? name with
  | none => exact carries_throw rfl
  | some old =>
    cases old with
    | typed => exact carries_pure rfl
    | typeAlias | typeParameter => exact carries_throw rfl
    | defined term type nameLoc inner isGlobal =>
      cases type with
      | some type => cases inner <;> exact carries_pure rfl
      | none =>
        cases hfill : ρ.fill with
        | some filled => exact fun known => .inr ⟨by rw [hfill]; rfl, name, none, known, rfl⟩
        | none =>
          have hmissing : ρ.valueTy none = none := hfill
          cases inner with
          | none | some inner =>
            simp only [Option.map_some, binding, hmissing]
            exact carries_throw rfl

/-- What `solve` does with closed terms can be renumbered. -/
def CarriesTerms (ρ : Renumbering) (solve : Context → Term → CheckM Solved) : Prop :=
  ∀ ctx term, (Ty.Convention.ofContext ctx).IsClosed → term.isClosed = true →
    ρ.Carries ρ.solved (solve ctx term) (solve (ρ.context ctx) term)

section

variable {solve : Context → Term → CheckM Solved} (hsolve : ρ.CarriesTerms solve)
  (hctx : (Ty.Convention.ofContext ctx).IsClosed) {param : Option Param} {value : Term}

include hsolve hctx

theorem CarriesTerms.body {body : Term} (hbody : body.isClosed)
    {type' : Ty} (htype : type' = ρ.ty type) (nameLoc : Loc) {f g : Solved → CheckM Inferred}
    (hf : ∀ result, ρ.Carries ρ.inferred (f result) (g (ρ.solved result))) :
    ρ.Carries ρ.inferred
      (bindName ctx name (.typed type nameLoc false) loc >>= fun ctx => solve ctx body >>= f)
      (bindName (ρ.context ctx) name (.typed type' nameLoc false) loc >>=
        fun ctx => solve ctx body >>= g) := by
  subst htype
  refine (carries_bindName rfl loc).bind_of_ok fun extended known middle hrun => ?_
  obtain ⟨-, rfl, -⟩ := bindName_eq_ok.mp hrun
  exact (hsolve _ body (isClosed_cons_typed hctx _ _ _ _) hbody).bind hf

theorem function_carries {body : Term} (hbody : body.isClosed) (loc : Loc) :
    ρ.Carries ρ.inferred (Inference.function solve ctx param body loc)
      (Inference.function solve (ρ.context ctx) param body loc) := by
  cases param with
  | none => exact (hsolve ctx body hctx hbody).bind fun _ => carries_pure rfl
  | some param =>
    refine carries_freshHole.bind fun id => ?_
    refine hsolve.body hctx hbody ρ.ty_hole.symm param.loc fun result => ?_
    have hsolution := @solutionFor_constraints ρ result.principal id
    simp only [solved, hsolution]
    cases solutionFor id result.principal with
    | some arg =>
      refine (carries_ofStamped replaceParameter_context).bind fun inner => carries_pure ?_
      simp [inferred]
    | none =>
      simp only [Option.map_none, nextTypeVariable_context, names_ty]
      refine ((plain_nextTypeVariable _).carries (φ := fun found => found)
        fun _ _ => rfl).bind fun found => ?_
      have hnamed := @replaceParameter_context ρ result.inner id (.named found)
      refine (carries_ofStamped (ρ.stamped_bind hnamed fun _ => rfl)).bind
        fun inner => carries_pure ?_
      have hret := @replaceHole_ty ρ result.type (.named found) id
      have hfunction := @functionTo_ty ρ (.named found) (result.type.replaceHole id (.named found))
      rw [ty_named] at hret hfunction
      rw [hret, hfunction]
      rfl

omit hsolve hctx in
theorem checkIfName_context (ty : Ty) :
    (ρ.context ctx).checkIfName ty loc = ctx.checkIfName ty loc := by
  cases ty with
  | ident name nameLoc => simp only [checkIfName, checkTypeName, binds_context]
  | _ => rfl

theorem ascribedFunction_carries {body : Term} (hbody : body.isClosed) {ascribed : Ty}
    (hascribed : ascribed.holes = []) (loc : Loc) :
    ρ.Carries ρ.inferred (ascribedFunction solve ctx param body ascribed loc)
      (ascribedFunction solve (ρ.context ctx) param body ascribed loc) := by
  unfold ascribedFunction
  rw [normalize_context hctx]
  refine ((plain_normalize ascribed).carries (φ := fun type => type) fun _ _ => rfl).bind_of_ok
    fun type known middle hrun => ?_
  -- the written type has no placeholders in its other form either
  have hclosed : type.holes = [] := by
    have hholes := mem_holes_normalize hctx (ofExcept_eq_ok.mp hrun).1
    rw [hascribed] at hholes
    exact eq_nil_iff_forall_not_mem.mpr fun i hi => not_mem_nil (hholes i hi)
  have htype := ρ.ty_of_holes_eq_nil hclosed
  cases type with
  | arrow arg ret =>
    rw [ty_arrow, Ty.arrow.injEq] at htype
    simp only [checkIfName_context]
    refine ((plain_checkIfName arg).carries (φ := fun _ => ()) fun _ _ => rfl).bind fun _ => ?_
    refine ((plain_checkIfName ret).carries (φ := fun _ => ()) fun _ _ => rfl).bind fun _ => ?_
    cases param with
    | none =>
      refine (hsolve ctx body hctx hbody).bind fun result => carries_pure ?_
      simp [inferred, solved, constraints, htype, Ty.unit]
    | some param =>
      simp only
      split
      · exact carries_throw rfl
      · refine hsolve.body hctx hbody htype.1.symm param.loc fun result => carries_pure ?_
        simp [inferred, solved, constraints, htype]
  | generic typeParam inner =>
    refine (hsolve ctx (.function param body none loc) hctx hbody).bind fun plain =>
      carries_pure ?_
    simp [inferred, solved, constraints, htype]
  | _ => exact carries_throw rfl

theorem mapM_carries {elements : List Term} (helements : ∀ term ∈ elements, term.isClosed) :
    ρ.Carries (List.map ρ.solved) (elements.mapM (solve ctx))
      (elements.mapM (solve (ρ.context ctx))) := by
  induction elements with
  | nil => exact carries_pure rfl
  | cons first rest ih =>
    rw [forall_mem_cons] at helements
    rw [mapM_cons, mapM_cons]
    refine (hsolve ctx first hctx helements.1).bind fun result => ?_
    exact (ih helements.2).bind fun results => carries_pure rfl

theorem application_carries {func arg : Term} (hfunc : func.isClosed)
    (harg : arg.isClosed) (loc : Loc) :
    ρ.Carries ρ.inferred (step solve ctx (.application func arg loc))
      (step solve (ρ.context ctx) (.application func arg loc)) := by
  refine (hsolve ctx func hctx hfunc).bind fun fn => ?_
  refine (hsolve ctx arg hctx harg).bind fun a => ?_
  refine carries_freshHole.bind fun ret => ?_
  refine instantiate_carries.bind fun fnType => ?_
  refine (carries_ofStamped (mergeInner_context [fn, a])).bind fun inner => carries_pure ?_
  simp [inferred, solved, constraints]

theorem conditional_carries {condition consequence alternative : Term}
    (hcondition : condition.isClosed) (hconsequence : consequence.isClosed)
    (halternative : alternative.isClosed) (loc : Loc) :
    ρ.Carries ρ.inferred
      (step solve ctx (.conditional condition consequence alternative loc))
      (step solve (ρ.context ctx)
        (.conditional condition consequence alternative loc)) := by
  refine (hsolve ctx condition hctx hcondition).bind fun c => ?_
  refine (hsolve ctx consequence hctx hconsequence).bind fun a => ?_
  refine (hsolve ctx alternative hctx halternative).bind fun b => ?_
  refine (carries_ofStamped (mergeInner_context [c, a, b])).bind fun inner => carries_pure ?_
  simp [inferred, solved, constraints, Ty.boolean]

theorem letIn_carries {body : Term} (hvalue : value.isClosed) (hbody : body.isClosed)
    (nameLoc loc : Loc) :
    ρ.Carries ρ.inferred (Inference.step solve ctx (.letIn name value body nameLoc loc))
      (Inference.step solve (ρ.context ctx) (.letIn name value body nameLoc loc)) := by
  simp only [Inference.step]
  split
  · have hreplaced : (body.replace name value).isClosed :=
      allFunctions_replace hvalue body hbody
    rw [checkBindable_context]
    refine (plain_checkBindable.carries (φ := fun _ => ()) fun _ _ => rfl).bind fun _ => ?_
    refine (hsolve ctx _ hctx hreplaced).bind fun result => ?_
    refine (hsolve ctx value hctx hvalue).bind fun bound => ?_
    refine (carries_ofStamped rfl).bind fun inner => carries_pure ?_
    simp [inferred, solved, constraints]
  · refine (hsolve ctx value hctx hvalue).bind fun bound => ?_
    simp only [solved, applying_constraints]
    refine instantiate_carries.bind fun single => ?_
    refine hsolve.body hctx hbody rfl nameLoc fun result => ?_
    refine (carries_ofStamped ρ.merge_context).bind fun inner => carries_pure ?_
    simp [inferred, solved, constraints]

theorem recordExtend_carries {key : String} {record : Term} (hvalue : value.isClosed)
    (hrecord : record.isClosed) (loc : Loc) :
    ρ.Carries ρ.inferred (step solve ctx (.recordExtend key value record loc))
      (step solve (ρ.context ctx) (.recordExtend key value record loc)) := by
  rw [step_recordExtend, step_recordExtend]
  refine (hsolve ctx record hctx hrecord).bind fun known => ?_
  refine Carries.bind (φ := ρ.solved) ?_ fun base => ?_
  · simp only [solved, applying_constraints, hasField_ty]
    split
    · exact hsolve ctx _ hctx hrecord
    · exact carries_pure rfl
  · refine (hsolve ctx value hctx hvalue).bind fun val => ?_
    refine carries_freshHole.bind fun a => carries_freshHole.bind fun r => ?_
    refine (carries_ofStamped (mergeInner_context [base, val])).bind fun inner => carries_pure ?_
    simp [inferred, solved, constraints]

theorem step_infers {term : Term} (hterm : term.isClosed) :
    ρ.Carries ρ.inferred (step solve ctx term)
      (step solve (ρ.context ctx) term) := by
  cases term with
  | reference name loc => exact valueType_carries.bind fun _ => carries_pure rfl
  | boolean | number | string | unit | emptyRecord => exact carries_pure rfl
  | function param body ascribed loc =>
    simp only [isClosed, allFunctions, Bool.and_eq_true] at hterm
    cases ascribed with
    | none => exact function_carries hsolve hctx hterm.2 loc
    | some ascribed =>
      exact ascribedFunction_carries hsolve hctx hterm.2 (isEmpty_iff.mp hterm.1) loc
  | application func arg loc =>
    simp only [isClosed, allFunctions, Bool.and_eq_true] at hterm
    exact application_carries hsolve hctx hterm.1 hterm.2 loc
  | conditional condition consequence alternative loc =>
    simp only [isClosed, allFunctions, Bool.and_eq_true] at hterm
    exact conditional_carries hsolve hctx hterm.1.1 hterm.1.2 hterm.2 loc
  | letIn name value body nameLoc loc =>
    simp only [isClosed, allFunctions, Bool.and_eq_true] at hterm
    exact letIn_carries hsolve hctx hterm.1 hterm.2 nameLoc loc
  | recordExtend key value record loc =>
    simp only [isClosed, allFunctions, Bool.and_eq_true] at hterm
    exact recordExtend_carries hsolve hctx hterm.1 hterm.2 loc
  | recordRestrict key record loc | fieldAccess key record loc =>
    refine (hsolve ctx record hctx hterm).bind fun base => ?_
    exact carries_freshHole.bind fun a => carries_freshHole.bind fun r => carries_pure rfl
  | array elements loc =>
    refine carries_freshHole.bind fun element => ?_
    refine (mapM_carries hsolve hctx (allFunctionsIn_iff.mp hterm)).bind fun results => ?_
    refine (carries_ofStamped (mergeInner_context results)).bind fun inner => carries_pure ?_
    simp [inferred, solved, constraints, Ty.arrayOf, flatMap_map, Function.comp_def,
      map_flatMap]

end

theorem carriesTerms_solveWith {infer : Context → Term → CheckM Inferred} (fuel : Nat)
    (hinfer : ∀ ctx term, (Ty.Convention.ofContext ctx).IsClosed → term.isClosed →
      ρ.Carries ρ.inferred (infer ctx term) (infer (ρ.context ctx) term)) :
    ρ.CarriesTerms (solveWith fuel infer) := by
  intro ctx term hctx hterm
  refine (hinfer ctx term hctx hterm).bind fun result => ?_
  refine unify_carries.bind fun principal => carries_pure ?_
  cases result with
  | mk type constraints inner =>
    cases inner <;> rfl

theorem infer_carries (fuel : Nat) :
    ∀ ctx term, (Ty.Convention.ofContext ctx).IsClosed → term.isClosed →
      ρ.Carries ρ.inferred (infer fuel ctx term) (infer fuel (ρ.context ctx) term) := by
  induction fuel with
  | zero => exact fun _ _ _ _ => carries_throw rfl
  | succ fuel ih =>
    exact fun _ _ hctx hterm => step_infers (carriesTerms_solveWith fuel ih) hctx hterm

end Inference

variable {ρ} in
theorem carriesTerms_solve (fuel : Nat) : ρ.CarriesTerms (solve fuel) :=
  carriesTerms_solveWith fuel (infer_carries fuel)

end Renumbering

end RowScript
