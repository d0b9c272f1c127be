import RowScript.Proofs.Renumbering

/-!
# What solving can fail for

Solving fails for types that do not fit, a placeholder that would have to contain itself, names that
stand for no type, or the lack of fuel or of letters.
-/

namespace RowScript

/-- Causes that comparing types can have. -/
def Fault.Cause.isOfTypes : Fault.Cause → Bool
  | .undeclared .. | .mismatch _ | .fieldMismatch _ | .circular _ | .outOfTypeVariables => true
  | _ => false

/-- A computation that fails only for causes of some kind. -/
def Raises {α : Type} (P : Fault.Cause → Prop) (x : Except Fault α) : Prop :=
  ∀ fault, x = .error fault → P fault.cause

/-- The same for a step of checking, from any checker. -/
def CheckM.Raises {α : Type} (P : Fault.Cause → Prop) (x : CheckM α) : Prop :=
  ∀ checker fault final, x checker = .error fault final → P fault.cause

section

variable {α β : Type} {P Q : Fault.Cause → Prop} {solved : List Constraint} {solver : Solver}

theorem Raises.pure (a : α) : Raises P (pure a : Except Fault α) := by
  intro fault hrun
  cases hrun

theorem Raises.throw {fault : Fault} (hfault : P fault.cause) :
    Raises P (throw fault : Except Fault α) := by
  intro found hrun
  cases hrun
  exact hfault

theorem Raises.bind {x : Except Fault α} {f : α → Except Fault β} (hx : Raises P x)
    (hf : ∀ a, Raises P (f a)) : Raises P (x >>= f) := by
  cases x with
  | error fault => exact fun found hrun => hx found (by cases hrun; rfl)
  | ok a => exact hf a

namespace CheckM.Raises

variable {x : CheckM α} {f : α → CheckM β}

theorem mono (hx : x.Raises P) (himp : ∀ cause, P cause → Q cause) : x.Raises Q :=
  fun checker fault final hrun => himp _ (hx checker fault final hrun)

theorem of_ok (hx : ∀ checker, ∃ a final, x checker = .ok a final) : x.Raises P := by
  intro checker fault final hrun
  obtain ⟨a, final', hok⟩ := hx checker
  rw [hok] at hrun
  cases hrun

theorem pure (a : α) : (pure a : CheckM α).Raises P := of_ok fun _ => ⟨_, _, rfl⟩

theorem freshHole : CheckM.freshHole.Raises P := of_ok fun _ => ⟨_, _, rfl⟩

theorem ofStamped (x : Stamped α) : (CheckM.ofStamped x).Raises P := of_ok fun _ => ⟨_, _, rfl⟩

theorem throw {fault : Fault} (hfault : P fault.cause) : (throw fault : CheckM α).Raises P := by
  intro checker found final hrun
  cases hrun
  exact hfault

theorem ofExcept {x : Except Fault α} (hx : RowScript.Raises P x) :
    (CheckM.ofExcept x).Raises P := by
  cases x with
  | ok a => exact pure a
  | error fault => exact throw (hx fault rfl)

/-- What fails is the first part, or the second one after the first succeeded. -/
theorem bind_ok (hx : x.Raises P)
    (hf : ∀ a checker final, x checker = .ok a final → ∀ fault last,
      f a final = .error fault last → P fault.cause) : (x >>= f).Raises P := by
  intro checker fault last hrun
  change EStateM.bind x f checker = _ at hrun
  unfold EStateM.bind at hrun
  cases hfirst : x checker with
  | ok a final =>
    rw [hfirst] at hrun
    exact hf a checker final hfirst fault last hrun
  | error found final =>
    rw [hfirst] at hrun
    cases hrun
    exact hx checker fault last hfirst

theorem bind (hx : x.Raises P) (hf : ∀ a, (f a).Raises P) : (x >>= f).Raises P :=
  hx.bind_ok fun a _ final _ fault last hrun => hf a final fault last hrun

theorem mapM {as : List α} (hf : ∀ a ∈ as, (f a).Raises P) : (as.mapM f).Raises P := by
  induction as with
  | nil => exact pure []
  | cons a rest ih =>
    rw [List.forall_mem_cons] at hf
    rw [List.mapM_cons]
    exact hf.1.bind fun _ => (ih hf.2).bind fun _ => pure _

end CheckM.Raises

/-- Showing a type fails only for lack of letters. -/
theorem Raises.displayed (hletters : P .outOfTypeVariables) (ty : Ty) :
    Raises P (ty.displayed solved) := by
  refine .bind (fun fault hrun => ?_) fun _ => .pure _
  rw [generalize_eq_error hrun]
  exact hletters

theorem Raises.display (hletters : P .outOfTypeVariables) (ty : Ty) :
    Raises P (solver.display ty) := by
  unfold Solver.display
  split <;> exact .displayed hletters _

end

namespace Solver

variable {ctx : Context} {loc : Option Loc} {solver : Solver} {owners : Option Constraint}
  {solved : List Constraint} {key : String} {type tail row : Ty}

theorem raises_displayed (ty : Ty) : Raises (·.isOfTypes = true) (ty.displayed solved) :=
  .displayed (P := (·.isOfTypes = true)) rfl ty

theorem raises_display (ty : Ty) : Raises (·.isOfTypes = true) (solver.display ty) :=
  .display (P := (·.isOfTypes = true)) rfl ty

theorem raises_declaredType (name : String) (nameLoc : Loc) :
    Raises (·.isOfTypes = true) (declaredType ctx loc name nameLoc) := by
  unfold declaredType
  split
  · exact .pure _
  · exact .pure _
  · exact .throw rfl

theorem raises_unfolding? (ty : Ty) : Raises (·.isOfTypes = true) (unfolding? ctx loc ty) := by
  unfold unfolding?
  split
  · exact (raises_declaredType _ _).bind fun _ => .pure _
  · exact .pure _

theorem raises_unfoldApplication (callee arg : Ty) (appLoc : Loc) :
    Raises (·.isOfTypes = true) (ctx.unfoldApplication loc callee arg appLoc) := by
  unfold Context.unfoldApplication
  split
  split
  all_goals
    refine .bind ?_ fun declared => ?_
    · first
      | exact .pure _
      | exact .throw rfl
    · cases declared with
      | generic param body => exact .pure _
      | _ => exact .throw rfl

theorem raises_expandApplication (callee arg : Ty) (appLoc : Loc) :
    Raises (·.isOfTypes = true) (ctx.expandApplication loc callee arg appLoc) := by
  induction callee generalizing arg appLoc with
  | app inner innerArg innerLoc ih => exact (ih _ _).bind fun _ => raises_unfoldApplication _ _ _
  | _ => exact raises_unfoldApplication _ _ _

theorem raises_incompatible (lhs rhs : Ty) :
    Raises (·.isOfTypes = true) (decompose.incompatible loc lhs rhs solver) :=
  (raises_display _).bind fun _ => (raises_display _).bind fun _ => .throw rfl

theorem raises_notContained {α : Type} :
    Raises (·.isOfTypes) (notContained loc solver owners row key >>= throw : Except Fault α) := by
  rw [notContained, bind_assoc]
  exact (raises_display _).bind fun _ => .throw rfl

theorem ofExcept_bind_throw {α : Type} (x : Except Fault Fault) :
    (CheckM.ofExcept x >>= throw : CheckM α) = CheckM.ofExcept (x >>= throw) := by
  cases x <;> rfl

theorem raises_assign (id : Nat) (ty : Ty) :
    Raises (·.isOfTypes = true) (solver.assign loc id ty) := by
  unfold assign
  split
  · exact .throw rfl
  · exact .pure _

/-- Causes that solving can have. -/
def IsCause (cause : Fault.Cause) : Prop := cause.isOfTypes = true ∨ cause = .outOfFuel

/-- A property of steps that failing and handing out placeholders have, and that steps get
from their parts. -/
structure Inherits (Q : ∀ ⦃α : Type⦄, CheckM α → Prop) : Prop where
  pure : ∀ {α : Type} (a : α), Q (Pure.pure a : CheckM α)
  throw : ∀ {α : Type} {fault : Fault}, IsCause fault.cause →
    Q (MonadExcept.throw fault : CheckM α)
  freshHole : Q CheckM.freshHole
  bind : ∀ {α β : Type} {x : CheckM α} {f : α → CheckM β}, Q x → (∀ a, Q (f a)) → Q (x >>= f)

namespace Inherits

variable {Q : ∀ ⦃α : Type⦄, CheckM α → Prop} (hQ : Inherits Q)

include hQ

theorem ofExcept {α : Type} {x : Except Fault α} (hx : Raises (·.isOfTypes = true) x) :
    Q (CheckM.ofExcept x) := by
  cases x with
  | ok a => exact hQ.pure a
  | error fault => exact hQ.throw (.inl (hx fault rfl))

theorem notContained {α : Type} :
    Q (CheckM.ofExcept (Solver.notContained loc solver owners row key) >>=
      MonadExcept.throw : CheckM α) := by
  rw [ofExcept_bind_throw]
  exact hQ.ofExcept raises_notContained

theorem pullField (fuel : Nat) : Q (pullField ctx loc solver key type tail owners fuel row) := by
  induction fuel generalizing row with
  | zero => exact hQ.throw (.inr rfl)
  | succ fuel ih =>
    cases row with
    | field k t base =>
      simp only [pullField]
      split
      · exact hQ.pure _
      · exact hQ.bind ih fun _ => hQ.pure _
    | hole id =>
      simp only [pullField]
      split
      · exact hQ.throw (.inl rfl)
      · exact hQ.bind hQ.freshHole fun _ => hQ.pure _
    | ident name nameLoc =>
      refine hQ.bind (hQ.ofExcept (raises_declaredType _ _)) fun declared => ?_
      cases declared with
      | record declared _ => exact ih
      | _ => exact hQ.notContained
    | emptyRow => exact hQ.notContained
    | _ => exact hQ.bind (hQ.ofExcept (raises_display _)) fun _ => hQ.throw (.inl rfl)

theorem decompose (fuel : Nat) (lhs rhs : Ty) :
    Q (decompose ctx loc fuel solver lhs rhs owners) := by
  unfold Solver.decompose
  split
  · exact hQ.ofExcept (raises_assign _ _)
  · exact hQ.ofExcept (raises_assign _ _)
  · exact hQ.pure _
  · exact hQ.bind hQ.freshHole fun _ => hQ.pure _
  · exact hQ.bind (hQ.bind hQ.freshHole fun _ => hQ.pure _) fun _ => hQ.pure _
  · exact hQ.bind (hQ.bind hQ.freshHole fun _ => hQ.pure _) fun _ => hQ.pure _
  · exact hQ.pure _
  · exact hQ.bind (hQ.ofExcept (raises_expandApplication _ _ _)) fun _ => hQ.pure _
  · exact hQ.bind (hQ.ofExcept (raises_expandApplication _ _ _)) fun _ => hQ.pure _
  · split
    · exact hQ.pure _
    · exact hQ.ofExcept (raises_incompatible _ _)
  · exact hQ.bind (hQ.pullField fuel) fun _ => hQ.pure _
  · exact hQ.ofExcept ((raises_displayed _).bind fun _ => (raises_display _).bind fun _ =>
      .throw rfl)
  · exact hQ.ofExcept ((raises_display _).bind fun _ => (raises_displayed _).bind fun _ =>
      .throw rfl)
  · exact hQ.ofExcept (raises_incompatible _ _)

theorem step (fuel : Nat) (equation : Equation) : Q (step ctx loc fuel solver equation) := by
  obtain ⟨lhs, rhs, owners⟩ := equation
  simp only [Solver.step]
  split
  · exact hQ.pure _
  · refine hQ.bind (hQ.ofExcept (raises_unfolding? _)) fun declared => ?_
    cases declared with
    | some declared => exact hQ.pure _
    | none =>
      refine hQ.bind (hQ.ofExcept (raises_unfolding? _)) fun declared => ?_
      cases declared with
      | some declared => exact hQ.pure _
      | none => exact hQ.decompose fuel lhs rhs

theorem run (fuel : Nat) (solver : Solver) : Q (run ctx loc fuel solver) := by
  induction fuel generalizing solver with
  | zero => exact hQ.throw (.inr rfl)
  | succ fuel ih =>
    simp only [Solver.run]
    split
    · exact hQ.pure _
    · exact hQ.bind (hQ.step fuel _) ih

theorem unify (fuel : Nat) (ctx : Context) (loc : Option Loc) (constraints : List Constraint) :
    Q (unify fuel ctx loc constraints) :=
  hQ.run fuel _

end Inherits

end Solver

theorem raises_unify (fuel : Nat) (ctx : Context) (loc : Option Loc)
    (constraints : List Constraint) : (unify fuel ctx loc constraints).Raises Solver.IsCause :=
  have hraises : Solver.Inherits fun _ x => x.Raises Solver.IsCause :=
    ⟨.pure, .throw, .freshHole, .bind⟩
  hraises.unify fuel ctx loc constraints

end RowScript
