import RowScript.Checker.Basic

/-!
# When a step of checking succeeds

A sequence of steps succeeds exactly when its parts do, and each primitive step says what it returns
and which fields of the checker it changes.
-/

namespace RowScript

/-- A sequence of computations that can only fail succeeds when both parts do. -/
theorem Except.bind_eq_ok {α β : Type} {x : Except Fault α} {f : α → Except Fault β} {b : β} :
    (x >>= f) = .ok b ↔ ∃ a, x = .ok a ∧ f a = .ok b := by
  cases x with
  | error fault | ok a => simp [bind, Except.bind]

namespace CheckM

variable {α β : Type} {checker final : Checker} {x : CheckM α} {a : α}

/-- A sequence of steps succeeds when the first one does and the second one
succeeds from the checker that the first one leaves. -/
@[simp]
theorem bind_eq_ok {f : α → CheckM β} {b : β} :
    (x >>= f) checker = .ok b final ↔
      ∃ a middle, x checker = .ok a middle ∧ f a middle = .ok b final := by
  show EStateM.bind x f checker = .ok b final ↔ _
  unfold EStateM.bind
  cases x checker with
  | error fault middle => simp
  | ok a middle => simp [and_assoc]

@[simp]
theorem pure_eq_ok {b : α} :
    (pure a : CheckM α) checker = .ok b final ↔ a = b ∧ checker = final := by
  show EStateM.pure a checker = .ok b final ↔ _
  simp [EStateM.pure]

@[simp]
theorem throw_ne_ok {fault : Fault} : (throw fault : CheckM α) checker ≠ .ok a final := by
  intro hrun
  cases hrun

/-- A new placeholder is the successor of the one handed out last. -/
@[simp]
theorem freshHole_eq_ok {id : Nat} :
    freshHole checker = .ok id final ↔
      checker.counter + 1 = id ∧ { checker with counter := checker.counter + 1 } = final := by
  show EStateM.Result.ok (checker.counter + 1) { checker with counter := checker.counter + 1 } =
    .ok id final ↔ _
  simp

@[simp]
theorem ofExcept_eq_ok {x : Except Fault α} :
    ofExcept x checker = .ok a final ↔ x = .ok a ∧ checker = final := by
  cases x with
  | error fault => simp [ofExcept]
  | ok b =>
    simp [ofExcept]

@[simp]
theorem ofStamped_eq_ok {x : Stamped α} :
    ofStamped x checker = .ok a final ↔
      (x checker.stamp).1 = a ∧ { checker with stamp := (x checker.stamp).2 } = final := by
  show EStateM.Result.ok (x checker.stamp).1 { checker with stamp := (x checker.stamp).2 } =
    .ok a final ↔ _
  simp

@[simp]
theorem get_eq_ok {found : Checker} :
    (get : CheckM Checker) checker = .ok found final ↔ checker = found ∧ checker = final := by
  show EStateM.Result.ok checker checker = .ok found final ↔ _
  simp

@[simp]
theorem modify_eq_ok {f : Checker → Checker} {value : PUnit} :
    (modify f : CheckM PUnit) checker = .ok value final ↔ f checker = final := by
  show EStateM.Result.ok PUnit.unit (f checker) = .ok value final ↔ _
  simp

/-- Binding a name succeeds when it may be bound. It draws one stamp. -/
theorem bindName_eq_ok {ctx extended : Context} {name : String} {binding : Binding}
    {loc : Option Loc} :
    bindName ctx name binding loc checker = .ok extended final ↔
      ctx.checkBindable name loc = .ok () ∧
        ⟨checker.stamp, name, binding⟩ :: ctx = extended ∧
        { checker with stamp := checker.stamp + 1 } = final := by
  simp only [bindName, bind_eq_ok, ofExcept_eq_ok, ofStamped_eq_ok, Context.extend]
  constructor
  · rintro ⟨_, _, ⟨hbindable, rfl⟩, hextended, hfinal⟩
    exact ⟨hbindable, hextended, hfinal⟩
  · rintro ⟨hbindable, hextended, hfinal⟩
    exact ⟨(), checker, ⟨hbindable, rfl⟩, hextended, hfinal⟩

/-- Whether a run succeeds with a result and a checker that pass a test. -/
def yields (x : CheckM α) (checker : Checker) (test : α → Checker → Bool) : Bool :=
  match x checker with
  | .ok a final => test a final
  | .error .. => false

theorem exists_of_yields {test : α → Checker → Bool} (hyields : x.yields checker test) :
    ∃ a final, x checker = .ok a final ∧ test a final := by
  unfold yields at hyields
  split at hyields
  · rename_i a final hrun
    exact ⟨a, final, hrun, hyields⟩
  · cases hyields

/-- Whether a run fails with a fault that passes a test. -/
def fails (x : CheckM α) (checker : Checker) (test : Fault → Bool) : Bool :=
  match x checker with
  | .ok .. => false
  | .error fault _ => test fault

theorem exists_of_fails {test : Fault → Bool} (hfails : x.fails checker test) :
    ∃ fault final, x checker = .error fault final ∧ test fault := by
  unfold fails at hfails
  split at hfails
  · cases hfails
  · rename_i fault final hrun
    exact ⟨fault, final, hrun, hfails⟩

end CheckM

namespace Context

variable {ctx : Context} {name : String} {loc : Option Loc}

theorem checkBindable_iff :
    ctx.checkBindable name loc = .ok () ↔
      (!reservedWords.contains name && !ctx.binds name) := by
  unfold checkBindable
  split
  · simp_all [throw, throwThe, MonadExceptOf.throw]
  · split <;> simp_all [pure, Except.pure, throw, throwThe, MonadExceptOf.throw]

theorem find?_eq_none_of_checkBindable (hbindable : ctx.checkBindable name loc = .ok ()) :
    ctx.find? name = none := by
  have hunbound := (Bool.and_eq_true_iff.mp (checkBindable_iff.mp hbindable)).2
  simpa [binds] using hunbound

end Context

end RowScript
