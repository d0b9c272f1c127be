import RowScript.Solver
import RowScript.Proofs.Resolution
import RowScript.Proofs.Success

/-!
# The rules of solving

A successful run of the solver reduces each equation to others, or gives a placeholder its type,
until no equation is left. The rules say what may happen, not in which order.
-/

namespace RowScript.Solver

open CheckM

variable {ctx : Context} {loc : Option Loc} {key : String} {type tail row ty lhs rhs : Ty}
  {solver next : Solver} {owners : Option Constraint} {fuel : Nat}

/-- The field with a wanted key is pulled to the front of a row. The numbers are
the placeholders handed out last, before and after. -/
inductive Pulls (ctx : Context) (key : String) (type tail : Ty) :
    Nat → Ty → Nat → Constraint → Ty → Prop where
  | here {n : Nat} (t base : Ty) : Pulls ctx key type tail n (.field key t base) n (type, t) base
  | behind {n m : Nat} {k : String} {base rest : Ty} {found : Constraint} (t : Ty)
      (hkey : k ≠ key) (hpulls : Pulls ctx key type tail n base m found rest) :
      Pulls ctx key type tail n (.field k t base) m found (.field k t rest)
  | extend {n id : Nat} (htail : tail ≠ .hole id) :
      Pulls ctx key type tail n (.hole id) (n + 1)
        (.hole id, .field key type (.hole (n + 1))) (.hole (n + 1))
  | declared {n m : Nat} {name : String} {row rest : Ty} {label : Option String}
      {found : Constraint} (nameLoc : Loc) (hname : ctx.alias? name = some (.record row label))
      (hpulls : Pulls ctx key type tail n row m found rest) :
      Pulls ctx key type tail n (.ident name nameLoc) m found rest

/-- An equation is reduced to other equations. -/
inductive Reduces (ctx : Context) : Nat → Ty → Ty → Nat → List Constraint → Prop where
  | agree {n : Nat} {lhs rhs : Ty} (hagrees : lhs.agrees rhs = true) : Reduces ctx n lhs rhs n []
  | unfoldRight {n : Nat} {name : String} {declared : Ty} (lhs : Ty) (nameLoc : Loc)
      (hname : ctx.alias? name = some declared) :
      Reduces ctx n lhs (.ident name nameLoc) n [(lhs, declared)]
  | unfoldLeft {n : Nat} {name : String} {declared : Ty} (rhs : Ty) (nameLoc : Loc)
      (hname : ctx.alias? name = some declared) :
      Reduces ctx n (.ident name nameLoc) rhs n [(declared, rhs)]
  | arrow {n : Nat} (arg ret arg' ret' : Ty) :
      Reduces ctx n (.arrow arg ret) (.arrow arg' ret') n [(arg, arg'), (ret, ret')]
  | generics {n : Nat} (param param' : String) (body body' : Ty) :
      Reduces ctx n (.generic param body) (.generic param' body') (n + 1)
        [(body.replaceName param (.hole (n + 1)), body'.replaceName param' (.hole (n + 1)))]
  | genericLeft {n : Nat} (param : String) (body rhs : Ty) :
      Reduces ctx n (.generic param body) rhs (n + 1)
        [(body.replaceName param (.hole (n + 1)), rhs)]
  | genericRight {n : Nat} (param : String) (lhs body : Ty) (hlhs : ∀ id, lhs ≠ .hole id) :
      Reduces ctx n lhs (.generic param body) (n + 1)
        [(lhs, body.replaceName param (.hole (n + 1)))]
  | app {n : Nat} (callee arg callee' arg' : Ty) (appLoc appLoc' : Loc) :
      Reduces ctx n (.app callee arg appLoc) (.app callee' arg' appLoc') n
        [(callee, callee'), (arg, arg')]
  | expandLeft {n : Nat} {callee arg expanded : Ty} {appLoc : Loc} {loc : Option Loc} (rhs : Ty)
      (hexpanded : ctx.expandApplication loc callee arg appLoc = .ok expanded) :
      Reduces ctx n (.app callee arg appLoc) rhs n [(expanded, rhs)]
  | expandRight {n : Nat} {callee arg expanded : Ty} {appLoc : Loc} {loc : Option Loc} (lhs : Ty)
      (hexpanded : ctx.expandApplication loc callee arg appLoc = .ok expanded)
      (hlhs : ∀ id, lhs ≠ .hole id) :
      Reduces ctx n lhs (.app callee arg appLoc) n [(lhs, expanded)]
  | record {n : Nat} {label label' : Option String} (row row' : Ty)
      (hlabels : labelsFit label label' = true) :
      Reduces ctx n (.record row label) (.record row' label') n [(row, row')]
  | fields {n m : Nat} {key k : String} {type base t b rest : Ty} {found : Constraint}
      (hpulls : Pulls ctx key type base.rowTail n (.field k t b) m found rest) :
      Reduces ctx n (.field key type base) (.field k t b) m [found, (base, rest)]

/-- An equation gives a placeholder its type. -/
inductive Assigns : Ty → Ty → Nat → Ty → Prop where
  | right {id : Nat} {lhs : Ty} (hid : id ∉ lhs.holes) : Assigns lhs (.hole id) id lhs
  | left {id : Nat} {rhs : Ty} (hid : id ∉ rhs.holes) : Assigns (.hole id) rhs id rhs

/-- The equations of a stack, less what is only shown in messages. -/
def equations (pending : List Equation) : List Constraint :=
  pending.map fun equation => (equation.lhs, equation.rhs)

/-- Replaces a placeholder on both sides of a constraint. -/
def replaceBoth (id : Nat) (ty : Ty) (c : Constraint) : Constraint :=
  (c.1.replaceHole id ty, c.2.replaceHole id ty)

/-- Equations are solved one after the other. The numbers are the placeholders
handed out last, and the lists after the equations are the placeholders solved,
before and after. -/
inductive Solves (ctx : Context) :
    Nat → List Constraint → List Constraint → Nat → List Constraint → Prop where
  | done {n : Nat} (solved : List Constraint) : Solves ctx n [] solved n solved
  | reduce {n m k : Nat} {lhs rhs : Ty} {new rest solved answer : List Constraint}
      (hreduces : Reduces ctx n lhs rhs m new)
      (hsolves : Solves ctx m (new ++ rest) solved k answer) :
      Solves ctx n ((lhs, rhs) :: rest) solved k answer
  | assign {n k id : Nat} {lhs rhs ty : Ty} {rest solved answer : List Constraint}
      (hassigns : Assigns lhs rhs id ty)
      (hsolves : Solves ctx n (rest.map (replaceBoth id ty)) ((.hole id, ty) :: solved) k answer) :
      Solves ctx n ((lhs, rhs) :: rest) solved k answer

theorem Pulls.counter_le {rest : Ty} {n m : Nat} {found : Constraint}
    (hpulls : Pulls ctx key type tail n row m found rest) : n ≤ m := by
  induction hpulls with
  | here => exact Nat.le_refl _
  | behind _ _ _ ih => exact ih
  | extend => exact Nat.le_succ _
  | declared _ _ _ ih => exact ih

theorem Reduces.counter_le {n m : Nat} {new : List Constraint}
    (hreduces : Reduces ctx n lhs rhs m new) : n ≤ m := by
  cases hreduces with
  | generics | genericLeft | genericRight => exact Nat.le_succ _
  | fields hpulls => exact hpulls.counter_le
  | _ => exact Nat.le_refl _

theorem Solves.counter_le {n m : Nat} {pending solved answer : List Constraint}
    (hsolves : Solves ctx n pending solved m answer) : n ≤ m := by
  induction hsolves with
  | done => exact Nat.le_refl _
  | reduce hreduces _ ih => exact Nat.le_trans hreduces.counter_le ih
  | assign _ _ ih => exact ih

variable {checker final : Checker}

theorem equations_replaceHole (pending : List Equation) (id : Nat) (ty : Ty) :
    equations (pending.map (·.replaceHole id ty)) =
      (equations pending).map (replaceBoth id ty) := by
  simp only [equations, List.map_map]
  rfl

theorem alias?_of_unfolding? {declared : Ty}
    (hunfold : unfolding? ctx loc ty = .ok (some declared)) :
    ∃ name nameLoc, ty = .ident name nameLoc ∧ ctx.alias? name = some declared := by
  cases ty with
  | ident name nameLoc =>
    refine ⟨name, nameLoc, rfl, ?_⟩
    simp only [unfolding?, Except.bind_eq_ok] at hunfold
    obtain ⟨found, hfound, hsome⟩ := hunfold
    by_cases hself : found = .ident name nameLoc
    · simp [hself, pure, Except.pure] at hsome
    · rw [if_neg hself] at hsome
      obtain rfl : found = declared := by simpa [pure, Except.pure] using hsome
      unfold declaredType at hfound
      split at hfound
      · rename_i type _ _ hfind
        cases hfound
        simp [Context.alias?, hfind]
      · cases hfound
        exact absurd rfl hself
      · cases hfound
  | _ => simp [unfolding?, pure, Except.pure] at hunfold

theorem alias?_of_declaredType {name : String} {nameLoc : Loc} {label : Option String}
    (hdeclared : declaredType ctx loc name nameLoc = .ok (.record row label)) :
    ctx.alias? name = some (.record row label) := by
  unfold declaredType at hdeclared
  split at hdeclared
  · rename_i type _ _ hfind
    cases hdeclared
    simp [Context.alias?, hfind]
  · cases hdeclared
  · cases hdeclared

theorem pullField_pulls :
    ∀ {fuel : Nat} {row : Ty} {checker final : Checker} {found : Constraint} {rest : Ty},
      pullField ctx loc solver key type tail owners fuel row checker = .ok (found, rest) final →
      Pulls ctx key type tail checker.counter row final.counter found rest ∧
        final = { checker with counter := final.counter } := by
  intro fuel
  induction fuel with
  | zero =>
    intro row checker final found rest hrun
    simp [pullField] at hrun
  | succ fuel ih =>
    intro row checker final found rest hrun
    unfold pullField at hrun
    split at hrun
    · rename_i k t base
      split at hrun
      · rename_i hkey
        subst hkey
        simp only [pure_eq_ok, Prod.mk.injEq] at hrun
        obtain ⟨⟨rfl, rfl⟩, rfl⟩ := hrun
        exact ⟨.here t base, rfl⟩
      · rename_i hkey
        simp only [bind_eq_ok, pure_eq_ok, Prod.mk.injEq] at hrun
        obtain ⟨⟨found', rest'⟩, middle, hbase, ⟨rfl, rfl⟩, rfl⟩ := hrun
        obtain ⟨hpulls, hfinal⟩ := ih hbase
        exact ⟨.behind t hkey hpulls, hfinal⟩
    · split at hrun
      · simp at hrun
      · rename_i htail
        obtain ⟨fresh, middle, ⟨rfl, rfl⟩, ⟨rfl, rfl⟩, rfl⟩ := hrun
        exact ⟨.extend htail, rfl⟩
    · rename_i name nameLoc
      simp only [bind_eq_ok, ofExcept_eq_ok] at hrun
      obtain ⟨declared, middle, ⟨hdeclared, rfl⟩, hrun⟩ := hrun
      split at hrun
      · obtain ⟨hpulls, hfinal⟩ := ih hrun
        exact ⟨.declared nameLoc (alias?_of_declaredType hdeclared) hpulls, hfinal⟩
      · simp at hrun
    · simp at hrun
    · simp at hrun

/-- One rule was applied to the next equation of a solver. -/
def Progress (ctx : Context) (solver : Solver) (n : Nat) (lhs rhs : Ty) (m : Nat)
    (next : Solver) : Prop :=
  (∃ new, Reduces ctx n lhs rhs m new ∧
    equations next.pending = new ++ equations solver.pending ∧ next.solved = solver.solved) ∨
  (∃ id ty, Assigns lhs rhs id ty ∧ m = n ∧
    equations next.pending = (equations solver.pending).map (replaceBoth id ty) ∧
    next.solved = (.hole id, ty) :: solver.solved)

theorem assign_eq_ok {id : Nat} (hrun : solver.assign loc id ty = .ok next) :
    id ∉ ty.holes ∧ equations next.pending = (equations solver.pending).map (replaceBoth id ty) ∧
      next.solved = (.hole id, ty) :: solver.solved := by
  unfold assign at hrun
  split at hrun
  · cases hrun
  · cases hrun
    refine ⟨?_, equations_replaceHole .., rfl⟩
    rwa [← Ty.mem_holes_of_occurs]

theorem incompatible_ne_ok : decompose.incompatible loc lhs rhs solver ≠ .ok next := by
  intro hrun
  simp only [decompose.incompatible, Except.bind_eq_ok] at hrun
  obtain ⟨_, _, _, _, hthrow⟩ := hrun
  cases hthrow

/-- Taking an equation apart applies one rule. -/
theorem decompose_progress
    (hrun : decompose ctx loc fuel solver lhs rhs owners checker = .ok next final) :
    Progress ctx solver checker.counter lhs rhs final.counter next ∧
      final = { checker with counter := final.counter } := by
  unfold decompose at hrun
  split at hrun
  · rename_i id
    simp only [ofExcept_eq_ok] at hrun
    obtain ⟨hassign, rfl⟩ := hrun
    obtain ⟨hid, hpending, hsolved⟩ := assign_eq_ok hassign
    exact ⟨.inr ⟨id, lhs, .right hid, rfl, hpending, hsolved⟩, rfl⟩
  · rename_i id _
    simp only [ofExcept_eq_ok] at hrun
    obtain ⟨hassign, rfl⟩ := hrun
    obtain ⟨hid, hpending, hsolved⟩ := assign_eq_ok hassign
    exact ⟨.inr ⟨id, rhs, .left hid, rfl, hpending, hsolved⟩, rfl⟩
  · obtain ⟨rfl, rfl⟩ := hrun
    exact ⟨.inl ⟨_, .arrow .., rfl, rfl⟩, rfl⟩
  · obtain ⟨shared, middle, ⟨rfl, rfl⟩, rfl, rfl⟩ := hrun
    exact ⟨.inl ⟨_, .generics .., rfl, rfl⟩, rfl⟩
  · obtain ⟨_, _, ⟨fresh, middle, ⟨rfl, rfl⟩, rfl, rfl⟩, rfl, rfl⟩ := hrun
    exact ⟨.inl ⟨_, .genericLeft .., rfl, rfl⟩, rfl⟩
  · obtain ⟨_, _, ⟨fresh, middle, ⟨rfl, rfl⟩, rfl, rfl⟩, rfl, rfl⟩ := hrun
    exact ⟨.inl ⟨_, .genericRight _ _ _ ‹_›, rfl, rfl⟩, rfl⟩
  · obtain ⟨rfl, rfl⟩ := hrun
    exact ⟨.inl ⟨_, .app .., rfl, rfl⟩, rfl⟩
  · simp only [bind_eq_ok, ofExcept_eq_ok, pure_eq_ok] at hrun
    obtain ⟨expanded, middle, ⟨hexpanded, rfl⟩, rfl, rfl⟩ := hrun
    exact ⟨.inl ⟨_, .expandLeft _ hexpanded, rfl, rfl⟩, rfl⟩
  · simp only [bind_eq_ok, ofExcept_eq_ok, pure_eq_ok] at hrun
    obtain ⟨expanded, middle, ⟨hexpanded, rfl⟩, rfl, rfl⟩ := hrun
    exact ⟨.inl ⟨_, .expandRight _ hexpanded ‹_›, rfl, rfl⟩, rfl⟩
  · split at hrun
    · rename_i hlabels
      obtain ⟨rfl, rfl⟩ := hrun
      exact ⟨.inl ⟨_, .record _ _ hlabels, rfl, rfl⟩, rfl⟩
    · rw [ofExcept_eq_ok] at hrun
      exact absurd hrun.1 incompatible_ne_ok
  · simp only [bind_eq_ok, pure_eq_ok] at hrun
    obtain ⟨⟨found, rest⟩, middle, hpull, rfl, rfl⟩ := hrun
    obtain ⟨hpulls, hfinal⟩ := pullField_pulls hpull
    exact ⟨.inl ⟨_, .fields hpulls, rfl, rfl⟩, hfinal⟩
  · simp only [ofExcept_eq_ok, Except.bind_eq_ok] at hrun
    obtain ⟨⟨_, _, _, _, hthrow⟩, _⟩ := hrun
    cases hthrow
  · simp only [ofExcept_eq_ok, Except.bind_eq_ok] at hrun
    obtain ⟨⟨_, _, _, _, hthrow⟩, _⟩ := hrun
    cases hthrow
  · rw [ofExcept_eq_ok] at hrun
    exact absurd hrun.1 incompatible_ne_ok

theorem step_progress {equation : Equation}
    (hrun : step ctx loc fuel solver equation checker = .ok next final) :
    Progress ctx solver checker.counter equation.lhs equation.rhs final.counter next ∧
      final = { checker with counter := final.counter } := by
  obtain ⟨lhs, rhs, owners⟩ := equation
  simp only [step] at hrun
  split at hrun
  · rename_i hagrees
    obtain ⟨rfl, rfl⟩ := hrun
    exact ⟨.inl ⟨[], .agree hagrees, rfl, rfl⟩, rfl⟩
  · simp only [bind_eq_ok, ofExcept_eq_ok] at hrun
    obtain ⟨unfolded, middle, ⟨hunfold, rfl⟩, hrun⟩ := hrun
    split at hrun
    · obtain ⟨rfl, rfl⟩ := hrun
      obtain ⟨name, nameLoc, rfl, hname⟩ := alias?_of_unfolding? hunfold
      exact ⟨.inl ⟨_, .unfoldRight lhs nameLoc hname, rfl, rfl⟩, rfl⟩
    · simp only [bind_eq_ok, ofExcept_eq_ok] at hrun
      obtain ⟨unfolded, middle, ⟨hunfold, rfl⟩, hrun⟩ := hrun
      split at hrun
      · obtain ⟨rfl, rfl⟩ := hrun
        obtain ⟨name, nameLoc, rfl, hname⟩ := alias?_of_unfolding? hunfold
        exact ⟨.inl ⟨_, .unfoldLeft rhs nameLoc hname, rfl, rfl⟩, rfl⟩
      · exact decompose_progress hrun

/-- A successful run is a derivation by the rules, and it changes nothing of the
checker but the placeholder handed out last. -/
theorem run_solves {answer : List Constraint}
    (hrun : run ctx loc fuel solver checker = .ok answer final) :
    Solves ctx checker.counter (equations solver.pending) solver.solved final.counter answer ∧
      final = { checker with counter := final.counter } := by
  induction fuel generalizing solver checker with
  | zero => simp [run] at hrun
  | succ fuel ih =>
    obtain ⟨pending, solved⟩ := solver
    unfold run at hrun
    cases pending with
    | nil =>
      obtain ⟨rfl, rfl⟩ := hrun
      exact ⟨.done solved, rfl⟩
    | cons equation rest =>
      simp only [bind_eq_ok] at hrun
      obtain ⟨next, middle, hstep, hrest⟩ := hrun
      obtain ⟨hprogress, hmiddle⟩ := step_progress hstep
      obtain ⟨hsolves, hfinal⟩ := ih hrest
      rw [hmiddle] at hfinal
      refine ⟨?_, hfinal⟩
      rcases hprogress with ⟨new, hreduces, hpending, hsolved⟩ |
        ⟨id, ty, hassigns, hcounter, hpending, hsolved⟩
      · rw [hpending, hsolved] at hsolves
        exact .reduce hreduces hsolves
      · rw [hpending, hsolved, hcounter] at hsolves
        exact .assign hassigns hsolves

end RowScript.Solver

namespace RowScript

/-- Solving constraints follows the rules, starting with nothing solved. -/
theorem unify_solves {fuel : Nat} {ctx : Context} {loc : Option Loc}
    {constraints answer : List Constraint} {checker final : Checker}
    (hrun : unify fuel ctx loc constraints checker = .ok answer final) :
    Solver.Solves ctx checker.counter constraints [] final.counter answer ∧
      final = { checker with counter := final.counter } := by
  have hsolves := Solver.run_solves hrun
  simpa [Solver.equations, Function.comp_def] using hsolves

end RowScript
