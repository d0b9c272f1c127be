import RowScript.Proofs.KeptContexts
import RowScript.Proofs.SolverFaults

/-!
# What checking a command leaves alone

Checking a command, also one that turns out to be at fault, writes only at ranges of that command:
those of its terms, including the ones that inlining copies, and its own.
-/

namespace RowScript

open Term CheckM List

mutual

/-- The ranges of a term, of its parts and of the names it introduces. -/
def Term.ranges : Term → List Loc
  | .reference _ loc | .boolean loc | .number loc | .string loc | .unit loc
  | .emptyRecord loc => [loc]
  | .function param body _ loc => loc :: ((param.map (·.loc)).toList ++ body.ranges)
  | .application func arg loc => loc :: (func.ranges ++ arg.ranges)
  | .letIn _ value body nameLoc loc => loc :: nameLoc :: (value.ranges ++ body.ranges)
  | .conditional condition consequence alternative loc =>
    loc :: (condition.ranges ++ consequence.ranges ++ alternative.ranges)
  | .recordExtend _ value record loc => loc :: (value.ranges ++ record.ranges)
  | .recordRestrict _ record loc | .fieldAccess _ record loc => loc :: record.ranges
  | .array elements loc => loc :: rangesOfAll elements

def Term.rangesOfAll : List Term → List Loc
  | [] => []
  | term :: rest => term.ranges ++ rangesOfAll rest

end

/-- The ranges of a binding: those of its name and of its term. -/
def Binding.ranges : Binding → List Loc
  | .defined term _ nameLoc _ _ => nameLoc :: term.ranges
  | .typed _ nameLoc _ | .typeAlias _ nameLoc _ => [nameLoc]
  | .typeParameter => []

/-- The ranges of a command, of its name and of its terms. -/
def Command.ranges : Command → List Loc
  | .evaluate term loc => loc :: term.ranges
  | .bind _ binding loc => loc :: binding.ranges

namespace Term

variable {name : String} {replacement : Term} {P : Loc → Prop}

theorem loc_mem_ranges (term : Term) : term.loc ∈ term.ranges := by
  cases term <;> simp [loc, ranges]

theorem forall_rangesOfAll {terms : List Term} :
    (∀ loc ∈ rangesOfAll terms, P loc) ↔ ∀ term ∈ terms, ∀ loc ∈ term.ranges, P loc := by
  induction terms with
  | nil => simp [rangesOfAll]
  | cons term rest ih => simp [rangesOfAll, or_imp, forall_and, ih]

theorem hereditary_ranges : Hereditary (∀ loc ∈ ·.ranges, P loc) := fun term => by
  cases term <;> simp [ranges, bare, children, rangesOfAll, forall_rangesOfAll, or_imp, forall_and,
    and_assoc] <;> grind

/-- Inlining brings in no other ranges than those of the value. -/
theorem forall_ranges_replace (hreplacement : ∀ loc ∈ replacement.ranges, P loc) (term : Term)
    (hterm : ∀ loc ∈ term.ranges, P loc) : ∀ loc ∈ (term.replace name replacement).ranges, P loc :=
  hereditary_ranges.replaced (replaced_replace name replacement term) hreplacement hterm

end Term

/-- What is remembered at other ranges than the given ones stays as it is. The ranges of
callees and those of commands are given apart. -/
structure Checker.Spared (P Q : Loc → Prop) (checker final : Checker) : Prop where
  instantiations : ∀ loc, ¬ P loc →
    final.instantiations.lookup loc = checker.instantiations.lookup loc
  evaluated : ∀ loc, ¬ Q loc → final.evaluated.lookup loc = checker.evaluated.lookup loc

theorem Checker.Spared.refl (P Q : Loc → Prop) (checker : Checker) : checker.Spared P Q checker :=
  ⟨fun _ _ => rfl, fun _ _ => rfl⟩

theorem Checker.Spared.trans {P Q : Loc → Prop} {checker middle final : Checker}
    (hfirst : checker.Spared P Q middle) (hsecond : middle.Spared P Q final) :
    checker.Spared P Q final :=
  ⟨fun loc hloc => (hsecond.instantiations loc hloc).trans (hfirst.instantiations loc hloc),
    fun loc hloc => (hsecond.evaluated loc hloc).trans (hfirst.evaluated loc hloc)⟩

/-- The uses of generic types in the command being checked are all at given ranges. -/
def Checker.UsesAt (P : Loc → Prop) (checker : Checker) : Prop :=
  ∀ use ∈ checker.instances, P use.loc

namespace CheckM

variable {α β : Type} {P Q : Loc → Prop} {checker final : Checker}

/-- The checker that a computation leaves, whether it succeeds or fails. -/
def after (x : CheckM α) (checker : Checker) : Checker :=
  match x checker with
  | .ok _ final => final
  | .error _ final => final

theorem after_of_ok {x : CheckM α} {a : α} (hrun : x checker = .ok a final) :
    x.after checker = final := by
  rw [after, hrun]

theorem after_of_error {x : CheckM α} {fault : Fault} (hrun : x checker = .error fault final) :
    x.after checker = final := by
  rw [after, hrun]

/-- A computation that writes at given ranges only, as long as the uses of generic types
before it are at such ranges. It may fail. -/
def Spares (P Q : Loc → Prop) (x : CheckM α) : Prop :=
  ∀ checker, checker.UsesAt P →
    (x.after checker).UsesAt P ∧ checker.Spared P Q (x.after checker)

namespace Spares

variable {x : CheckM α} {f : α → CheckM β}

theorem pure (a : α) : Spares P Q (pure a : CheckM α) :=
  fun checker huses => ⟨huses, .refl P Q checker⟩

theorem throw (fault : Fault) : Spares P Q (throw fault : CheckM α) :=
  fun checker huses => ⟨huses, .refl P Q checker⟩

theorem ofExcept (x : Except Fault α) : Spares P Q (ofExcept x) := by
  cases x with
  | error fault => exact .throw fault
  | ok a => exact .pure a

theorem bind (hx : Spares P Q x) (hf : ∀ a, Spares P Q (f a)) : Spares P Q (x >>= f) := by
  intro checker huses
  have hfirst := hx checker huses
  cases hrun : x checker with
  | error fault final =>
    have hbind : (x >>= f) checker = .error fault final := by
      show EStateM.bind x f checker = _
      rw [EStateM.bind, hrun]
    rw [after_of_error hrun] at hfirst
    rwa [after_of_error hbind]
  | ok a middle =>
    have hbind : (x >>= f).after checker = (f a).after middle := by
      show after (EStateM.bind x f) checker = _
      rw [after, EStateM.bind, hrun]
      rfl
    rw [after_of_ok hrun] at hfirst
    obtain ⟨huses', hspared⟩ := hf a middle hfirst.1
    rw [hbind]
    exact ⟨huses', hfirst.2.trans hspared⟩

theorem freshHole : Spares P Q freshHole :=
  fun _ huses => ⟨huses, fun _ _ => rfl, fun _ _ => rfl⟩

theorem ofStamped (x : Stamped α) : Spares P Q (ofStamped x) :=
  fun _ huses => ⟨huses, fun _ _ => rfl, fun _ _ => rfl⟩

theorem bindName (ctx : Context) (name : String) (binding : Binding) (loc : Option Loc) :
    Spares P Q (bindName ctx name binding loc) :=
  .bind (.ofExcept _) fun _ => .ofStamped _

theorem generalize (solved : List Constraint) (ty : Ty) (ctx : Context) (loc : Option Loc) :
    Spares P Q (generalize solved ty ctx loc) := by
  refine .bind (fun checker huses => ⟨huses, .refl P Q checker⟩) fun checker => ?_
  refine .bind (.ofExcept _) fun result => ?_
  exact .bind (fun _ huses => ⟨huses, fun _ _ => rfl, fun _ _ => rfl⟩) fun _ => .pure _

theorem mapM {items : List α} (hf : ∀ item ∈ items, Spares P Q (f item)) :
    Spares P Q (items.mapM f) := by
  induction items with
  | nil => exact .pure []
  | cons item rest ih =>
    rw [mapM_cons]
    refine .bind (hf item mem_cons_self) fun _ => ?_
    exact .bind (ih fun item hitem => hf item (mem_cons_of_mem _ hitem)) fun _ => .pure _

theorem instantiateFirst (n : Nat) (ty : Ty) : Spares P Q (ty.instantiateFirst n) := by
  induction n generalizing ty with
  | zero => exact .pure _
  | succ n ih =>
    cases ty with
    | generic param body => exact .bind .freshHole fun _ => (ih _).bind fun _ => .pure _
    | _ => exact .pure _

theorem instantiate {loc : Loc} (hloc : P loc) (ty : Ty) :
    Spares P Q (ty.instantiate (some loc)) := by
  refine .bind (.instantiateFirst _ _) fun result => ?_
  cases hholes : result.1.isEmpty with
  | true =>
    simp only [hholes]
    exact .pure _
  | false =>
    simp only [hholes]
    refine .bind (fun checker huses => ⟨fun use huse => ?_, fun _ _ => rfl, fun _ _ => rfl⟩)
      fun _ => .pure _
    obtain huse | huse := mem_append.mp huse
    · exact huses use huse
    · rw [mem_singleton.mp huse]
      exact hloc

theorem instantiate_none (ty : Ty) : Spares P Q (ty.instantiate none) :=
  .bind (.instantiateFirst _ _) fun _ => .pure _

theorem lookup_evaluated {a : α} (hx : Spares (fun _ => True) (fun _ => False) x)
    (hrun : x checker = .ok a final) (loc : Loc) :
    final.evaluated.lookup loc = checker.evaluated.lookup loc := by
  rw [← after_of_ok hrun]
  exact (hx checker fun _ _ => trivial).2.evaluated loc id

end Spares

end CheckM

open CheckM (Spares)

variable {P Q : Loc → Prop}

namespace Inference

variable {ctx : Context} {loc : Loc}

/-- What is found for a term is noted at the ranges of the term. -/
def SparesOthers {α : Type} (P Q : Loc → Prop) (find : Context → Term → CheckM α) : Prop :=
  ∀ ctx term, (∀ loc ∈ term.ranges, P loc) → Spares P Q (find ctx term)

theorem sparesOthers_solveWith (fuel : Nat) {infer : Context → Term → CheckM Inferred}
    (hinfer : SparesOthers P Q infer) : SparesOthers P Q (solveWith fuel infer) :=
  have hunify : Solver.Inherits fun _ x => Spares P Q x :=
    ⟨.pure, fun _ => .throw _, .freshHole, .bind⟩
  fun ctx term hterm => (hinfer ctx term hterm).bind fun _ =>
    .bind (hunify.unify fuel ctx _ _) fun _ => .pure _

section

variable {solve : Context → Term → CheckM Solved} (hsolve : SparesOthers P Q solve)
  {body value : Term}

include hsolve

theorem spares_function (param : Option Param) (hbody : ∀ loc ∈ body.ranges, P loc) :
    Spares P Q (function solve ctx param body loc) := by
  cases param with
  | none => exact (hsolve ctx body hbody).bind fun _ => .pure _
  | some param =>
    refine .bind .freshHole fun id => .bind (.bindName _ _ _ _) fun inner => ?_
    refine (hsolve inner body hbody).bind fun found => ?_
    cases solutionFor id found.principal with
    | some arg => exact .bind (.ofStamped _) fun _ => .pure _
    | none => exact .bind (.ofExcept _) fun _ => .bind (.ofStamped _) fun _ => .pure _

theorem spares_ascribedFunction {param : Option Param} (ascribed : Ty)
    (hfunction : ∀ l ∈ (Term.function param body none loc).ranges, P l) :
    Spares P Q (ascribedFunction solve ctx param body ascribed loc) := by
  have hbody : ∀ l ∈ body.ranges, P l := fun l hl => hfunction l (by simp [Term.ranges, hl])
  refine .bind (.ofExcept _) fun type => ?_
  cases type with
  | arrow arg ret =>
    refine .bind (.ofExcept _) fun _ => .bind (.ofExcept _) fun _ => ?_
    cases param with
    | none => exact (hsolve ctx body hbody).bind fun _ => .pure _
    | some param =>
      by_cases hunit : arg.agrees .unit
      · simp only [if_pos hunit]
        exact .throw _
      · simp only [if_neg hunit]
        exact .bind (.bindName _ _ _ _) fun inner =>
          (hsolve inner body hbody).bind fun _ => .pure _
  | generic name bound => exact (hsolve ctx _ hfunction).bind fun _ => .pure _
  | _ => exact .throw _

theorem spares_letIn {name : String} {nameLoc : Loc} (hvalue : ∀ l ∈ value.ranges, P l)
    (hbody : ∀ l ∈ body.ranges, P l) :
    Spares P Q (step solve ctx (.letIn name value body nameLoc loc)) := by
  rw [step]
  split
  · refine .bind (.ofExcept _) fun _ => ?_
    refine (hsolve ctx _ (forall_ranges_replace hvalue body hbody)).bind fun _ => ?_
    exact (hsolve ctx value hvalue).bind fun _ => .bind (.ofStamped _) fun _ => .pure _
  · refine (hsolve ctx value hvalue).bind fun _ => .bind (.instantiate_none _) fun _ => ?_
    refine .bind (.bindName _ _ _ _) fun inner => (hsolve inner body hbody).bind fun _ => ?_
    exact .bind (.ofStamped _) fun _ => .pure _

theorem spares_recordExtend {key : String} {record : Term} (hloc : P loc)
    (hvalue : ∀ l ∈ value.ranges, P l) (hrecord : ∀ l ∈ record.ranges, P l) :
    Spares P Q (step solve ctx (.recordExtend key value record loc)) := by
  have hrestrict : ∀ l ∈ (Term.recordRestrict key record loc).ranges, P l := by
    simpa [Term.ranges] using ⟨hloc, hrecord⟩
  rw [step_recordExtend]
  refine (hsolve ctx record hrecord).bind fun known => .bind ?_ fun base => ?_
  · split
    · exact hsolve ctx _ hrestrict
    · exact .pure known
  · exact (hsolve ctx value hvalue).bind fun _ => .bind .freshHole fun _ =>
      .bind .freshHole fun _ => .bind (.ofStamped _) fun _ => .pure _

theorem sparesOthers_step : SparesOthers P Q (step solve) := by
  intro ctx term hterm
  cases term with
  | reference name loc => exact .bind (.ofExcept _) fun _ => .pure _
  | boolean loc => exact .pure _
  | number loc => exact .pure _
  | string loc => exact .pure _
  | unit loc => exact .pure _
  | emptyRecord loc => exact .pure _
  | function param body ascribed loc =>
    cases ascribed with
    | none =>
      simp only [Term.ranges, forall_mem_cons, forall_mem_append] at hterm
      exact spares_function hsolve param hterm.2.2
    | some ascribed => exact spares_ascribedFunction hsolve ascribed hterm
  | application func arg loc =>
    simp only [Term.ranges, forall_mem_cons, forall_mem_append] at hterm
    refine (hsolve ctx func hterm.2.1).bind fun fn => (hsolve ctx arg hterm.2.2).bind fun a => ?_
    refine .bind .freshHole fun _ => ?_
    refine .bind (.instantiate (hterm.2.1 _ func.loc_mem_ranges) _) fun _ => ?_
    exact .bind (.ofStamped _) fun _ => .pure _
  | letIn name value body nameLoc loc =>
    simp only [Term.ranges, forall_mem_cons, forall_mem_append] at hterm
    exact spares_letIn hsolve hterm.2.2.1 hterm.2.2.2
  | conditional condition consequence alternative loc =>
    simp only [Term.ranges, forall_mem_cons, forall_mem_append] at hterm
    refine (hsolve ctx condition hterm.2.1.1).bind fun _ => ?_
    refine (hsolve ctx consequence hterm.2.1.2).bind fun _ => ?_
    refine (hsolve ctx alternative hterm.2.2).bind fun _ => ?_
    exact .bind (.ofStamped _) fun _ => .pure _
  | recordExtend key value record loc =>
    simp only [Term.ranges, forall_mem_cons, forall_mem_append] at hterm
    exact spares_recordExtend hsolve hterm.1 hterm.2.1 hterm.2.2
  | recordRestrict key record loc | fieldAccess key record loc =>
    simp only [Term.ranges, forall_mem_cons] at hterm
    exact (hsolve ctx record hterm.2).bind fun _ => .bind .freshHole fun _ =>
      .bind .freshHole fun _ => .pure _
  | array elements loc =>
    simp only [Term.ranges, forall_mem_cons] at hterm
    refine .bind .freshHole fun _ => .bind (.mapM fun element helement => ?_) fun _ => ?_
    · exact hsolve ctx element (forall_rangesOfAll.mp hterm.2 element helement)
    · exact .bind (.ofStamped _) fun _ => .pure _

end

theorem sparesOthers_infer (fuel : Nat) : SparesOthers P Q (infer fuel) := by
  induction fuel with
  | zero => exact fun ctx term hterm => .throw _
  | succ fuel ih => exact sparesOthers_step (sparesOthers_solveWith fuel ih)

end Inference

variable {fuel : Nat} {ctx : Context} {checker : Checker} {command : Command}

/-- The uses of generic types in a command are remembered at their ranges. -/
theorem Checker.lookup_recordInstances {loc : Loc} (huses : checker.UsesAt P) (hloc : ¬ P loc)
    (principal : List Constraint) (naming : Naming) :
    (recordInstances principal naming checker).instantiations.lookup loc =
      checker.instantiations.lookup loc := by
  refine foldlRecOn checker.instances _
    (motive := fun table : List (Loc × List (String × Ty)) =>
      table.lookup loc = checker.instantiations.lookup loc) rfl ?_
  intro table htable use huse
  split
  · have hother : loc ≠ use.loc := fun hequal => hloc (hequal ▸ huses use huse)
    rw [lookup_setKey, if_neg hother, htable]
  · exact htable

theorem spares_checkTerm {term : Term} (hterm : ∀ loc ∈ term.ranges, P loc) :
    Spares P Q (checkTerm fuel ctx term) := by
  refine .bind (Inference.sparesOthers_solveWith fuel (Inference.sparesOthers_infer fuel)
    ctx term hterm) fun solved => ?_
  refine .bind (.generalize _ _ _ _) fun result => .bind ?_ fun _ => .pure _
  exact fun checker huses => ⟨huses, fun loc hloc => Checker.lookup_recordInstances huses hloc _ _,
    fun _ _ => rfl⟩

theorem spares_checkBinding {binding : Binding} {loc : Option Loc}
    (hbinding : ∀ loc ∈ binding.ranges, P loc) :
    Spares P Q (checkBinding fuel ctx binding loc) := by
  cases binding with
  | defined term type nameLoc inner isGlobal =>
    rw [Binding.ranges, forall_mem_cons] at hbinding
    exact (spares_checkTerm hbinding.2).bind fun _ => .pure _
  | typed type nameLoc isGlobal | typeAlias type nameLoc isGlobal =>
    exact .bind (.ofExcept _) fun _ => .pure _
  | typeParameter => exact .pure _

theorem spares_checkCommand (fuel : Nat) (ctx : Context)
    (hcommand : ∀ loc ∈ command.ranges, P loc) : Spares P P (checkCommand fuel ctx command) := by
  refine .bind (fun checker _ => ⟨fun use huse => (by cases huse), fun _ _ => rfl,
    fun _ _ => rfl⟩) fun _ => ?_
  cases command with
  | evaluate term loc =>
    rw [Command.ranges, forall_mem_cons] at hcommand
    refine (spares_checkTerm hcommand.2).bind fun result => .bind ?_ fun _ => .pure _
    refine fun checker huses => ⟨huses, fun _ _ => rfl, fun other hother => ?_⟩
    have hne : other ≠ loc := fun hequal => hother (hequal ▸ hcommand.1)
    exact (lookup_setKey ..).trans (if_neg hne)
  | bind name binding loc =>
    rw [Command.ranges, forall_mem_cons] at hcommand
    exact (spares_checkBinding hcommand.2).bind fun _ => .bindName _ _ _ _

/-- Expressions that have a context keep one, and a checked expression gets one. -/
theorem isSome_evaluated_of_checkCommand {ctx' : Context} {final : Checker} {loc : Loc}
    (hrun : checkCommand fuel ctx command checker = .ok ctx' final)
    (hloc : (checker.evaluated.lookup loc).isSome ∨ ∃ term, command = .evaluate term loc) :
    (final.evaluated.lookup loc).isSome := by
  cases checkedCommand_of_ok hrun with
  | evaluate hterm =>
    have hkept := (spares_checkTerm fun _ _ => trivial).lookup_evaluated hterm loc
    rw [lookup_setKey]
    split
    · rfl
    · rename_i hne
      obtain hloc | ⟨other, hloc⟩ := hloc
      · exact hkept ▸ hloc
      · cases hloc
        exact absurd rfl hne
  | bind hbinding =>
    have hkept := (spares_checkBinding fun _ _ => trivial).lookup_evaluated hbinding loc
    obtain hloc | ⟨other, hloc⟩ := hloc
    · exact hkept ▸ hloc
    · cases hloc

/-- Checking a command, whether it succeeds or fails, writes at its own ranges only. -/
theorem spared_checkCommand (hcommand : ∀ loc ∈ command.ranges, P loc) (checker : Checker) :
    checker.Spared P P ((checkCommand fuel ctx command).after checker) := by
  -- The uses noted by earlier commands are dropped first.
  have hnone : Checker.UsesAt P { checker with instances := [] } := by simp [Checker.UsesAt]
  have hcleared : (checkCommand fuel ctx command).after checker =
      (checkCommand fuel ctx command).after { checker with instances := [] } := rfl
  have hspared := (spares_checkCommand fuel ctx hcommand _ hnone).2
  exact ⟨hspared.instantiations, hspared.evaluated⟩

end RowScript
