import RowScript.Inference
import RowScript.Proofs.Success

/-!
# The rules of inference

One level of inference that succeeds follows one of a few rules, depending on the form of the term.
What holds of a successful run is shown rule by rule.
-/

namespace RowScript

open CheckM

namespace Inference

section

variable (solve : Context → Term → CheckM Solved) (ctx : Context)

/-- What is inferred for a record with one more field, once the rest of it is solved. -/
def extended (key : String) (value : Term) (base : Solved) : CheckM Inferred := do
  let val ← solve ctx value
  let a ← freshHole
  let r ← freshHole
  let inner ← ofStamped (mergeInner ctx [base, val])
  pure ⟨.record (.field key (.hole a) (.hole r)) none,
    (.hole a, val.type) :: (.record (.hole r) none, base.type) :: val.principal
      ++ base.principal, some inner⟩

theorem step_recordExtend (key : String) (value record : Term) (loc : Loc) :
    step solve ctx (.recordExtend key value record loc) =
      solve ctx record >>= fun known =>
        (if (known.type.applying known.principal).hasField key = true then
          solve ctx (.recordRestrict key record loc) else pure known) >>=
        extended solve ctx key value := by
  refine congrArg (solve ctx record >>= ·) (funext fun known => ?_)
  split <;> rfl

/-- The body of a function is solved with a placeholder for the type of the parameter. -/
abbrev SolvesBody (param : Param) (body : Term) (checker : Checker) (result : Solved)
    (final : Checker) : Prop :=
  solve (⟨checker.stamp, param.name, .typed (.hole (checker.counter + 1)) param.loc false⟩ :: ctx)
    body { checker with counter := checker.counter + 1, stamp := checker.stamp + 1 } =
      .ok result final

/-- Terms that are solved one after the other. -/
inductive SolvesAll : List Term → Checker → List Solved → Checker → Prop where
  | nil {checker : Checker} : SolvesAll [] checker [] checker
  | cons {term : Term} {rest : List Term} {result : Solved} {results : List Solved}
      {checker middle final : Checker} (hterm : solve ctx term checker = .ok result middle)
      (hrest : SolvesAll rest middle results final) :
      SolvesAll (term :: rest) checker (result :: results) final

/-- A successful level of inference, from a checker to another one. -/
inductive Steps : Term → Checker → Inferred → Checker → Prop where
  | reference {name : String} {loc : Loc} {type : Ty} {checker : Checker}
      (htype : ctx.valueType name (some loc) = .ok type) :
      Steps (.reference name loc) checker ⟨type, [], none⟩ checker
  | boolean {loc : Loc} {checker : Checker} :
      Steps (.boolean loc) checker ⟨.boolean, [], none⟩ checker
  | number {loc : Loc} {checker : Checker} :
      Steps (.number loc) checker ⟨.number, [], none⟩ checker
  | string {loc : Loc} {checker : Checker} :
      Steps (.string loc) checker ⟨.string, [], none⟩ checker
  | unit {loc : Loc} {checker : Checker} : Steps (.unit loc) checker ⟨.unit, [], none⟩ checker
  | emptyRecord {loc : Loc} {checker : Checker} :
      Steps (.emptyRecord loc) checker ⟨.record .emptyRow none, [], none⟩ checker
  | thunk {body : Term} {loc : Loc} {result : Solved} {checker final : Checker}
      (hbody : solve ctx body checker = .ok result final) :
      Steps (.function none body none loc) checker
        ⟨.arrow .unit result.type, result.principal, some result.inner⟩ final
  /-- The body settles the type of the parameter. -/
  | settled {param : Param} {body : Term} {loc : Loc} {result : Solved} {arg : Ty}
      {checker final : Checker}
      (hbindable : ctx.checkBindable param.name (some param.loc) = .ok ())
      (hbody : SolvesBody solve ctx param body checker result final)
      (hsolution : solutionFor (checker.counter + 1) result.principal = some arg) :
      Steps (.function (some param) body none loc) checker
        ⟨.arrow arg (result.type.replaceHole (checker.counter + 1) arg), result.principal,
          some (replaceParameter (checker.counter + 1) arg result.inner final.stamp).1⟩
        { final with
          stamp := (replaceParameter (checker.counter + 1) arg result.inner final.stamp).2 }
  /-- The parameter gets a letter for its type. -/
  | lettered {param : Param} {body : Term} {loc : Loc} {result : Solved} {name : String}
      {checker final : Checker}
      (hbindable : ctx.checkBindable param.name (some param.loc) = .ok ())
      (hbody : SolvesBody solve ctx param body checker result final)
      (hsolution : solutionFor (checker.counter + 1) result.principal = none)
      (hname : result.inner.nextTypeVariable (some loc) result.type.names = .ok name) :
      Steps (.function (some param) body none loc) checker
        ⟨.generic name ((Ty.named name).functionTo
            (result.type.replaceHole (checker.counter + 1) (.named name))), result.principal,
          some (⟨(replaceParameter (checker.counter + 1) (.named name) result.inner
            final.stamp).2, name, .typeParameter⟩ ::
              (replaceParameter (checker.counter + 1) (.named name) result.inner final.stamp).1)⟩
        { final with
          stamp := (replaceParameter (checker.counter + 1) (.named name) result.inner
            final.stamp).2 + 1 }
  | writtenThunk {body : Term} {loc : Loc} {ascribed arg ret : Ty} {result : Solved}
      {checker final : Checker} (htype : ctx.normalize (some loc) ascribed = .ok (.arrow arg ret))
      (hbody : solve ctx body checker = .ok result final) :
      Steps (.function none body (some ascribed) loc) checker
        ⟨.arrow arg ret, (result.type, ret) :: (arg, .unit) :: result.principal,
          some result.inner⟩ final
  | written {param : Param} {body : Term} {loc : Loc} {ascribed arg ret : Ty} {result : Solved}
      {checker final : Checker} (htype : ctx.normalize (some loc) ascribed = .ok (.arrow arg ret))
      (hbindable : ctx.checkBindable param.name (some param.loc) = .ok ())
      (hbody : solve (⟨checker.stamp, param.name, .typed arg param.loc false⟩ :: ctx) body
        { checker with stamp := checker.stamp + 1 } = .ok result final) :
      Steps (.function (some param) body (some ascribed) loc) checker
        ⟨.arrow arg ret, (result.type, ret) :: result.principal, some result.inner⟩ final
  /-- A function with a generic type is inferred without it. -/
  | writtenGeneric {param : Option Param} {body : Term} {loc : Loc} {ascribed inner : Ty}
      {name : String} {result : Solved} {checker final : Checker}
      (htype : ctx.normalize (some loc) ascribed = .ok (.generic name inner))
      (hplain : solve ctx (.function param body none loc) checker = .ok result final) :
      Steps (.function param body (some ascribed) loc) checker
        ⟨.generic name inner, (result.type, .generic name inner) :: result.principal,
          some result.inner⟩ final
  | application {func arg : Term} {loc : Loc} {fn a : Solved} {fnType : Ty}
      {checker middle final opened : Checker} (hfunc : solve ctx func checker = .ok fn middle)
      (harg : solve ctx arg middle = .ok a final)
      (hopen : fn.type.instantiate (some func.loc) { final with counter := final.counter + 1 } =
        .ok fnType opened) :
      Steps (.application func arg loc) checker
        ⟨.hole (final.counter + 1),
          (fnType, .arrow a.type (.hole (final.counter + 1))) :: fn.principal ++ a.principal,
          some (mergeInner ctx [fn, a] opened.stamp).1⟩
        { opened with stamp := (mergeInner ctx [fn, a] opened.stamp).2 }
  | conditional {condition consequence alternative : Term} {loc : Loc} {c a b : Solved}
      {checker first second final : Checker}
      (hcondition : solve ctx condition checker = .ok c first)
      (hconsequence : solve ctx consequence first = .ok a second)
      (halternative : solve ctx alternative second = .ok b final) :
      Steps (.conditional condition consequence alternative loc) checker
        ⟨b.type,
          (c.type, .boolean) :: (a.type, b.type) :: c.principal ++ a.principal ++ b.principal,
          some (mergeInner ctx [c, a, b] final.stamp).1⟩
        { final with stamp := (mergeInner ctx [c, a, b] final.stamp).2 }
  /-- A value is put in the place of its name. -/
  | letValue {name : String} {value body : Term} {nameLoc loc : Loc} {result bound : Solved}
      {checker middle final : Checker} (hvalue : value.isValue = true)
      (hbindable : ctx.checkBindable name (some nameLoc) = .ok ())
      (hbody : solve ctx (body.replace name value) checker = .ok result middle)
      (hbound : solve ctx value middle = .ok bound final) :
      Steps (.letIn name value body nameLoc loc) checker
        ⟨result.type, result.principal ++ bound.principal,
          some (⟨final.stamp, name,
            .defined value (some bound.type) nameLoc (some bound.inner) false⟩ :: result.inner)⟩
        { final with stamp := final.stamp + 1 }
  /-- What is not a value has one type for all uses of its name. -/
  | letOnce {name : String} {value body : Term} {nameLoc loc : Loc} {bound result : Solved}
      {single : Ty} {checker middle opened final : Checker} (hvalue : value.isValue = false)
      (hbound : solve ctx value checker = .ok bound middle)
      (hopen : (bound.type.applying bound.principal).instantiate none middle =
        .ok single opened)
      (hbindable : ctx.checkBindable name (some nameLoc) = .ok ())
      (hbody : solve (⟨opened.stamp, name, .typed single nameLoc false⟩ :: ctx) body
        { opened with stamp := opened.stamp + 1 } = .ok result final) :
      Steps (.letIn name value body nameLoc loc) checker
        ⟨result.type, bound.principal ++ result.principal,
          some (result.inner.merge bound.inner final.stamp).1⟩
        { final with stamp := (result.inner.merge bound.inner final.stamp).2 }
  /-- The record has no such field yet. -/
  | extend {key : String} {value record : Term} {loc : Loc} {base val : Solved}
      {checker middle final : Checker} (hrecord : solve ctx record checker = .ok base middle)
      (hfield : (base.type.applying base.principal).hasField key = false)
      (hval : solve ctx value middle = .ok val final) :
      Steps (.recordExtend key value record loc) checker
        ⟨.record (.field key (.hole (final.counter + 1)) (.hole (final.counter + 2))) none,
          (.hole (final.counter + 1), val.type) ::
            (.record (.hole (final.counter + 2)) none, base.type) ::
              val.principal ++ base.principal, some (mergeInner ctx [base, val] final.stamp).1⟩
        { final with
          counter := final.counter + 2, stamp := (mergeInner ctx [base, val] final.stamp).2 }
  /-- The field is taken out of the record first. -/
  | overwrite {key : String} {value record : Term} {loc : Loc} {known base val : Solved}
      {checker first middle final : Checker} (hrecord : solve ctx record checker = .ok known first)
      (hfield : (known.type.applying known.principal).hasField key = true)
      (hbase : solve ctx (.recordRestrict key record loc) first = .ok base middle)
      (hval : solve ctx value middle = .ok val final) :
      Steps (.recordExtend key value record loc) checker
        ⟨.record (.field key (.hole (final.counter + 1)) (.hole (final.counter + 2))) none,
          (.hole (final.counter + 1), val.type) ::
            (.record (.hole (final.counter + 2)) none, base.type) ::
              val.principal ++ base.principal, some (mergeInner ctx [base, val] final.stamp).1⟩
        { final with
          counter := final.counter + 2, stamp := (mergeInner ctx [base, val] final.stamp).2 }
  | restrict {key : String} {record : Term} {loc : Loc} {base : Solved} {checker final : Checker}
      (hrecord : solve ctx record checker = .ok base final) :
      Steps (.recordRestrict key record loc) checker
        ⟨.record (.hole (final.counter + 2)) none,
          (.record (.field key (.hole (final.counter + 1)) (.hole (final.counter + 2))) none,
            base.type) :: base.principal, some base.inner⟩
        { final with counter := final.counter + 2 }
  | access {key : String} {record : Term} {loc : Loc} {base : Solved} {checker final : Checker}
      (hrecord : solve ctx record checker = .ok base final) :
      Steps (.fieldAccess key record loc) checker
        ⟨.hole (final.counter + 1),
          (.record (.field key (.hole (final.counter + 1)) (.hole (final.counter + 2))) none,
            base.type) :: base.principal, some base.inner⟩
        { final with counter := final.counter + 2 }
  | array {elements : List Term} {loc : Loc} {solved : List Solved} {checker final : Checker}
      (helements : SolvesAll solve ctx elements { checker with counter := checker.counter + 1 }
        solved final) :
      Steps (.array elements loc) checker
        ⟨.arrayOf (.hole (checker.counter + 1)),
          solved.map (fun s => (.hole (checker.counter + 1), s.type)) ++
            solved.flatMap (·.principal), some (mergeInner ctx solved final.stamp).1⟩
        { final with stamp := (mergeInner ctx solved final.stamp).2 }

end

variable {solve : Context → Term → CheckM Solved} {ctx : Context} {checker final : Checker}
  {inferred : Inferred} {elements : List Term} {results : List Solved} {param : Option Param}
  {body : Term} {loc : Loc}

theorem SolvesAll.pair {first second : Term} {a b : Solved} {middle : Checker}
    (hfirst : solve ctx first checker = .ok a middle)
    (hsecond : solve ctx second middle = .ok b final) :
    SolvesAll solve ctx [first, second] checker [a, b] final :=
  .cons hfirst (.cons hsecond .nil)

theorem solvesAll_of_mapM (hrun : elements.mapM (solve ctx) checker = .ok results final) :
    SolvesAll solve ctx elements checker results final := by
  induction elements generalizing checker results with
  | nil =>
    obtain ⟨rfl, rfl⟩ := pure_eq_ok.mp hrun
    exact .nil
  | cons element rest ih =>
    simp only [List.mapM_cons, bind_eq_ok, pure_eq_ok] at hrun
    obtain ⟨result, _, hresult, others, _, hothers, rfl, rfl⟩ := hrun
    exact .cons hresult (ih hothers)

theorem SolvesAll.exists_of_mem (hall : SolvesAll solve ctx elements checker results final) :
    ∀ element ∈ elements, ∃ before result after, solve ctx element before = .ok result after := by
  induction hall with
  | nil => simp
  | cons hterm _ ih => exact List.forall_mem_cons.mpr ⟨⟨_, _, _, hterm⟩, ih⟩

theorem steps_function (hrun : function solve ctx param body loc checker = .ok inferred final) :
    Steps solve ctx (.function param body none loc) checker inferred final := by
  cases param with
  | none =>
    simp only [function, bind_eq_ok, pure_eq_ok] at hrun
    obtain ⟨result, _, hbody, rfl, rfl⟩ := hrun
    exact .thunk hbody
  | some param =>
    simp only [function, bind_eq_ok, freshHole_eq_ok,
      bindName_eq_ok] at hrun
    obtain ⟨_, _, ⟨rfl, rfl⟩, _, _, ⟨hbindable, rfl, rfl⟩, result, _, hbody, hrun⟩ := hrun
    cases hsolution : solutionFor (checker.counter + 1) result.principal with
    | some arg =>
      simp only [hsolution, bind_eq_ok, ofStamped_eq_ok, pure_eq_ok]
        at hrun
      obtain ⟨_, _, ⟨rfl, rfl⟩, rfl, rfl⟩ := hrun
      exact .settled hbindable hbody hsolution
    | none =>
      simp only [hsolution, bind_eq_ok, ofExcept_eq_ok, ofStamped_eq_ok,
        pure_eq_ok] at hrun
      obtain ⟨name, _, ⟨hname, rfl⟩, _, _, ⟨rfl, rfl⟩, rfl, rfl⟩ := hrun
      exact .lettered hbindable hbody hsolution hname

theorem steps_ascribedFunction {ascribed : Ty}
    (hrun : ascribedFunction solve ctx param body ascribed loc checker = .ok inferred final) :
    Steps solve ctx (.function param body (some ascribed) loc) checker inferred final := by
  simp only [ascribedFunction, bind_eq_ok, ofExcept_eq_ok] at hrun
  obtain ⟨type, _, ⟨htype, rfl⟩, hrun⟩ := hrun
  split at hrun
  · simp only [bind_eq_ok, ofExcept_eq_ok] at hrun
    obtain ⟨_, _, ⟨-, rfl⟩, _, _, ⟨-, rfl⟩, hrun⟩ := hrun
    split at hrun
    · simp only [bind_eq_ok, pure_eq_ok] at hrun
      obtain ⟨result, _, hbody, rfl, rfl⟩ := hrun
      exact .writtenThunk htype hbody
    · split at hrun
      · simp at hrun
      · simp only [bind_eq_ok, bindName_eq_ok, pure_eq_ok] at hrun
        obtain ⟨_, _, ⟨hbindable, rfl, rfl⟩, result, _, hbody, rfl, rfl⟩ := hrun
        exact .written htype hbindable hbody
  · simp only [bind_eq_ok, pure_eq_ok] at hrun
    obtain ⟨plain, _, hplain, rfl, rfl⟩ := hrun
    exact .writtenGeneric htype hplain
  · simp at hrun

/-- A successful level of inference follows one of the rules. -/
theorem steps_of_step {term : Term} (hrun : step solve ctx term checker = .ok inferred final) :
    Steps solve ctx term checker inferred final := by
  cases term with
  | reference name loc =>
    simp only [step, bind_eq_ok, ofExcept_eq_ok, pure_eq_ok] at hrun
    obtain ⟨type, _, ⟨htype, rfl⟩, rfl, rfl⟩ := hrun
    exact .reference htype
  | boolean | number | string | unit | emptyRecord =>
    obtain ⟨rfl, rfl⟩ := pure_eq_ok.mp hrun
    constructor
  | function param body ascribed loc =>
    cases ascribed with
    | none => exact steps_function hrun
    | some ascribed => exact steps_ascribedFunction hrun
  | application func arg loc =>
    simp only [step, bind_eq_ok, freshHole_eq_ok, ofStamped_eq_ok,
      pure_eq_ok] at hrun
    obtain ⟨fn, _, hfunc, a, _, harg, _, _, ⟨rfl, rfl⟩, fnType, _, hopen, _, _, ⟨rfl, rfl⟩, rfl,
      rfl⟩ := hrun
    exact .application hfunc harg hopen
  | conditional condition consequence alternative loc =>
    simp only [step, bind_eq_ok, ofStamped_eq_ok, pure_eq_ok] at hrun
    obtain ⟨c, _, hcondition, a, _, hconsequence, b, _, halternative, _, _, ⟨rfl, rfl⟩, rfl,
      rfl⟩ := hrun
    exact .conditional hcondition hconsequence halternative
  | letIn name value body nameLoc loc =>
    cases hvalue : value.isValue with
    | true =>
      simp only [step, hvalue, if_true, bind_eq_ok, ofExcept_eq_ok,
        ofStamped_eq_ok, pure_eq_ok] at hrun
      obtain ⟨_, _, ⟨hbindable, rfl⟩, result, _, hbody, bound, _, hbound, _, _, ⟨rfl, rfl⟩,
        rfl, rfl⟩ := hrun
      exact .letValue hvalue hbindable hbody hbound
    | false =>
      simp only [step, hvalue, Bool.false_eq_true, if_false, bind_eq_ok,
        bindName_eq_ok, ofStamped_eq_ok, pure_eq_ok] at hrun
      obtain ⟨bound, _, hbound, single, _, hopen, _, _, ⟨hbindable, rfl, rfl⟩, result, _, hbody,
        _, _, ⟨rfl, rfl⟩, rfl, rfl⟩ := hrun
      exact .letOnce hvalue hbound hopen hbindable hbody
  | recordExtend key value record loc =>
    simp only [step, bind_eq_ok] at hrun
    obtain ⟨known, _, hrecord, hrun⟩ := hrun
    split at hrun
    · rename_i hfield
      simp only [bind_eq_ok, freshHole_eq_ok, ofStamped_eq_ok,
        pure_eq_ok] at hrun
      obtain ⟨base, _, hbase, val, _, hval, _, _, ⟨rfl, rfl⟩, _, _, ⟨rfl, rfl⟩, _, _, ⟨rfl, rfl⟩,
        rfl, rfl⟩ := hrun
      exact .overwrite hrecord hfield hbase hval
    · rename_i hfield
      simp only [bind_eq_ok, freshHole_eq_ok, ofStamped_eq_ok,
        pure_eq_ok] at hrun
      obtain ⟨_, _, ⟨rfl, rfl⟩, val, _, hval, _, _, ⟨rfl, rfl⟩, _, _, ⟨rfl, rfl⟩, _, _,
        ⟨rfl, rfl⟩, rfl, rfl⟩ := hrun
      exact .extend hrecord (Bool.eq_false_iff.mpr hfield) hval
  | recordRestrict key record loc =>
    simp only [step, bind_eq_ok, freshHole_eq_ok, pure_eq_ok] at hrun
    obtain ⟨base, _, hrecord, _, _, ⟨rfl, rfl⟩, _, _, ⟨rfl, rfl⟩, rfl, rfl⟩ := hrun
    exact .restrict hrecord
  | fieldAccess key record loc =>
    simp only [step, bind_eq_ok, freshHole_eq_ok, pure_eq_ok] at hrun
    obtain ⟨base, _, hrecord, _, _, ⟨rfl, rfl⟩, _, _, ⟨rfl, rfl⟩, rfl, rfl⟩ := hrun
    exact .access hrecord
  | array elements loc =>
    simp only [step, bind_eq_ok, freshHole_eq_ok, ofStamped_eq_ok,
      pure_eq_ok] at hrun
    obtain ⟨_, _, ⟨rfl, rfl⟩, solved, _, helements, _, _, ⟨rfl, rfl⟩, rfl, rfl⟩ := hrun
    exact .array (solvesAll_of_mapM helements)

/-- What solving does at each level, given that it does it at the level below, it does at all
levels. -/
theorem solve_induction {P : Context → Term → Checker → Solved → Checker → Prop}
    (hlevel : ∀ {fuel ctx term checker inferred middle principal final},
      (∀ ⦃ctx term checker solved final⦄, RowScript.solve fuel ctx term checker = .ok solved final →
        P ctx term checker solved final) →
      Steps (RowScript.solve fuel) ctx term checker inferred middle →
      unify (fuel + 1) ctx (some term.loc) inferred.constraints middle = .ok principal final →
      P ctx term checker ⟨inferred.type, principal, inferred.inner.getD ctx⟩ final)
    (fuel : Nat) : ∀ ⦃ctx term checker solved final⦄,
      RowScript.solve fuel ctx term checker = .ok solved final →
        P ctx term checker solved final := by
  induction fuel with
  | zero =>
    intro ctx term checker solved final hrun
    simp [RowScript.solve, solveWith, infer, bind_eq_ok] at hrun
  | succ fuel ih =>
    intro ctx term checker solved final hrun
    simp only [RowScript.solve, solveWith, bind_eq_ok, pure_eq_ok] at hrun
    obtain ⟨inferred, middle, hinferred, principal, last, hunify, rfl, rfl⟩ := hrun
    exact hlevel ih (steps_of_step hinferred) hunify

end Inference

end RowScript
