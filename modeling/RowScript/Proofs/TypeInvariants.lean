import RowScript.Proofs.InferenceRules
import RowScript.Proofs.SolverRules
import RowScript.Proofs.Typing

/-!
# Properties that all inferred types have

A property of types that each operation of inference hands on holds of every type that inference
meets. It may depend on the placeholder that was handed out last.
-/

namespace RowScript

open Term CheckM List Bool

/-- A property of types that is handed on when placeholders are replaced and when generic
types are opened. It may depend on the placeholder that was handed out last, and it has to hold
of placeholders from some point on. -/
structure TypeInvariant where
  OfType : Nat → Ty → Prop
  start : Nat
  mono {n m : Nat} {ty : Ty} : OfType n ty → n ≤ m → OfType m ty
  hole {n id : Nat} : start < id → id ≤ n → OfType n (.hole id)
  hole_of_mem {n id : Nat} {ty : Ty} : OfType n ty → id ∈ ty.holes → OfType n (.hole id)
  bindHoles {n : Nat} {ty : Ty} {f : Nat → Ty} :
    OfType n ty → (∀ i ∈ ty.holes, OfType n (f i)) → OfType n (ty.bindHoles f)
  opened {n : Nat} {param : String} {body ty : Ty} :
    OfType n (.generic param body) → OfType n ty → OfType n (body.replaceName param ty)

namespace TypeInvariant

variable (inv : TypeInvariant) {n m : Nat} {ty : Ty} {c : Constraint}
  {constraints others : List Constraint}

/-- Both sides of every constraint have the property. -/
def OfConstraints (n : Nat) (constraints : List Constraint) : Prop :=
  ∀ c ∈ constraints, inv.OfType n c.1 ∧ inv.OfType n c.2

variable {inv}

@[simp]
theorem ofConstraints_nil : inv.OfConstraints n [] := by
  simp [OfConstraints]

@[simp]
theorem ofConstraints_cons : inv.OfConstraints n (c :: constraints) ↔
    (inv.OfType n c.1 ∧ inv.OfType n c.2) ∧ inv.OfConstraints n constraints :=
  forall_mem_cons

@[simp]
theorem ofConstraints_append : inv.OfConstraints n (constraints ++ others) ↔
    inv.OfConstraints n constraints ∧ inv.OfConstraints n others :=
  forall_mem_append

theorem OfConstraints.mono (hconstraints : inv.OfConstraints n constraints) (hle : n ≤ m) :
    inv.OfConstraints m constraints :=
  fun c hc => ⟨inv.mono (hconstraints c hc).1 hle, inv.mono (hconstraints c hc).2 hle⟩

theorem replaceHole {id : Nat} {replacement : Ty} (hty : inv.OfType n ty)
    (hreplacement : inv.OfType n replacement) : inv.OfType n (ty.replaceHole id replacement) := by
  apply inv.bindHoles hty
  intro i hi
  by_cases hid : i = id
  · rwa [if_pos hid]
  · rw [if_neg hid]
    exact inv.hole_of_mem hty hi

theorem instantiateFirst {k : Nat} {checker final : Checker} {result : List (String × Nat) × Ty}
    (hstart : inv.start ≤ checker.counter) (hty : inv.OfType checker.counter ty)
    (hrun : ty.instantiateFirst k checker = .ok result final) :
    checker.counter ≤ final.counter ∧ inv.OfType final.counter result.2 := by
  induction k generalizing ty checker final result with
  | zero =>
    obtain ⟨rfl, rfl⟩ := pure_eq_ok.mp hrun
    exact ⟨Nat.le_refl _, hty⟩
  | succ k ih =>
    cases ty with
    | generic param body =>
      simp only [Ty.instantiateFirst, bind_eq_ok, freshHole_eq_ok,
        pure_eq_ok] at hrun
      obtain ⟨id, _, ⟨rfl, rfl⟩, inner, last, hinner, rfl, rfl⟩ := hrun
      have hfresh : inv.OfType (checker.counter + 1) (.hole (checker.counter + 1)) :=
        inv.hole (Nat.lt_succ_of_le hstart) (Nat.le_refl _)
      obtain ⟨hle, hopened⟩ := ih (Nat.le_succ_of_le hstart)
        (inv.opened (inv.mono hty (Nat.le_succ _)) hfresh) hinner
      exact ⟨Nat.le_trans (Nat.le_succ _) hle, hopened⟩
    | _ =>
      obtain ⟨rfl, rfl⟩ := pure_eq_ok.mp hrun
      exact ⟨Nat.le_refl _, hty⟩

/-- All instances of a type have the property if the type has it. -/
theorem instantiate {loc : Option Loc} {checker final : Checker} {body : Ty}
    (hstart : inv.start ≤ checker.counter) (hty : inv.OfType checker.counter ty)
    (hrun : ty.instantiate loc checker = .ok body final) :
    checker.counter ≤ final.counter ∧ inv.OfType final.counter body := by
  simp only [Ty.instantiate, bind_eq_ok] at hrun
  obtain ⟨⟨holes, opened⟩, middle, hfirst, hrun⟩ := hrun
  have hfirst := inv.instantiateFirst hstart hty hfirst
  cases loc with
  | none =>
    obtain ⟨rfl, rfl⟩ := pure_eq_ok.mp hrun
    exact hfirst
  | some loc =>
    cases hholes : holes.isEmpty with
    | true =>
      simp only [hholes] at hrun
      obtain ⟨rfl, rfl⟩ := pure_eq_ok.mp hrun
      exact hfirst
    | false =>
      simp only [hholes] at hrun
      cases hrun
      exact hfirst

theorem resolveUpTo : ∀ (k : Nat) (assignment : Assignment) (ty : Ty),
    (∀ assigned ∈ assignment, inv.OfType n assigned.2) → inv.OfType n ty →
      inv.OfType n (assignment.resolveUpTo k ty) := by
  intro k
  induction k with
  | zero => exact fun assignment ty _ hty => hty
  | succ k ih =>
    intro assignment ty hassignment hty
    apply inv.bindHoles hty
    intro i hi
    cases hassigned : assignment.lookup i with
    | none => exact inv.hole_of_mem hty hi
    | some assigned =>
      obtain ⟨newer, older, rfl, -⟩ := lookup_eq_some_iff.mp hassigned
      apply ih
      · intro other hother
        exact hassignment other (mem_filter.mp hother).1
      · exact hassignment (i, assigned) (by simp)

theorem ofConstraints_assigned (hconstraints : inv.OfConstraints n constraints) :
    ∀ assigned ∈ Assignment.ofConstraints constraints, inv.OfType n assigned.2 := by
  have hwithout : ∀ {id : Nat} {assignment : Assignment},
      (∀ assigned ∈ assignment, inv.OfType n assigned.2) →
      ∀ assigned ∈ assignment.without id, inv.OfType n assigned.2 :=
    fun hassignment assigned hassigned => hassignment assigned (mem_filter.mp hassigned).1
  fun_induction Assignment.ofConstraints constraints with
  | case1 => simp
  | case2 rest id type ih =>
    rw [ofConstraints_cons] at hconstraints
    exact forall_mem_cons.mpr ⟨hconstraints.1.2, hwithout (ih hconstraints.2)⟩
  | case3 rest type id _ ih =>
    rw [ofConstraints_cons] at hconstraints
    exact forall_mem_cons.mpr ⟨hconstraints.1.1, hwithout (ih hconstraints.2)⟩
  | case4 => simp

theorem applying (hty : inv.OfType n ty) (hconstraints : inv.OfConstraints n constraints) :
    inv.OfType n (ty.applying constraints) :=
  inv.resolveUpTo _ _ _ (inv.ofConstraints_assigned hconstraints) hty

theorem solutionFor {id : Nat} (hid : inv.OfType n (.hole id))
    (hconstraints : inv.OfConstraints n constraints)
    (hsolution : solutionFor id constraints = some ty) : inv.OfType n ty := by
  simp only [RowScript.solutionFor] at hsolution
  split at hsolution
  · rename_i type hassigned
    cases hsolution
    obtain ⟨c, hc, hside⟩ := exists_of_findSome?_eq_some hassigned
    split at hside
    · cases hside
      exact (hconstraints c hc).2
    · split at hside
      · cases hside
        exact (hconstraints c hc).1
      · cases hside
  · split at hsolution
    · cases hsolution
      exact hid
    · cases hsolution

end TypeInvariant

namespace Inference

/-- The names of the types that literals and arrays have. -/
def literalTypes : List String := ["()", "Boolean", "Number", "String", "Array"]

end Inference

/-- A property of types and contexts that inference hands on, for terms in which the
written types of functions pass a check. -/
structure InferenceInvariant extends TypeInvariant where
  OfContext : Nat → Context → Prop
  start_le {n : Nat} {ctx : Context} : OfContext n ctx → start ≤ n
  allows : Option Param → Option Ty → Bool
  allows_none {n : Nat} {name : String} {body : Ty} (param : Option Param) :
    OfType n (.generic name body) → allows param none
  literal {n : Nat} {name : String} : name ∈ Inference.literalTypes → OfType n (.named name)
  emptyRow {n : Nat} : OfType n .emptyRow
  arrow {n : Nat} {a b : Ty} : OfType n (.arrow a b) ↔ OfType n a ∧ OfType n b
  app {n : Nat} {a b : Ty} {loc : Loc} : OfType n (.app a b loc) ↔ OfType n a ∧ OfType n b
  field {n : Nat} {key : String} {a b : Ty} :
    OfType n (.field key a b) ↔ OfType n a ∧ OfType n b
  record {n : Nat} {row : Ty} {label : Option String} :
    OfType n (.record row label) ↔ OfType n row
  /-- A function is made generic in the name that its parameter's type gets. -/
  quantified {n id : Nat} {ret : Ty} {param : Param} (name : String) :
    allows (some param) none → OfType n ret → OfType n (.generic name
      ((Ty.named name).functionTo (ret.replaceHole id (.named name))))
  context_mono {n m : Nat} {ctx : Context} : OfContext n ctx → n ≤ m → OfContext m ctx
  value {n : Nat} {ctx : Context} {name : String} {loc : Option Loc} {type : Ty} :
    OfContext n ctx → ctx.valueType name loc = .ok type → OfType n type
  bind {n stamp : Nat} {ctx : Context} {name : String} {type : Ty} {loc : Loc} :
    OfContext n ctx → OfType n type → OfContext n (⟨stamp, name, .typed type loc false⟩ :: ctx)
  written {n : Nat} {ctx : Context} {param : Option Param} {ascribed type : Ty}
      {loc : Option Loc} :
    OfContext n ctx → allows param (some ascribed) →
      ctx.normalize loc ascribed = .ok type → OfType n type
  solves {n m : Nat} {ctx : Context} {constraints answer : List Constraint} :
    OfContext n ctx → (∀ c ∈ constraints, OfType n c.1 ∧ OfType n c.2) →
      Solver.Solves ctx n constraints [] m answer → ∀ c ∈ answer, OfType m c.1 ∧ OfType m c.2

attribute [simp] InferenceInvariant.emptyRow InferenceInvariant.arrow InferenceInvariant.app
  InferenceInvariant.field InferenceInvariant.record

namespace InferenceInvariant

open Inference (step solveWith)

variable (inv : InferenceInvariant)

/-- What was found for a term has the property. The numbers are the placeholders handed
out last, before and after. -/
structure Finds (n m : Nat) (type : Ty) (constraints : List Constraint) : Prop where
  le : n ≤ m
  ofType : inv.OfType m type
  ofConstraints : inv.OfConstraints m constraints

/-- Whatever is inferred has the property. -/
def Infers (infer : Context → Term → CheckM Inferred) : Prop :=
  ∀ ⦃ctx term checker inferred final⦄, infer ctx term checker = .ok inferred final →
    inv.OfContext checker.counter ctx → term.allFunctions inv.allows = true →
    inv.Finds checker.counter final.counter inferred.type inferred.constraints

/-- Whatever is solved has the property. -/
def Solves (solve : Context → Term → CheckM Solved) : Prop :=
  ∀ ⦃ctx term checker solved final⦄, solve ctx term checker = .ok solved final →
    inv.OfContext checker.counter ctx → term.allFunctions inv.allows = true →
    inv.Finds checker.counter final.counter solved.type solved.principal

variable {inv} {n m : Nat} {type baseType : Ty} {constraints : List Constraint} {key : String}
  {ctx : Context} {checker final : Checker} {solve : Context → Term → CheckM Solved}

theorem Finds.mono {k : Nat} (hfinds : inv.Finds n m type constraints) (hle : m ≤ k) :
    inv.Finds n k type constraints :=
  ⟨Nat.le_trans hfinds.le hle, inv.mono hfinds.ofType hle, hfinds.ofConstraints.mono hle⟩

theorem Finds.after {k : Nat} (hfinds : inv.Finds m k type constraints) (hle : n ≤ m) :
    inv.Finds n k type constraints :=
  ⟨Nat.le_trans hle hfinds.le, hfinds.ofType, hfinds.ofConstraints⟩

theorem solves_solveWith {infer : Context → Term → CheckM Inferred} (fuel : Nat)
    (hinfer : inv.Infers infer) : inv.Solves (solveWith fuel infer) := by
  intro ctx term checker solved final hrun hctx hterm
  simp only [solveWith, bind_eq_ok, pure_eq_ok] at hrun
  obtain ⟨inferred, middle, hinferred, principal, last, hunify, rfl, rfl⟩ := hrun
  have hfinds := hinfer hinferred hctx hterm
  have hsolves := (unify_solves hunify).1
  have hle := hsolves.counter_le
  exact ⟨Nat.le_trans hfinds.le hle, inv.mono hfinds.ofType hle,
    inv.solves (inv.context_mono hctx hfinds.le) hfinds.ofConstraints hsolves⟩

/-- A record that must have a field: two new placeholders stand for the type of the field and
for the other fields. -/
theorem Finds.select (hstart : inv.start ≤ n) (hbase : inv.Finds n m baseType constraints)
    (htype : inv.OfType (m + 2) type) :
    inv.Finds n (m + 2) type
      ((.record (.field key (.hole (m + 1)) (.hole (m + 2))) none, baseType) :: constraints) := by
  have hstart := Nat.le_trans hstart hbase.le
  have hbase := hbase.mono (Nat.le_add_right m 2)
  have hfield : inv.OfType (m + 2) (.hole (m + 1)) := inv.hole (by omega) (Nat.le_succ _)
  have hrow : inv.OfType (m + 2) (.hole (m + 2)) := inv.hole (by omega) (Nat.le_refl _)
  exact ⟨hbase.le, htype, by simp [hfield, hrow, hbase.ofType, hbase.ofConstraints]⟩

/-- A record with one more field, whichever run solved the record without it. -/
theorem Finds.extend {valueType : Ty} {valueConstraints baseConstraints : List Constraint}
    (hstart : inv.start ≤ n) (hvalue : inv.Finds n m valueType valueConstraints)
    (hbase : inv.Finds n m baseType baseConstraints) :
    inv.Finds n (m + 2) (.record (.field key (.hole (m + 1)) (.hole (m + 2))) none)
      ((.hole (m + 1), valueType) :: (.record (.hole (m + 2)) none, baseType) ::
        valueConstraints ++ baseConstraints) := by
  have hvalue := hvalue.mono (Nat.le_add_right m 2)
  have hstart := Nat.le_trans hstart hbase.le
  have hbase := hbase.mono (Nat.le_add_right m 2)
  have hfield : inv.OfType (m + 2) (.hole (m + 1)) := inv.hole (by omega) (Nat.le_succ _)
  have hrow : inv.OfType (m + 2) (.hole (m + 2)) := inv.hole (by omega) (Nat.le_refl _)
  exact ⟨hbase.le, by simp [hfield, hrow], by simp [hfield, hrow, hvalue.ofType, hbase.ofType,
    hvalue.ofConstraints, hbase.ofConstraints]⟩

/-- A function that is used at an instance of its type, with a new placeholder for the
result. -/
theorem Finds.apply {funcType argType opened : Ty}
    {funcConstraints argConstraints : List Constraint} {loc : Option Loc} (hstart : inv.start ≤ n)
    (hfunc : inv.Finds n checker.counter funcType funcConstraints)
    (harg : inv.Finds n checker.counter argType argConstraints)
    (hopen : funcType.instantiate loc { checker with counter := checker.counter + 1 } =
      .ok opened final) :
    inv.Finds n final.counter (.hole (checker.counter + 1))
      ((opened, .arrow argType (.hole (checker.counter + 1))) ::
        funcConstraints ++ argConstraints) := by
  have hstart := Nat.le_trans hstart hfunc.le
  obtain ⟨hle, hopened⟩ := inv.instantiate (Nat.le_succ_of_le hstart)
    (inv.mono hfunc.ofType (Nat.le_succ _)) hopen
  have hfunc := hfunc.mono (Nat.le_of_succ_le hle)
  have harg := harg.mono (Nat.le_of_succ_le hle)
  have hret : inv.OfType final.counter (.hole (checker.counter + 1)) :=
    inv.hole (Nat.lt_succ_of_le hstart) hle
  exact ⟨hfunc.le, hret,
    by simp [hopened, hret, harg.ofType, hfunc.ofConstraints, harg.ofConstraints]⟩

theorem Finds.choose {testType thenType elseType : Ty}
    {testConstraints thenConstraints elseConstraints : List Constraint}
    (htest : inv.Finds n m testType testConstraints)
    (hthen : inv.Finds n m thenType thenConstraints)
    (helse : inv.Finds n m elseType elseConstraints) :
    inv.Finds n m elseType ((testType, .boolean) :: (thenType, elseType) ::
      testConstraints ++ thenConstraints ++ elseConstraints) := by
  have hboolean : inv.OfType m .boolean := inv.literal (by decide)
  exact ⟨htest.le, helse.ofType, by simp [hboolean, htest.ofType, hthen.ofType, helse.ofType,
    htest.ofConstraints, hthen.ofConstraints, helse.ofConstraints]⟩

theorem Finds.collect {results : List Solved} (hstart : inv.start ≤ n) (hle : n + 1 ≤ m)
    (hresults : ∀ result ∈ results, inv.Finds (n + 1) m result.type result.principal) :
    inv.Finds n m (.arrayOf (.hole (n + 1)))
      (results.map (fun result => (.hole (n + 1), result.type)) ++
        results.flatMap (·.principal)) := by
  have helement : inv.OfType m (.hole (n + 1)) := inv.hole (Nat.lt_succ_of_le hstart) hle
  have harray : inv.OfType m (.named "Array") := inv.literal (by decide)
  refine ⟨Nat.le_of_succ_le hle, by simp [Ty.arrayOf, harray, helement], ?_⟩
  refine TypeInvariant.ofConstraints_append.mpr ⟨fun c hc => ?_, fun c hc => ?_⟩
  · obtain ⟨result, hresult, rfl⟩ := mem_map.mp hc
    exact ⟨helement, (hresults result hresult).ofType⟩
  · obtain ⟨result, hresult, hc⟩ := mem_flatMap.mp hc
    exact (hresults result hresult).ofConstraints c hc

/-- The parameter of a function gets a placeholder while the body is solved. -/
theorem parameter_finds (hsolve : inv.Solves solve) (hctx : inv.OfContext checker.counter ctx)
    {param : Param} {body : Term} {result : Solved}
    (hbody : Inference.SolvesBody solve ctx param body checker result final)
    (hterm : body.allFunctions inv.allows) :
    inv.Finds (checker.counter + 1) final.counter result.type result.principal := by
  have hfresh : inv.OfType (checker.counter + 1) (.hole (checker.counter + 1)) :=
    inv.hole (Nat.lt_succ_of_le (inv.start_le hctx)) (Nat.le_refl _)
  exact hsolve hbody (inv.bind (inv.context_mono hctx (Nat.le_succ _)) hfresh) hterm

theorem once_finds (hsolve : inv.Solves solve) (hctx : inv.OfContext checker.counter ctx)
    {value body : Term} {bound result : Solved} {single : Ty} {middle opened : Checker}
    {name : String} {nameLoc : Loc} (hbound : solve ctx value checker = .ok bound middle)
    (hopen : (bound.type.applying bound.principal).instantiate none middle = .ok single opened)
    (hbody : solve (⟨opened.stamp, name, .typed single nameLoc false⟩ :: ctx) body
      { opened with stamp := opened.stamp + 1 } = .ok result final)
    (hvalue : value.allFunctions inv.allows) (hterm : body.allFunctions inv.allows) :
    inv.Finds checker.counter final.counter result.type (bound.principal ++ result.principal) := by
  have hbound := hsolve hbound hctx hvalue
  obtain ⟨hle, hsingle⟩ := inv.instantiate (Nat.le_trans (inv.start_le hctx) hbound.le)
    (inv.applying hbound.ofType hbound.ofConstraints) hopen
  have hbound := hbound.mono hle
  have hresult := hsolve hbody (inv.bind (inv.context_mono hctx hbound.le) hsingle) hterm
  have hbound := hbound.mono hresult.le
  exact ⟨hbound.le, hresult.ofType, by simp [hbound.ofConstraints, hresult.ofConstraints]⟩

theorem elements_find (hsolve : inv.Solves solve) (hctx : inv.OfContext checker.counter ctx)
    {elements : List Term} {results : List Solved}
    (hterms : ∀ element ∈ elements, element.allFunctions inv.allows)
    (hall : Inference.SolvesAll solve ctx elements checker results final) :
    checker.counter ≤ final.counter ∧
      ∀ result ∈ results,
        inv.Finds checker.counter final.counter result.type result.principal := by
  induction hall with
  | nil => simp
  | cons hresult _ ih =>
    rw [forall_mem_cons] at hterms ⊢
    have hresult := hsolve hresult hctx hterms.1
    obtain ⟨hle, hresults⟩ := ih (inv.context_mono hctx hresult.le) hterms.2
    exact ⟨Nat.le_trans hresult.le hle, hresult.mono hle,
      fun other hother => (hresults other hother).after hresult.le⟩

theorem function_finds (hsolve : inv.Solves solve) {param : Option Param} {body : Term}
    {ascribed : Option Ty} {loc : Loc} {inferred : Inferred}
    (hsteps : Inference.Steps solve ctx (.function param body ascribed loc) checker inferred final)
    (hctx : inv.OfContext checker.counter ctx)
    (hterm : (Term.function param body ascribed loc).allFunctions inv.allows) :
    inv.Finds checker.counter final.counter inferred.type inferred.constraints := by
  simp only [allFunctions, and_eq_true] at hterm
  cases hsteps with
  | @thunk _ _ _ _ final hbody =>
    have hresult := hsolve hbody hctx hterm.2
    have hunit : inv.OfType final.counter .unit := inv.literal (by decide)
    exact ⟨hresult.le, by simp [hunit, hresult.ofType], hresult.ofConstraints⟩
  | settled _ hbody hsolution =>
    have hresult := parameter_finds hsolve hctx hbody hterm.2
    have hhole := inv.hole (Nat.lt_succ_of_le (inv.start_le hctx)) hresult.le
    have harg := inv.solutionFor hhole hresult.ofConstraints hsolution
    exact ⟨Nat.le_of_succ_le hresult.le,
      by simp [harg, inv.replaceHole hresult.ofType harg], hresult.ofConstraints⟩
  | @lettered _ _ _ _ name _ _ _ hbody _ _ =>
    have hresult := parameter_finds hsolve hctx hbody hterm.2
    exact ⟨Nat.le_of_succ_le hresult.le, inv.quantified name hterm.1 hresult.ofType,
      hresult.ofConstraints⟩
  | @writtenThunk _ _ _ _ _ _ _ final htype hbody =>
    have hresult := hsolve hbody hctx hterm.2
    have htype := inv.mono (inv.written hctx hterm.1 htype) hresult.le
    have hunit : inv.OfType final.counter .unit := inv.literal (by decide)
    have hparts := inv.arrow.mp htype
    exact ⟨hresult.le, htype, by simp [hparts, hunit, hresult.ofType, hresult.ofConstraints]⟩
  | written htype _ hbody =>
    have htype := inv.written hctx hterm.1 htype
    have hresult := hsolve hbody (inv.bind hctx (inv.arrow.mp htype).1) hterm.2
    have htype := inv.mono htype hresult.le
    have hparts := inv.arrow.mp htype
    exact ⟨hresult.le, htype, by simp [hparts, hresult.ofType, hresult.ofConstraints]⟩
  | writtenGeneric htype hplain =>
    have htype := inv.written hctx hterm.1 htype
    have hplain := hsolve hplain hctx (by simp [allFunctions, inv.allows_none _ htype, hterm.2])
    have htype := inv.mono htype hplain.le
    exact ⟨hplain.le, htype, by simp [htype, hplain.ofType, hplain.ofConstraints]⟩

/-- One level of inference hands the property on if solving the subterms does. -/
theorem finds_of_steps (hsolve : inv.Solves solve) {term : Term} {inferred : Inferred}
    (hsteps : Inference.Steps solve ctx term checker inferred final)
    (hctx : inv.OfContext checker.counter ctx) (hterm : term.allFunctions inv.allows) :
    inv.Finds checker.counter final.counter inferred.type inferred.constraints := by
  have hstart := inv.start_le hctx
  have hstep := hsteps
  cases hsteps with
  | reference htype => exact ⟨Nat.le_refl _, inv.value hctx htype, by simp⟩
  | boolean | number | string | unit =>
    exact ⟨Nat.le_refl _, inv.literal (by decide), by simp⟩
  | emptyRecord => exact ⟨Nat.le_refl _, by simp, by simp⟩
  | thunk | settled | lettered | writtenThunk | written | writtenGeneric =>
    exact function_finds hsolve hstep hctx hterm
  | application hfunc harg hopen =>
    simp only [allFunctions, and_eq_true] at hterm
    have hfn := hsolve hfunc hctx hterm.1
    have ha := hsolve harg (inv.context_mono hctx hfn.le) hterm.2
    have hfinds := (hfn.mono ha.le).apply hstart (ha.after hfn.le) hopen
    exact hfinds
  | conditional hcondition hconsequence halternative =>
    simp only [allFunctions, and_eq_true] at hterm
    have hc := hsolve hcondition hctx hterm.1.1
    have ha := hsolve hconsequence (inv.context_mono hctx hc.le) hterm.1.2
    have hle := Nat.le_trans hc.le ha.le
    have hb := hsolve halternative (inv.context_mono hctx hle) hterm.2
    exact .choose (hc.mono (Nat.le_trans ha.le hb.le)) ((ha.after hc.le).mono hb.le)
      (hb.after hle)
  | @letValue _ _ body _ _ _ _ _ _ _ _ _ hbody hbound =>
    simp only [allFunctions, and_eq_true] at hterm
    have hresult := hsolve hbody hctx (allFunctions_replace hterm.1 body hterm.2)
    have hbound := hsolve hbound (inv.context_mono hctx hresult.le) hterm.1
    have hresult := hresult.mono hbound.le
    exact ⟨hresult.le, hresult.ofType, by simp [hresult.ofConstraints, hbound.ofConstraints]⟩
  | letOnce _ hbound hopen _ hbody =>
    simp only [allFunctions, and_eq_true] at hterm
    have hfinds := once_finds hsolve hctx hbound hopen hbody hterm.1 hterm.2
    exact hfinds
  | extend hrecord _ hval =>
    simp only [allFunctions, and_eq_true] at hterm
    have hbase := hsolve hrecord hctx hterm.2
    have hval := hsolve hval (inv.context_mono hctx hbase.le) hterm.1
    exact (hval.after hbase.le).extend hstart (hbase.mono hval.le)
  | overwrite hrecord _ hbase hval =>
    simp only [allFunctions, and_eq_true] at hterm
    have hfirst := hsolve hrecord hctx hterm.2
    have hctx₁ := inv.context_mono hctx hfirst.le
    have hbase := hsolve hbase hctx₁ hterm.2
    have hval := hsolve hval (inv.context_mono hctx₁ hbase.le) hterm.1
    have hbase := hbase.after hfirst.le
    exact (hval.after hbase.le).extend hstart (hbase.mono hval.le)
  | restrict hrecord =>
    have hbase := hsolve hrecord hctx hterm
    have hle := hbase.le
    exact hbase.select hstart (inv.record.mpr (inv.hole (by omega) (Nat.le_refl _)))
  | access hrecord =>
    have hbase := hsolve hrecord hctx hterm
    have hle := hbase.le
    exact hbase.select hstart (inv.hole (by omega) (Nat.le_succ _))
  | array helements =>
    have hfresh : inv.OfContext { checker with counter := checker.counter + 1 }.counter ctx :=
      inv.context_mono hctx (Nat.le_succ _)
    obtain ⟨hle, hresults⟩ :=
      elements_find hsolve hfresh (allFunctionsIn_iff.mp hterm) helements
    exact .collect hstart hle hresults

theorem infers_infer (inv : InferenceInvariant) (fuel : Nat) : inv.Infers (infer fuel) := by
  induction fuel with
  | zero =>
    intro ctx term checker inferred final hrun
    simp [infer] at hrun
  | succ fuel ih =>
    exact fun _ _ _ _ _ hrun =>
      finds_of_steps (solves_solveWith fuel ih) (Inference.steps_of_step hrun)

/-- Every type and every constraint that is found for a term has the property. -/
theorem solves_solve (inv : InferenceInvariant) (fuel : Nat) : inv.Solves (RowScript.solve fuel) :=
  solves_solveWith fuel (inv.infers_infer fuel)

end InferenceInvariant

end RowScript
