import RowScript.Proofs.ContextImages
import RowScript.Proofs.InferenceRules
import RowScript.Proofs.SolverRules

/-!
# The contexts that inference builds

The context as seen from inside a term belongs to a larger heap. The entries of the context at the
start are still there: only placeholders that are newer than all of them are replaced.
-/

namespace RowScript

open Term

open Bool (and_eq_true)

open Context (Heap Grown Fits Retains)

/-- What a checker remembers of commands that are done. -/
def Checker.remembered (checker : Checker) :
    List (Loc × List (String × Ty)) × List (Loc × Context) :=
  (checker.instantiations, checker.evaluated)

namespace Inference

variable {start : Option Nat} {S T : Context → Prop} {checker middle final : Checker}
  {post post' : (Context → Prop) → Prop} {ctx inner : Context} {loc : Option Loc} {ty : Ty}
  {bound : Nat}

/-- A step that draws no stamps and leaves alone what is remembered. -/
structure Quiet (checker final : Checker) : Prop where
  stamp : final.stamp = checker.stamp
  remembered : final.remembered = checker.remembered
  counter : checker.counter ≤ final.counter

/-- A step that leads to a larger heap and leaves alone what is remembered. -/
structure Keeps (start : Option Nat) (S : Context → Prop) (checker final : Checker)
    (post : (Context → Prop) → Prop) : Prop where
  remembered : final.remembered = checker.remembered
  counter : checker.counter ≤ final.counter
  grown : Grown start S final.stamp post

theorem quiet_refl (checker : Checker) : Quiet checker checker := ⟨rfl, rfl, Nat.le_refl _⟩

theorem Keeps.bind (hfirst : Keeps start S checker middle post)
    (hsecond : ∀ T, Heap start middle.stamp T → (∀ c, S c → T c) → post T →
      Keeps start T middle final post') : Keeps start S checker final post' := by
  obtain ⟨hremembered, hcounter, T, hheap, hle, hpost⟩ := hfirst
  obtain ⟨hremembered', hcounter', T', hheap', hle', hpost'⟩ := hsecond T hheap hle hpost
  exact ⟨hremembered'.trans hremembered, Nat.le_trans hcounter hcounter', T', hheap',
    fun c hc => hle' c (hle c hc), hpost'⟩

theorem Keeps.imp (hkeeps : Keeps start S checker final post) (himp : ∀ T, post T → post' T) :
    Keeps start S checker final post' := by
  obtain ⟨hremembered, hcounter, T, hheap, hle, hpost⟩ := hkeeps
  exact ⟨hremembered, hcounter, T, hheap, hle, himp T hpost⟩

theorem Quiet.keeps (hquiet : Quiet checker final) (hheap : Heap start checker.stamp S)
    (hpost : post S) : Keeps start S checker final post :=
  ⟨hquiet.remembered, hquiet.counter, S, hquiet.stamp ▸ hheap, fun _ hc => hc, hpost⟩

theorem Quiet.bind (hquiet : Quiet checker middle) (hkeeps : Keeps start S middle final post) :
    Keeps start S checker final post :=
  ⟨hkeeps.remembered.trans hquiet.remembered, Nat.le_trans hquiet.counter hkeeps.counter,
    hkeeps.grown⟩

theorem Keeps.after (hkeeps : Keeps start S checker middle post) (hquiet : Quiet middle final) :
    Keeps start S checker final post :=
  hkeeps.bind fun _ hT _ hpost => hquiet.keeps hT hpost

theorem quiet_fresh (checker : Checker) (n : Nat) :
    Quiet checker { checker with counter := checker.counter + n } :=
  ⟨rfl, rfl, Nat.le_add_right _ _⟩

theorem Quiet.trans (hfirst : Quiet checker middle) (hsecond : Quiet middle final) :
    Quiet checker final :=
  ⟨hsecond.stamp.trans hfirst.stamp, hsecond.remembered.trans hfirst.remembered,
    Nat.le_trans hfirst.counter hsecond.counter⟩

theorem keeps_push (hheap : Heap start checker.stamp S) (hctx : S ctx)
    (name : String) (type : Ty) (nameLoc : Loc) :
    Keeps start S checker { checker with stamp := checker.stamp + 1 } fun T =>
      T (⟨checker.stamp, name, .typed type nameLoc false⟩ :: ctx) :=
  ⟨rfl, Nat.le_refl _, hheap.push name hctx (Context.fits_typed ..)⟩

theorem keeps_ofStamped {x : Stamped Context}
    (hgrown : Grown start S (x checker.stamp).2 fun T => T (x checker.stamp).1) :
    Keeps start S checker { checker with stamp := (x checker.stamp).2 } fun T =>
      T (x checker.stamp).1 :=
  ⟨rfl, Nat.le_refl _, hgrown⟩

theorem heap_replaceParameter {next : Nat} (hheap : Heap start next S)
    (hctx : S ctx) (id : Nat) (type : Ty) :
    Grown start S (replaceParameter id type ctx next).2 fun T =>
      T (replaceParameter id type ctx next).1 := by
  unfold replaceParameter
  split
  · exact hheap.grown hctx
  · obtain ⟨T, hT, hle, himage⟩ :=
      hheap.mapTypes (f := (·.replace? (.hole id) type)) hctx False False.elim False.elim
    exact ⟨T, hT, hle, himage.mem⟩

theorem quiet_unify {fuel : Nat} {constraints answer : List Constraint}
    (hrun : unify fuel ctx loc constraints checker = .ok answer final) : Quiet checker final := by
  obtain ⟨hsolves, heq⟩ := unify_solves hrun
  rw [heq]
  exact ⟨rfl, rfl, hsolves.counter_le⟩

theorem quiet_instantiateFirst {n : Nat} {result : List (String × Nat) × Ty}
    (hrun : ty.instantiateFirst n checker = .ok result final) : Quiet checker final := by
  induction n generalizing ty checker result final with
  | zero =>
    cases hrun
    exact quiet_refl _
  | succ n ih =>
    cases ty with
    | generic param body =>
      simp only [Ty.instantiateFirst, CheckM.bind_eq_ok, CheckM.freshHole_eq_ok,
        CheckM.pure_eq_ok] at hrun
      obtain ⟨id, _, ⟨rfl, rfl⟩, rest, _, hrest, rfl, rfl⟩ := hrun
      exact (quiet_fresh checker 1).trans (ih hrest)
    | _ =>
      cases hrun
      exact quiet_refl _

theorem quiet_instantiate {body : Ty} (hrun : ty.instantiate loc checker = .ok body final) :
    Quiet checker final := by
  simp only [Ty.instantiate, CheckM.bind_eq_ok] at hrun
  obtain ⟨⟨holes, opened⟩, middle, hfirst, hrun⟩ := hrun
  have hquiet := quiet_instantiateFirst hfirst
  cases loc with
  | none =>
    obtain ⟨-, rfl⟩ := CheckM.pure_eq_ok.mp hrun
    exact hquiet
  | some loc =>
    cases hholes : holes.isEmpty with
    | true =>
      simp only [hholes] at hrun
      obtain ⟨-, rfl⟩ := CheckM.pure_eq_ok.mp hrun
      exact hquiet
    | false =>
      simp only [hholes] at hrun
      cases hrun
      exact ⟨hquiet.stamp, hquiet.remembered, hquiet.counter⟩

/-- A context of a heap that retains what is older than a placeholder, if stamps can be
trusted all the way back. -/
structure Extends (start : Option Nat) (S : Context → Prop) (bound : Nat) (scope ctx : Context) :
    Prop where
  mem : S ctx
  retains : start = none → Retains bound scope ctx

theorem extends_refl (hctx : S ctx) : Extends start S bound ctx ctx :=
  ⟨hctx, fun _ _ hbase _ => hbase⟩

theorem Extends.mono {later : Nat} {scope : Context} (hext : Extends start S later scope ctx)
    (hS : ∀ c, S c → T c) (hle : bound ≤ later) : Extends start T bound scope ctx :=
  ⟨hS _ hext.mem, fun hstart => (hext.retains hstart).anti hle⟩

/-- What is solved for a term in a context of a heap belongs to a larger one. -/
def SolvesInHeap (solve : Context → Term → CheckM Solved) : Prop :=
  ∀ ⦃ctx term checker solved final⦄, solve ctx term checker = .ok solved final →
    ∀ ⦃start S⦄, (start.isSome = true → term.isClosed = true) → Heap start checker.stamp S → S ctx →
    Keeps start S checker final fun T => Extends start T checker.counter ctx solved.inner

section Step

variable {solve : Context → Term → CheckM Solved} (hsolve : SolvesInHeap solve)
  (hheap : Heap start checker.stamp S) (hctx : S ctx) {result : Solved} {solved : List Solved}

include hsolve hheap hctx

theorem SolvesInHeap.body {name : String} {type : Ty} {nameLoc : Loc} {body : Term}
    (hrun : solve (⟨checker.stamp, name, .typed type nameLoc false⟩ :: ctx) body { checker with
      stamp := checker.stamp + 1 } = .ok result final)
    (hbody : start.isSome = true → body.isClosed = true) :
    Keeps start S checker final fun T => Extends start T checker.counter ctx result.inner := by
  refine (keeps_push hheap hctx name type nameLoc).bind fun T hT _ hbodyCtx => ?_
  exact (hsolve hrun hbody hT hbodyCtx).imp fun T hext =>
    ⟨hext.mem, fun hstart => (hext.retains hstart).of_cons⟩

theorem all_keep {terms : List Term} (hall : SolvesAll solve ctx terms checker solved final)
    (hterms : start.isSome → ∀ term ∈ terms, term.isClosed) :
    Keeps start S checker final fun T =>
      T ctx ∧ ∀ s ∈ solved, Extends start T checker.counter ctx s.inner := by
  induction hall generalizing S with
  | nil => exact (quiet_refl _).keeps hheap ⟨hctx, by simp⟩
  | cons hresult _ ih =>
    simp only [List.forall_mem_cons, forall_and] at hterms
    have hfirst := hsolve hresult hterms.1 hheap hctx
    refine hfirst.bind fun T hT hle hresult => ?_
    obtain ⟨hremembered, hcounter, T', hT', hle', hctx', hresults⟩ := ih hT (hle _ hctx) hterms.2
    refine ⟨hremembered, hcounter, T', hT', hle', hctx', List.forall_mem_cons.mpr
      ⟨hresult.mono hle' (Nat.le_refl _), fun other hother => ?_⟩⟩
    exact (hresults other hother).mono (fun _ hc => hc) hfirst.counter

/-- Subterms are solved one after the other, and what they bind is joined. -/
theorem parts_keep {parts : List Term} {opened : Checker}
    (hall : SolvesAll solve ctx parts checker solved final) (hquiet : Quiet final opened)
    (hterms : start.isSome → ∀ part ∈ parts, part.isClosed) :
    Keeps start S checker { opened with stamp := (mergeInner ctx solved opened.stamp).2 } fun T =>
      Extends start T checker.counter ctx (mergeInner ctx solved opened.stamp).1 := by
  refine (all_keep hsolve hheap hctx hall hterms).bind
    fun T hT hle ⟨hctx, hresults⟩ => hquiet.bind ?_
  refine (keeps_ofStamped (Heap.mergeInner (hquiet.stamp ▸ hT) hctx
    fun s hs => (hresults s hs).mem)).imp fun T' hmerged => ⟨hmerged, fun hstart => ?_⟩
  exact .mergeInner (fun _ hbase _ => hbase) fun s hs => (hresults s hs).retains hstart

/-- The body of a function is solved with a placeholder for its parameter, which is replaced
in what the body binds. -/
theorem parameter_keeps {param : Param} {body : Term}
    (hbody : SolvesBody solve ctx param body checker result final)
    (hterm : start.isSome → body.isClosed) (type : Ty) :
    Keeps start S checker
      { final with
        stamp := (replaceParameter (checker.counter + 1) type result.inner final.stamp).2 }
      fun T => Extends start T checker.counter ctx
        (replaceParameter (checker.counter + 1) type result.inner final.stamp).1 := by
  have hfresh : Heap start { checker with counter := checker.counter + 1 }.stamp S := hheap
  refine (quiet_fresh checker 1).bind ((hsolve.body hfresh hctx hbody hterm).bind
    fun T hT _ hinner => ?_)
  refine (keeps_ofStamped (heap_replaceParameter hT hinner.mem _ _)).imp
    fun T' himage => ⟨himage, fun hstart => ?_⟩
  subst hstart
  have hretains := (hinner.retains rfl).anti (Nat.le_succ _)
  unfold replaceParameter
  split
  · exact hretains
  · exact hretains.replace hT hinner.mem (Nat.lt_succ_self _) type

end Step

/-- One level of inference stays in the heap if the subterms do. -/
theorem keeps_of_steps {solve : Context → Term → CheckM Solved} (hsolve : SolvesInHeap solve)
    {term : Term} {inferred : Inferred}
    (hsteps : Steps solve ctx term checker inferred final)
    (hterm : start.isSome → term.isClosed) (hheap : Heap start checker.stamp S)
    (hctx : S ctx) :
    Keeps start S checker final fun T =>
      Extends start T checker.counter ctx (inferred.inner.getD ctx) := by
  simp only [isClosed] at hterm
  cases hsteps with
  | reference | boolean | number | string | unit | emptyRecord =>
    exact (quiet_refl _).keeps hheap (extends_refl hctx)
  | thunk hbody => exact hsolve hbody hterm hheap hctx
  | settled _ hbody _ => exact parameter_keeps hsolve hheap hctx hbody hterm _
  | @lettered _ _ _ _ name _ _ _ hbody _ _ =>
    refine (parameter_keeps hsolve hheap hctx hbody hterm (.named name)).bind
      fun T hT _ hinner => ?_
    refine (keeps_ofStamped (hT.extend name hinner.mem Context.fits_typeParameter)).imp
      fun T' htop => ⟨htop, fun hstart => ?_⟩
    exact (hinner.retains hstart).suffix (List.suffix_cons _ _)
  | writtenThunk _ hbody =>
    simp only [allFunctions, and_eq_true, forall_and] at hterm
    exact hsolve hbody hterm.2 hheap hctx
  | written _ _ hbody =>
    simp only [allFunctions, and_eq_true, forall_and] at hterm
    exact hsolve.body hheap hctx hbody hterm.2
  | writtenGeneric _ hplain =>
    simp only [allFunctions, and_eq_true, forall_and] at hterm
    exact hsolve hplain hterm.2 hheap hctx
  | application hfunc harg hopen =>
    simp only [allFunctions, and_eq_true] at hterm
    exact parts_keep hsolve hheap hctx (.pair hfunc harg)
      ((quiet_fresh _ 1).trans (quiet_instantiate hopen)) (by simpa [isClosed] using hterm)
  | conditional hcondition hconsequence halternative =>
    simp only [allFunctions, and_eq_true, and_assoc] at hterm
    exact parts_keep hsolve hheap hctx (.cons hcondition (.pair hconsequence halternative))
      (quiet_refl _) (by simpa [isClosed] using hterm)
  | @letValue name _ body _ _ _ _ _ _ _ _ _ hbody hbound =>
    -- the value is kept with its type and its context, on top of what the body binds
    simp only [allFunctions, and_eq_true, forall_and] at hterm
    refine (hsolve hbody (fun h => allFunctions_replace (hterm.1 h) body (hterm.2 h)) hheap
      hctx).bind fun T₁ hT₁ hle₁ hresult => ?_
    refine (hsolve hbound hterm.1 hT₁ (hle₁ _ hctx)).bind fun T₂ hT₂ hle₂ hbound => ?_
    have hresult := hresult.mono hle₂ (Nat.le_refl _)
    refine (keeps_ofStamped (hT₂.extend name hresult.mem (Context.fits_defined hterm.1
      fun _ hinner => Option.some.inj hinner ▸ hbound.mem))).imp
      fun T htop => ⟨htop, fun hstart => ?_⟩
    exact (hresult.retains hstart).suffix (List.suffix_cons _ _)
  | @letOnce _ _ _ _ _ _ _ _ _ _ opened _ _ hbound hopen _ hbody =>
    simp only [allFunctions, and_eq_true, forall_and] at hterm
    have hfirst := hsolve hbound hterm.1 hheap hctx
    refine hfirst.bind fun T₁ hT₁ hle₁ hbound => ?_
    have hquiet := quiet_instantiate hopen
    have hT₁ : Heap start opened.stamp T₁ := hquiet.stamp ▸ hT₁
    refine hquiet.bind ((hsolve.body hT₁ (hle₁ _ hctx) hbody hterm.2).bind
      fun T₂ hT₂ hle₂ hresult => ?_)
    have hresult := hresult.mono (fun _ hc => hc) (Nat.le_trans hfirst.counter hquiet.counter)
    refine (keeps_ofStamped (hT₂.merge hresult.mem (hle₂ _ hbound.mem))).imp
      fun T hmerged => ⟨hmerged, fun hstart => ?_⟩
    exact (hresult.retains hstart).suffix (Context.suffix_merge ..)
  | extend hrecord _ hval =>
    simp only [allFunctions, and_eq_true] at hterm
    exact (parts_keep hsolve hheap hctx (.pair hrecord hval) (quiet_fresh _ 2)
      (by simpa [isClosed, and_comm] using hterm))
  | overwrite hrecord _ hbase hval =>
    -- what the first run bound is dropped
    simp only [allFunctions, and_eq_true] at hterm
    have hfirst := hsolve hrecord (fun h => (hterm h).2) hheap hctx
    refine hfirst.bind fun T hT hle _ => ?_
    refine (parts_keep hsolve hT (hle _ hctx) (.pair hbase hval) (quiet_fresh _ 2)
      (by simpa [isClosed, allFunctions, and_comm] using hterm)).imp fun T' hext => ?_
    exact hext.mono (fun _ hc => hc) hfirst.counter
  | restrict hrecord | access hrecord =>
    exact (hsolve hrecord hterm hheap hctx).after (quiet_fresh _ 2)
  | array helements =>
    have hfresh : Heap start { checker with counter := checker.counter + 1 }.stamp S := hheap
    refine (quiet_fresh checker 1).bind ((parts_keep hsolve hfresh hctx helements (quiet_refl _)
      fun h => allFunctionsIn_iff.mp (hterm h)).imp fun T hext => ?_)
    exact hext.mono (fun _ hc => hc) (Nat.le_succ _)

end Inference

/-- The context as seen from inside a term that is solved belongs to a larger heap. -/
theorem solvesInHeap_solve (fuel : Nat) : Inference.SolvesInHeap (solve fuel) := by
  refine Inference.solve_induction (fun ih hsteps hunify start S hterm hheap hctx => ?_) fuel
  exact (Inference.keeps_of_steps ih hsteps hterm hheap hctx).after (Inference.quiet_unify hunify)

end RowScript
