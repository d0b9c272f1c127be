import RowScript.Proofs.ContextImages
import RowScript.Proofs.InferenceCalls
import RowScript.Proofs.SolverFaults

/-!
# Names that are defined already

A name can be bound once along a chain, and a copy of a function brings its parameter along.
`Term.bindsAnew` follows the written term and asks of every inlined name whether its value fits
where it is used.
-/

namespace RowScript

open Context Term CheckM List

open Bool (and_eq_true)

namespace Term

/-- Whether what stands in the place of a name can be put where some names are bound. -/
abbrev Fits := String → (String → Bool) → Bool

/-- Names that are hidden by binders stand for themselves and can be put anywhere. -/
def Fits.without (fits : Fits) (hidden : String → Bool) : Fits :=
  fun n => if hidden n then fun _ => true else fits n

/-- The value that a name stands for fits where it does. -/
def Fits.insert (fits : Fits) (name : String) (value : (String → Bool) → Bool) : Fits :=
  fun n => if n = name then value else fits n

mutual

/-- Whether no name is bound that is bound already, neither in a term nor in the values that are
put in on the way. -/
def bindsAnew (copies : Copies) (fits : Fits) (bound : String → Bool) : Term → Bool
  | .reference name _ => fits name bound
  | .boolean _ | .number _ | .string _ | .unit _ | .emptyRecord _ => true
  | .function param body _ _ =>
    param.all (fun p => !bound p.name) &&
      bindsAnew (copies.without (hides param)) (fits.without (hides param))
        (fun n => hides param n || bound n) body
  | .letIn name value body _ _ =>
    !bound name && bindsAnew copies fits bound value &&
      -- the name of an inlined value is not bound while the body is inferred
      if (fill copies value).isValue then
        bindsAnew ((copies.without (· = name)).insert name (fill copies value))
          (fits.insert name fun there => bindsAnew copies fits there value) bound body
      else
        bindsAnew (copies.without (· = name)) (fits.without (· = name))
          (fun n => decide (n = name) || bound n) body
  | .application a b _ | .recordExtend _ a b _ =>
    bindsAnew copies fits bound a && bindsAnew copies fits bound b
  | .conditional a b c _ =>
    bindsAnew copies fits bound a && bindsAnew copies fits bound b && bindsAnew copies fits bound c
  | .recordRestrict _ record _ | .fieldAccess _ record _ => bindsAnew copies fits bound record
  | .array elements _ => bindAnew copies fits bound elements

def bindAnew (copies : Copies) (fits : Fits) (bound : String → Bool) : List Term → Bool
  | [] => true
  | term :: rest => bindsAnew copies fits bound term && bindAnew copies fits bound rest

end

theorem bindAnew_eq_all {copies : Copies} {fits : Fits} {bound : String → Bool}
    {terms : List Term} :
    bindAnew copies fits bound terms = terms.all (bindsAnew copies fits bound) := by
  induction terms with
  | nil => rfl
  | cons term rest ih => rw [bindAnew, ih, all_cons]

/-! ## Names bound once -/

/-- The names that a term binds are bound once, and they are new. What stands in the places of
its free names fits wherever some other names are not bound. -/
structure Clear (fits : Fits) (bound : String → Bool) (others : List String) (term : Term) :
    Prop where
  distinct : term.binders.Nodup
  apart : ∀ b ∈ term.binders, b ∉ others
  unbound : ∀ b, b ∈ term.binders ∨ b ∈ others → bound b = false
  fits : ∀ n ∈ term.freeNames, ∀ there, (∀ b ∈ others, there b = false) → fits n there

variable {copies : Copies} {fits : Fits} {bound : String → Bool} {others : List String}
  {term inner : Term}

theorem Clear.part (hclear : Clear fits bound others term)
    (hbinders : inner.binders.Sublist term.binders) (hnames : inner.freeNames ⊆ term.freeNames) :
    Clear fits bound others inner where
  distinct := hclear.distinct.sublist hbinders
  apart b hb := hclear.apart b (hbinders.subset hb)
  unbound b hb := hclear.unbound b (hb.imp_left (hbinders.subset ·))
  fits n hn := hclear.fits n (hnames hn)

theorem Clear.body {param : Option Param} {body : Term} {ascribed : Option Ty} {loc : Loc}
    (hclear : Clear fits bound others (.function param body ascribed loc)) :
    Clear (fits.without (hides param)) (fun n => hides param n || bound n) others body := by
  have hhides (n : String) (hn : hides param n) : n ∈ (param.map (·.name)).toList := by
    cases param with
    | none => cases hn
    | some p => simpa [hides, eq_comm] using hn
  have hdistinct := nodup_append.mp hclear.distinct
  refine ⟨hdistinct.2.1, fun b hb => hclear.apart b (mem_append_right _ hb), fun b hb => ?_,
    fun n hn there hthere => ?_⟩
  · rw [Bool.or_eq_false_iff, Bool.eq_false_iff]
    refine ⟨fun hparam => ?_, hclear.unbound b (hb.imp_left (mem_append_right _))⟩
    obtain hb | hb := hb
    · exact hdistinct.2.2 b (hhides b hparam) b hb rfl
    · exact hclear.apart b (mem_append_left _ (hhides b hparam)) hb
  · unfold Fits.without
    split
    · rfl
    · rename_i hshown
      exact hclear.fits n (mem_filter.mpr ⟨hn, by simpa [hides] using hshown⟩) there hthere

/-- Names that are bound once, and nowhere else, are bound anew. -/
theorem bindsAnew_of_clear (term : Term) (hclear : Clear fits bound others term) :
    term.bindsAnew copies fits bound := by
  induction term using induct generalizing copies fits bound others with
  | reference name loc =>
    exact hclear.fits name (mem_singleton_self _) bound
      fun b hb => hclear.unbound b (.inr hb)
  | boolean | number | string | unit | emptyRecord => rfl
  | function param body ascribed loc ih =>
    rw [bindsAnew, ih hclear.body, Bool.and_true]
    cases param with
    | none => rfl
    | some p => simpa using hclear.unbound p.name (.inl (mem_append_left _ (by simp)))
  | application a b loc iha ihb | recordExtend _ a b loc iha ihb =>
    rw [bindsAnew, iha (hclear.part (sublist_append_left ..) (subset_append_left ..)),
      ihb (hclear.part (sublist_append_right ..) (subset_append_right ..)),
      Bool.and_true]
  | conditional a b c loc iha ihb ihc =>
    have hfirst : Clear fits bound others (.application a b loc) :=
      hclear.part (sublist_append_left ..) (subset_append_left ..)
    rw [bindsAnew, iha (hfirst.part (sublist_append_left ..) (subset_append_left ..)),
      ihb (hfirst.part (sublist_append_right ..) (subset_append_right ..)),
      ihc (hclear.part (sublist_append_right ..) (subset_append_right ..))]
    rfl
  | recordRestrict _ a _ ih | fieldAccess _ a _ ih =>
    exact ih (hclear.part (.refl _) fun _ hn => hn)
  | array elements loc ih =>
    rw [bindsAnew, bindAnew_eq_all, all_eq_true]
    intro element helement
    have helementNames : element.freeNames ⊆ freeNamesIn elements := fun n hn =>
      mem_freeNamesIn.mpr ⟨element, helement, hn⟩
    exact ih element helement (hclear.part (binders_sublist_of_mem helement) helementNames)
  | letIn name value body nameLoc loc ihvalue ihbody =>
    have hdistinct := hclear.distinct
    rw [binders, nodup_cons, mem_append, not_or, nodup_append] at hdistinct
    have hvalue : Clear fits bound others value :=
      hclear.part ((sublist_append_left ..).cons name) (subset_append_left ..)
    have happly (b : String) (hb : b ∈ body.binders) :
        b ∈ (letIn name value body nameLoc loc).binders :=
      mem_cons_of_mem _ (mem_append_right _ hb)
    have hfits (n : String) (hn : n ∈ body.freeNames) (hname : n ≠ name) :=
      hclear.fits n (mem_append_right _ (mem_filter.mpr ⟨hn, by simpa using hname⟩))
    rw [bindsAnew, hclear.unbound name (.inl mem_cons_self), ihvalue hvalue]
    split
    · -- the names that the value binds are bound wherever it is put in
      have hbody : Clear (fits.insert name fun there => value.bindsAnew copies fits there) bound
          (value.binders ++ others) body := by
        refine ⟨hdistinct.2.2.1, fun b hb => ?_, fun b hb => ?_, fun n hn there hthere => ?_⟩
        · rw [mem_append, not_or]
          exact ⟨fun hvalue => hdistinct.2.2.2 b hvalue b hb rfl, hclear.apart b (happly b hb)⟩
        · obtain hb | hb := hb
          · exact hclear.unbound b (.inl (happly b hb))
          · exact hvalue.unbound b (mem_append.mp hb)
        · rw [forall_mem_append] at hthere
          unfold Fits.insert
          split
          · have hvalueThere : Clear fits there others value :=
              { hvalue with unbound := fun b hb => hb.elim (hthere.1 b) (hthere.2 b) }
            exact ihvalue hvalueThere
          · rename_i hname
            exact hfits n hn hname there hthere.2
      exact ihbody hbody
    · have hbody : Clear (fits.without (· = name)) (fun n => decide (n = name) || bound n) others
          body := by
        refine ⟨hdistinct.2.2.1, fun b hb => hclear.apart b (happly b hb), fun b hb => ?_,
          fun n hn there hthere => ?_⟩
        · rw [Bool.or_eq_false_iff, decide_eq_false_iff_not]
          refine ⟨?_, hclear.unbound b (hb.imp_left (happly b))⟩
          rintro rfl
          exact hb.elim hdistinct.1.2 (hclear.apart b mem_cons_self)
        · unfold Fits.without
          split
          · rfl
          · rename_i hname
            exact hfits n hn (by simpa using hname) there hthere
      exact ihbody hbody

end Term

/-! ## Faults of one level -/

/-- Causes other than a name that is defined already. -/
def Fault.Cause.Fresh (cause : Fault.Cause) : Prop := ∀ name, cause ≠ .redefined name

theorem Solver.IsCause.fresh {cause : Fault.Cause} (hcause : Solver.IsCause cause) :
    cause.Fresh := by
  rintro name rfl
  obtain hcause | hcause := hcause <;> cases hcause

namespace Inference

theorem raises_instantiate {P : Fault.Cause → Prop} (ty : Ty) (loc : Option Loc) :
    (ty.instantiate loc).Raises P := by
  have hfirst (n : Nat) (ty : Ty) : (ty.instantiateFirst n).Raises P := by
    induction n generalizing ty with
    | zero => exact .pure _
    | succ n ih =>
      cases ty with
      | generic param body =>
        exact Raises.freshHole.bind fun _ => (ih _).bind fun _ => .pure _
      | _ => exact .pure _
  refine (hfirst _ ty).bind fun found => ?_
  cases loc with
  | none => exact .pure _
  | some loc =>
    cases hholes : found.1.isEmpty with
    | true =>
      simp only [hholes]
      exact .pure _
    | false =>
      simp only [hholes]
      exact .of_ok fun _ => ⟨_, _, rfl⟩

variable {name : String} {loc : Option Loc}

theorem raises_valueType {ctx : Context} :
    RowScript.Raises Fault.Cause.Fresh (ctx.valueType name loc) := by
  unfold valueType
  split
  · exact .pure _
  · exact .pure _
  all_goals exact .throw fun _ hcause => by cases hcause

theorem raises_checkBindable {ctx : Context} (hname : ctx.binds name = false) :
    RowScript.Raises Fault.Cause.Fresh (ctx.checkBindable name loc) := by
  unfold checkBindable
  rw [hname]
  split
  · exact .throw fun _ hcause => by cases hcause
  · exact .pure _

theorem raises_nextTypeVariable {ctx : Context} {taken : List String} :
    RowScript.Raises Fault.Cause.Fresh (ctx.nextTypeVariable loc taken) := by
  unfold nextTypeVariable
  split
  · exact .pure _
  · exact .throw fun _ hcause => by cases hcause

theorem raises_bindName {α : Type} {ctx : Context} {binding : Binding} {f : Context → CheckM α}
    (hname : ctx.binds name = false)
    (hf : ∀ stamp, (f (⟨stamp, name, binding⟩ :: ctx)).Raises Fault.Cause.Fresh) :
    (bindName ctx name binding loc >>= f).Raises Fault.Cause.Fresh := by
  refine Raises.bind_ok ?_ fun extended checker final hrun => ?_
  · exact (Raises.ofExcept (raises_checkBindable hname)).bind fun _ => .ofStamped _
  · obtain ⟨-, rfl, -⟩ := bindName_eq_ok.mp hrun
    exact hf checker.stamp final

/-! ## What a term is judged by -/

/-- The check decides for a term, in every context: where it passes, inference does not complain
about a name that is defined already, and inference succeeds only where it passes. -/
def Judges (check : (String → Bool) → Bool) (term : Term) : Prop :=
  ∀ ctx fuel, (check ctx.binds = true → (infer fuel ctx term).Raises Fault.Cause.Fresh) ∧
    ∀ checker inferred final, infer fuel ctx term checker = .ok inferred final →
      check ctx.binds = true

variable {check : (String → Bool) → Bool} {term : Term} {ctx : Context} {fuel : Nat}
  {copies : Copies} {fits : Fits}

theorem Judges.raises (hjudges : Judges check term) (hcheck : check ctx.binds) :
    (solve fuel ctx term).Raises Fault.Cause.Fresh :=
  ((hjudges ctx fuel).1 hcheck).bind fun _ =>
    ((raises_unify _ _ _ _).mono fun _ => Solver.IsCause.fresh).bind fun _ => .pure _

theorem Judges.passes (hjudges : Judges check term) {checker final : Checker} {solved : Solved}
    (hrun : solve fuel ctx term checker = .ok solved final) : check ctx.binds := by
  simp only [solve, solveWith, bind_eq_ok] at hrun
  obtain ⟨inferred, middle, hinferred, -⟩ := hrun
  exact (hjudges ctx fuel).2 checker inferred middle hinferred

/-- A check decides for a term if it does for one level of inference. -/
theorem judges_of_step
    (hraises : ∀ ctx fuel, check ctx.binds → (step (solve fuel) ctx term).Raises Fault.Cause.Fresh)
    (hpasses : ∀ ctx fuel checker inferred final,
      Steps (solve fuel) ctx term checker inferred final → check ctx.binds) :
    Judges check term := by
  intro ctx fuel
  cases fuel with
  | zero =>
    have houtOfFuel : (Fault.Cause.outOfFuel).Fresh := fun _ hcause => by cases hcause
    exact ⟨fun _ => .throw houtOfFuel, fun _ _ _ hrun => by cases hrun⟩
  | succ fuel =>
    exact ⟨hraises ctx fuel, fun checker inferred final hrun =>
      hpasses ctx fuel checker inferred final (steps_of_step hrun)⟩

/-- The checks for the names of a term decide for their copies. -/
structure Agrees (copies : Copies) (fits : Fits) : Prop where
  none : ∀ n, copies n = none → ∀ bound, fits n bound
  some : ∀ n copy, copies n = some copy → Judges (fits n) copy

theorem Agrees.without (hagrees : Agrees copies fits) (hidden : String → Bool) :
    Agrees (copies.without hidden) (fits.without hidden) where
  none n hn bound := by
    unfold Copies.without at hn
    unfold Fits.without
    split at hn
    · rename_i hhidden
      rw [if_pos hhidden]
    · rename_i hshown
      rw [if_neg hshown]
      exact hagrees.none n hn bound
  some n copy hn := by
    unfold Copies.without at hn
    unfold Fits.without
    split at hn
    · cases hn
    · rename_i hshown
      rw [if_neg hshown]
      exact hagrees.some n copy hn

theorem Agrees.insert (hagrees : Agrees copies fits) {value : Term} (hvalue : Judges check value) :
    Agrees ((copies.without (· = name)).insert name value) (fits.insert name check) where
  none n hn bound := by
    by_cases hname : n = name
    · simp [Copies.insert, hname] at hn
    · simp only [Copies.insert, Copies.without, hname, decide_false, if_false,
        Bool.false_eq_true] at hn
      simpa [Fits.insert, hname] using hagrees.none n hn bound
  some n copy hn := by
    by_cases hname : n = name
    · simp only [Copies.insert, hname, if_true, Option.some.injEq] at hn
      simpa [Fits.insert, hname, ← hn] using hvalue
    · simp only [Copies.insert, Copies.without, hname, decide_false, if_false,
        Bool.false_eq_true] at hn
      simpa [Fits.insert, hname] using hagrees.some n copy hn

section Step

variable {param : Option Param} {func arg condition consequence alternative : Term}
  {body value record : Term} {second third inner : (String → Bool) → Bool}

theorem judges_field (hrecord : Judges check record) (key : String) (loc : Loc) :
    Judges check (.recordRestrict key record loc) ∧ Judges check (.fieldAccess key record loc) := by
  constructor <;> refine judges_of_step (fun ctx fuel hcheck => ?_) fun _ _ _ _ _ hsteps => ?_
  any_goals exact (hrecord.raises hcheck).bind fun _ => Raises.freshHole.bind fun _ =>
    Raises.freshHole.bind fun _ => .pure _
  · cases hsteps with
    | restrict hrecord' => exact hrecord.passes hrecord'
  · cases hsteps with
    | access hrecord' => exact hrecord.passes hrecord'

theorem judges_application (hfunc : Judges check func) (harg : Judges second arg) (loc : Loc) :
    Judges (fun bound => check bound && second bound) (.application func arg loc) := by
  refine judges_of_step (fun ctx fuel hcheck => ?_) fun _ _ _ _ _ hsteps => ?_
  · rw [and_eq_true] at hcheck
    exact (hfunc.raises hcheck.1).bind fun _ => (harg.raises hcheck.2).bind fun _ =>
      Raises.freshHole.bind fun _ => (raises_instantiate _ _).bind fun _ =>
        (Raises.ofStamped _).bind fun _ => .pure _
  · rw [and_eq_true]
    cases hsteps with
    | application hfunc' harg' => exact ⟨hfunc.passes hfunc', harg.passes harg'⟩

theorem judges_conditional (hcondition : Judges check condition)
    (hconsequence : Judges second consequence) (halternative : Judges third alternative)
    (loc : Loc) :
    Judges (fun bound => check bound && second bound && third bound)
      (.conditional condition consequence alternative loc) := by
  refine judges_of_step (fun ctx fuel hcheck => ?_) fun _ _ _ _ _ hsteps => ?_
  · simp only [and_eq_true] at hcheck
    exact (hcondition.raises hcheck.1.1).bind fun _ =>
      (hconsequence.raises hcheck.1.2).bind fun _ => (halternative.raises hcheck.2).bind fun _ =>
        (Raises.ofStamped _).bind fun _ => .pure _
  · simp only [and_eq_true]
    cases hsteps with
    | conditional hfirst hthen helse =>
      exact ⟨⟨hcondition.passes hfirst, hconsequence.passes hthen⟩, halternative.passes helse⟩

theorem judges_array {check : Term → (String → Bool) → Bool} {elements : List Term}
    (fill : Term → Term) (helements : ∀ element ∈ elements, Judges (check element) (fill element))
    (loc : Loc) :
    Judges (fun bound => elements.all (check · bound)) (.array (elements.map fill) loc) := by
  refine judges_of_step (fun ctx fuel hcheck => ?_) fun _ _ _ _ _ hsteps => ?_
  · rw [all_eq_true] at hcheck
    refine CheckM.Raises.freshHole.bind fun _ => CheckM.Raises.bind
      (.mapM fun filled hfilled => ?_) fun _ => (CheckM.Raises.ofStamped _).bind fun _ => .pure _
    obtain ⟨element, helement, rfl⟩ := mem_map.mp hfilled
    exact (helements element helement).raises (hcheck element helement)
  · cases hsteps with
    | array hall =>
      refine all_eq_true.mpr fun element helement => ?_
      obtain ⟨_, _, _, hresult⟩ := hall.exists_of_mem _ (mem_map_of_mem helement)
      exact (helements element helement).passes hresult

/-- A function binds its parameter, and then its body decides. -/
theorem judges_function (hbody : Judges inner body) (loc : Loc) :
    Judges (fun bound => param.all (fun p => !bound p.name) &&
      inner fun n => hides param n || bound n) (.function param body none loc) := by
  have hscope (p : Param) (ctx : Context) (stamp : Nat) (binding : Binding) :
      (fun n => hides (some p) n || ctx.binds n) =
        binds (⟨stamp, p.name, binding⟩ :: ctx) := by
    funext n
    rw [binds_cons]
    simp [hides, eq_comm]
  refine judges_of_step (fun ctx fuel hcheck => ?_) fun _ _ _ _ _ hsteps => ?_
  · rw [and_eq_true] at hcheck
    cases param with
    | none => exact (hbody.raises hcheck.2).bind fun _ => .pure _
    | some p =>
      refine Raises.freshHole.bind fun id => ?_
      refine raises_bindName (by simpa using hcheck.1) fun stamp => ?_
      have hinner := hcheck.2
      rw [hscope p ctx stamp] at hinner
      refine (hbody.raises hinner).bind fun result => ?_
      split
      · exact (Raises.ofStamped _).bind fun _ => .pure _
      · exact (Raises.ofExcept raises_nextTypeVariable).bind fun _ =>
          (Raises.ofStamped _).bind fun _ => .pure _
  · rw [and_eq_true]
    cases hsteps with
    | thunk hrun => exact ⟨rfl, hbody.passes hrun⟩
    | settled hbindable hrun | lettered hbindable hrun =>
      have hfree := checkBindable_iff.mp hbindable
      rw [and_eq_true] at hfree
      refine ⟨hfree.2, ?_⟩
      rw [hscope]
      exact hbody.passes hrun

theorem judges_letIn {inlined : (String → Bool) → Bool} (hvalue : Judges check value)
    (hinlined : value.isValue → Judges inlined (body.replace name value))
    (hbody : value.isValue = false → Judges inner body) (nameLoc loc : Loc) :
    Judges (fun bound => !bound name && check bound &&
      if value.isValue then inlined bound else inner fun n => decide (n = name) || bound n)
      (.letIn name value body nameLoc loc) := by
  have hscope (ctx : Context) (stamp : Nat) (binding : Binding) :
      (fun n => decide (n = name) || ctx.binds n) =
        binds (⟨stamp, name, binding⟩ :: ctx) := by
    funext n
    rw [binds_cons]
  refine judges_of_step (fun ctx fuel hcheck => ?_) fun _ _ _ _ _ hsteps => ?_
  · simp only [and_eq_true, Bool.not_eq_true'] at hcheck
    obtain ⟨⟨hname, hcheck⟩, hinside⟩ := hcheck
    simp only [step]
    split
    · rename_i hisValue
      rw [if_pos hisValue] at hinside
      refine (Raises.ofExcept (raises_checkBindable hname)).bind fun _ => ?_
      refine ((hinlined hisValue).raises hinside).bind fun _ => ?_
      exact (hvalue.raises hcheck).bind fun _ => (Raises.ofStamped _).bind fun _ => .pure _
    · rename_i hisValue
      rw [if_neg hisValue] at hinside
      refine (hvalue.raises hcheck).bind fun _ => (raises_instantiate _ _).bind fun _ => ?_
      refine raises_bindName hname fun stamp => ?_
      rw [hscope ctx stamp] at hinside
      exact ((hbody (Bool.eq_false_iff.mpr hisValue)).raises hinside).bind fun _ =>
        (Raises.ofStamped _).bind fun _ => .pure _
  · cases hsteps with
    | letValue hisValue hbindable hrun hbound =>
      have hfree := checkBindable_iff.mp hbindable
      rw [and_eq_true] at hfree
      rw [hfree.2, hvalue.passes hbound, if_pos hisValue]
      exact (hinlined hisValue).passes hrun
    | letOnce hisValue hbound _ hbindable hrun =>
      have hfree := checkBindable_iff.mp hbindable
      rw [and_eq_true] at hfree
      rw [hfree.2, hvalue.passes hbound, if_neg (by simp [hisValue]), hscope]
      exact (hbody hisValue).passes hrun

theorem judges_recordExtend (hvalue : Judges check value) (hrecord : Judges second record)
    (key : String) (loc : Loc) :
    Judges (fun bound => check bound && second bound)
      (.recordExtend key value record loc) := by
  refine judges_of_step (fun ctx fuel hcheck => ?_) fun _ _ _ _ _ hsteps => ?_
  · rw [and_eq_true] at hcheck
    rw [step_recordExtend]
    refine (hrecord.raises hcheck.2).bind fun known => CheckM.Raises.bind ?_ fun base => ?_
    · split
      · exact (judges_field hrecord key loc).1.raises hcheck.2
      · exact .pure _
    · exact (hvalue.raises hcheck.1).bind fun _ => Raises.freshHole.bind fun _ =>
        Raises.freshHole.bind fun _ => (Raises.ofStamped _).bind fun _ => .pure _
  · rw [and_eq_true]
    cases hsteps with
    | extend hrun _ hval | overwrite hrun _ _ hval =>
      exact ⟨hvalue.passes hval, hrecord.passes hrun⟩

end Step

/-- A term with copies in it is judged by the written term and the checks for the copies. -/
theorem judges_fill {scope : List String}
    (hbare : term.allFunctions (fun _ ascribed => ascribed.isNone))
    (hapart : term.bindsApart scope) (hnames : ∀ n ∈ term.freeNames, n ∈ scope)
    (hcopies : copies.Within scope fun _ => True) (hagrees : Agrees copies fits) :
    Judges (fun bound => term.bindsAnew copies fits bound) (term.fill copies) := by
  induction term using Term.induct generalizing scope copies fits with
  | reference name loc =>
    cases hcopy : copies name with
    | some copy => simpa [fill, bindsAnew, hcopy] using hagrees.some name copy hcopy
    | none =>
      rw [fill, hcopy]
      refine judges_of_step (fun ctx fuel _ => ?_) fun ctx _ _ _ _ _ =>
        hagrees.none name hcopy ctx.binds
      exact (Raises.ofExcept raises_valueType).bind fun _ => .pure _
  | boolean | number | string | unit | emptyRecord =>
    exact judges_of_step (fun ctx fuel _ => .pure _) fun ctx _ _ _ _ _ => rfl
  | function param body ascribed loc ih =>
    rw [allFunctions, and_eq_true, Option.isNone_iff_eq_none] at hbare
    obtain ⟨rfl, hbare⟩ := hbare
    rw [bindsApart, and_eq_true] at hapart
    have hinside := (hcopies.without (hides param)).mono fun n hn =>
      mem_append_right (param.map (·.name)).toList hn
    exact judges_function (ih hbare hapart.2 (mem_scope_of_body hnames) hinside
      (hagrees.without _)) loc
  | application a b loc iha ihb =>
    simp only [allFunctions, bindsApart, and_eq_true, freeNames,
      forall_mem_append] at hbare hapart hnames
    exact judges_application (iha hbare.1 hapart.1 hnames.1 hcopies hagrees)
      (ihb hbare.2 hapart.2 hnames.2 hcopies hagrees) loc
  | recordExtend key a b loc iha ihb =>
    simp only [allFunctions, bindsApart, and_eq_true, freeNames,
      forall_mem_append] at hbare hapart hnames
    exact judges_recordExtend (iha hbare.1 hapart.1 hnames.1 hcopies hagrees)
      (ihb hbare.2 hapart.2 hnames.2 hcopies hagrees) key loc
  | conditional a b c loc iha ihb ihc =>
    simp only [allFunctions, bindsApart, and_eq_true, freeNames,
      forall_mem_append] at hbare hapart hnames
    exact judges_conditional (iha hbare.1.1 hapart.1.1 hnames.1.1 hcopies hagrees)
      (ihb hbare.1.2 hapart.1.2 hnames.1.2 hcopies hagrees)
      (ihc hbare.2 hapart.2 hnames.2 hcopies hagrees) loc
  | recordRestrict key a loc ih =>
    exact (judges_field (ih hbare hapart hnames hcopies hagrees) key loc).1
  | fieldAccess key a loc ih =>
    exact (judges_field (ih hbare hapart hnames hcopies hagrees) key loc).2
  | array elements loc ih =>
    rw [fill, fillAll_eq_map]
    simp only [bindsAnew, bindAnew_eq_all]
    refine judges_array _ (fun element helement => ?_) loc
    refine ih element helement (allFunctionsIn_iff.mp hbare element helement)
      (bindApart_iff.mp hapart element helement) (fun n hn => ?_) hcopies hagrees
    exact hnames n (mem_freeNamesIn.mpr ⟨element, helement, hn⟩)
  | letIn name value body nameLoc loc ihvalue ihbody =>
    simp only [bindsApart, and_eq_true, Bool.not_eq_true', contains_eq_mem,
      decide_eq_false_iff_not] at hapart
    rw [allFunctions, and_eq_true] at hbare
    have hvalueNames : ∀ n ∈ value.freeNames, n ∈ scope :=
      fun n hn => hnames n (mem_append_left _ hn)
    have hvalue := ihvalue hbare.1 hapart.1.2 hvalueNames hcopies hagrees
    have hinside : (copies.without (· = name)).Within (name :: scope) fun _ => True :=
      (hcopies.without _).mono fun n hn => mem_cons_of_mem _ hn
    have hbodyNames := mem_scope_of_declared hnames
    have hbody := ihbody hbare.2 hapart.2 hbodyNames hinside (hagrees.without _)
    -- where the value is put in, it is judged by the check for the value as written
    have hinlined := ihbody hbare.2 hapart.2 hbodyNames
      (hinside.insert trivial fun n hn =>
        mem_cons_of_mem _ (hcopies.freeNames_fill hvalueNames n hn))
      (hagrees.insert hvalue)
    rw [← hcopies.replace_fill hapart.1.1] at hinlined
    exact judges_letIn hvalue (fun _ => hinlined) (fun _ => hbody) nameLoc loc

end Inference

/-- Inference of a term without written types complains about a name that is defined already
only if a name is not bound anew, in the term or in the values that are put in, and it never
succeeds then. Names that are bound once, and not in the context, are all bound anew. Names
that are merely bound apart need not be: a copy of a value binds its names again where it is
put in. -/
theorem infer_bindsAnew {term : Term}
    (hbare : term.allFunctions (fun _ ascribed => ascribed.isNone) = true)
    (hapart : term.bindsApart term.freeNames = true) (ctx : Context) (fuel : Nat) :
    (term.bindsAnew .empty (fun _ _ => true) ctx.binds = true → ∀ checker fault final,
      infer fuel ctx term checker = .error fault final → ∀ name, fault.cause ≠ .redefined name) ∧
    (∀ checker inferred final, infer fuel ctx term checker = .ok inferred final →
      term.bindsAnew .empty (fun _ _ => true) ctx.binds = true) ∧
    (term.binders.Nodup → (∀ name ∈ term.binders, ctx.binds name = false) →
      term.bindsAnew .empty (fun _ _ => true) ctx.binds = true) := by
  have hagrees : Inference.Agrees .empty fun _ _ => true :=
    ⟨fun _ _ _ => rfl, fun _ _ hcopy => by cases hcopy⟩
  have hjudges := Inference.judges_fill hbare hapart (fun _ hn => hn) .empty hagrees
  rw [fill_empty] at hjudges
  refine ⟨fun hanew checker fault final hrun => ?_, (hjudges ctx fuel).2, fun hdistinct hnew => ?_⟩
  · exact (hjudges ctx fuel).1 hanew checker fault final hrun
  · have hclear : Term.Clear (fun _ _ => true) ctx.binds [] term := by
      refine ⟨hdistinct, by simp, fun b hb => hnew b (by simpa using hb), fun _ _ _ _ => rfl⟩
    exact bindsAnew_of_clear term hclear

/-- Declares the identity function, with a parameter `x`, for a term. -/
def withIdentity (body : Term) : Term :=
  .letIn "f" (.function (some ⟨"x", .synthetic⟩) (.reference "x" .synthetic) none .synthetic) body
    .synthetic .synthetic

/-- The name `x` is bound again next to a copy of the declared function. -/
theorem infer_bindsAnew_beside :
    let term := withIdentity (.array [.reference "f" .synthetic,
      .function (some ⟨"x", .synthetic⟩) (.reference "x" .synthetic) none .synthetic] .synthetic)
    term.binders = ["f", "x", "x"] ∧
      term.bindsAnew .empty (fun _ _ => true) (Context.binds []) = true ∧
      ∀ fuel checker fault final, infer fuel [] term checker = .error fault final →
        ∀ name, fault.cause ≠ .redefined name :=
  ⟨rfl, rfl, fun fuel => (infer_bindsAnew rfl rfl [] fuel).1 rfl⟩

/-- The name `x` is not bound inside its own scope, and yet it is defined already where the
copy of the function is put in. -/
theorem infer_redefined_inlined :
    let term := withIdentity (.function (some ⟨"x", .synthetic⟩) (.application
      (.reference "f" .synthetic) (.reference "x" .synthetic) .synthetic) none .synthetic)
    term.allFunctions (fun _ ascribed => ascribed.isNone) = true ∧
      term.bindsApart term.freeNames = true ∧
      (∀ name ∈ term.binders, reservedWords.contains name = false ∧
        Context.binds [] name = false) ∧
      ∃ fault final, infer 9 [] term {} = .error fault final ∧ fault.cause = .redefined "x" := by
  refine ⟨rfl, rfl, by decide, ?_⟩
  have hfails : (infer 9 [] (withIdentity (.function (some ⟨"x", .synthetic⟩) (.application
      (.reference "f" .synthetic) (.reference "x" .synthetic) .synthetic) none .synthetic))).fails
      {} (fun fault => fault.cause = .redefined "x") = true := by decide +kernel
  obtain ⟨fault, final, hrun, hcause⟩ := exists_of_fails hfails
  exact ⟨fault, final, hrun, of_decide_eq_true hcause⟩

end RowScript
