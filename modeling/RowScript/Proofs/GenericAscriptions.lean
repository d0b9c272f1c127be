import RowScript.Proofs.IssuedHoles
import RowScript.Proofs.ScriptCommands
import RowScript.Proofs.SolverCompleteness

/-!
# Functions with a generic written type

Solving opens a generic type with a placeholder, on either side, so a function is accepted if its
type and the written one overlap, that is, if they have an instance in common. With the parameters
in scope as type parameters, the written arrow is held to the letter.
-/

namespace RowScript

open Ty List CheckM

variable {solved : List Constraint}

namespace Ty

section

variable (ctx : Context) (f : Nat → Ty) (fits : Nat → Ty → Ty → Prop)

/-- Two types become equal once their type parameters are chosen, where the two sides are
read under a substitution of placeholders. Choosing a parameter means to put a placeholder
in its place, one that fits the types on both sides. -/
inductive Matches : Position → Ty → Ty → Prop where
  | equal {position : Position} {a b : Ty}
      (hequal : Equal (.ofContext ctx) position (a.bindHoles f) (b.bindHoles f)) :
      Matches position a b
  | convert {position : Position} {a a' b b' : Ty}
      (hleft : Equal (.ofContext ctx) position (a.bindHoles f) (a'.bindHoles f))
      (hright : Equal (.ofContext ctx) position (b.bindHoles f) (b'.bindHoles f))
      (hmatches : Matches position a' b') : Matches position a b
  | arrow {position : Position} {a a' b b' : Ty} (harg : Matches .type a a')
      (hret : Matches .type b b') : Matches position (.arrow a b) (.arrow a' b')
  | app {position : Position} {a a' b b' : Ty} (loc loc' : Loc) (hcallee : Matches .type a a')
      (harg : Matches .type b b') : Matches position (.app a b loc) (.app a' b' loc')
  | record {position : Position} {a a' : Ty} (label label' : Option String)
      (hrow : Matches .row a a') : Matches position (.record a label) (.record a' label')
  | field {position : Position} {a a' b b' : Ty} (key : String) (htype : Matches .type a a')
      (hbase : Matches .row b b') : Matches position (.field key a b) (.field key a' b')
  /-- Two leading parameters are chosen together. -/
  | generics {position : Position} {param param' : String} {body body' : Ty} (id : Nat)
      (hid : fits id body body')
      (hbodies : Matches position (body.replaceName param (.hole id))
        (body'.replaceName param' (.hole id))) :
      Matches position (.generic param body) (.generic param' body')
  | genericLeft {position : Position} {param : String} {body b : Ty} (id : Nat)
      (hid : fits id body b) (hbody : Matches position (body.replaceName param (.hole id)) b) :
      Matches position (.generic param body) b
  | genericRight {position : Position} {param : String} {a body : Ty} (id : Nat)
      (hid : fits id a body) (hbody : Matches position a (body.replaceName param (.hole id))) :
      Matches position a (.generic param body)
  | expandLeft {position : Position} {callee arg expanded b : Ty} {appLoc : Loc}
      {loc : Option Loc} (hexpanded : ctx.expandApplication loc callee arg appLoc = .ok expanded)
      (hmatches : Matches position expanded b) : Matches position (.app callee arg appLoc) b
  | expandRight {position : Position} {callee arg expanded a : Ty} {appLoc : Loc}
      {loc : Option Loc} (hexpanded : ctx.expandApplication loc callee arg appLoc = .ok expanded)
      (hmatches : Matches position a expanded) : Matches position a (.app callee arg appLoc)

end

/-- Two types have an instance in common: any placeholder may be chosen for a parameter, and
so the type that the substitution gives to it. -/
abbrev Overlaps (ctx : Context) (f : Nat → Ty) : Position → Ty → Ty → Prop :=
  Matches ctx f fun _ _ _ => True

namespace Matches

variable {ctx : Context} {f : Nat → Ty} {fits : Nat → Ty → Ty → Prop} {position : Position}
  {a b : Ty}

theorem refl (position : Position) (a : Ty) : Matches ctx f fits position a a :=
  .equal (.refl ..)

theorem toRow (hmatches : Matches ctx f fits position a b) : Matches ctx f fits .row a b := by
  induction hmatches with
  | equal hequal => exact .equal hequal.toRow
  | convert hleft hright _ ih => exact .convert hleft.toRow hright.toRow ih
  | arrow harg hret => exact .arrow harg hret
  | app loc loc' hcallee harg => exact .app loc loc' hcallee harg
  | record label label' hrow => exact .record label label' hrow
  | field key htype hbase => exact .field key htype hbase
  | generics id hid _ ih => exact .generics id hid ih
  | genericLeft id hid _ ih => exact .genericLeft id hid ih
  | genericRight id hid _ ih => exact .genericRight id hid ih
  | expandLeft hexpanded _ ih => exact .expandLeft hexpanded ih
  | expandRight hexpanded _ ih => exact .expandRight hexpanded ih

/-- Only what the substitution makes of the two types matters. -/
theorem congr {a' b' : Ty} (hleft : a.bindHoles f = a'.bindHoles f)
    (hright : b.bindHoles f = b'.bindHoles f) (hmatches : Matches ctx f fits position a' b') :
    Matches ctx f fits position a b := by
  apply Matches.convert _ _ hmatches
  · rw [hleft]
    exact .refl ..
  · rw [hright]
    exact .refl ..

end Matches

end Ty

namespace Solver

variable {ctx : Context} {f : Nat → Ty} {fits : Nat → Ty → Ty → Prop} {n m : Nat}
  {lhs rhs type tail rest t b : Ty} {key k : String} {found : Constraint}
  {others : List Constraint}

/-- A substitution that gives each placeholder what was found for it. -/
def Follows (f : Nat → Ty) (c : Constraint) : Prop := c.1.bindHoles f = c.2.bindHoles f

/-- An open row that is to be extended first is extended by the substitution. -/
def Grown (f : Nat → Ty) (new : List Constraint) : Prop :=
  ∀ id k t b others, new = (.hole id, .field k t b) :: others → Follows f (.hole id, .field k t b)

section

variable (hclosed : (Convention.ofContext ctx).IsClosed)

include hclosed

/-- A row is the pulled field in front of the rest. Either the field was in the row, and its
type is to be equal to the wanted one, or the row was open and has got the wanted field. -/
theorem Pulls.equal_field {row : Ty} (hpulls : Pulls ctx key type tail n row m found rest)
    (hgrown : Grown f (found :: others)) :
    ∃ t, (found = (type, t) ∨ t = type) ∧
      Equal (.ofContext ctx) .row (row.bindHoles f)
        (.field key (t.bindHoles f) (rest.bindHoles f)) := by
  induction hpulls with
  | here t base => exact ⟨t, .inl rfl, .refl ..⟩
  | behind t hkey _ ih =>
    obtain ⟨wanted, hfound, hequal⟩ := ih hgrown
    exact ⟨wanted, hfound, .trans (.field _ (.refl ..) hequal) (.swap _ _ _ hkey)⟩
  | @extend id htail =>
    have hfollows : f id = .field key (type.bindHoles f) (f (n + 1)) := hgrown _ _ _ _ _ rfl
    refine ⟨type, .inr rfl, ?_⟩
    show Equal _ _ (f id) _
    rw [hfollows]
    exact .refl ..
  | @declared _ name row rest label found nameLoc hname _ ih =>
    obtain ⟨wanted, hfound, hequal⟩ := ih hgrown
    have hrow : row.holes = [] := hclosed name (.record row label) hname
    rw [bindHoles_of_holes_eq_nil hrow] at hequal
    exact ⟨wanted, hfound, .trans (.spread nameLoc hname) hequal⟩

/-- The same for a row that starts with a field, in any position. -/
theorem Pulls.equal_field_of_field (hpulls : Pulls ctx key type tail n (.field k t b) m found rest)
    (hgrown : Grown f (found :: others)) :
    ∃ t', (found = (type, t') ∨ t' = type) ∧
      Equal (.ofContext ctx) .type ((Ty.field k t b).bindHoles f)
        (.field key (t'.bindHoles f) (rest.bindHoles f)) := by
  cases hpulls with
  | here => exact ⟨t, .inl rfl, .refl ..⟩
  | behind _ hkey hpulls =>
    obtain ⟨wanted, hfound, hequal⟩ := hpulls.equal_field hclosed hgrown
    exact ⟨wanted, hfound, .trans (.field _ (.refl ..) hequal) (.swap _ _ _ hkey)⟩

/-- The two sides of an equation match if those of the equations do that a rule leaves. -/
theorem Reduces.matches {new : List Constraint} (hreduces : Reduces ctx n lhs rhs m new)
    (hfits : ∀ a b, a.holes = lhs.holes → b.holes = rhs.holes → fits (n + 1) a b)
    (hgrown : Grown f new) (hnew : ∀ c ∈ new, Matches ctx f fits .type c.1 c.2) :
    Matches ctx f fits .type lhs rhs := by
  cases hreduces with
  | agree hagrees => exact .equal ((Equal.of_agrees hagrees).bindHoles hclosed f)
  | @unfoldRight name declared _ nameLoc hname =>
    have hunfold : Equal (.ofContext ctx) .type (.ident name nameLoc) declared :=
      .unfold nameLoc hname
    exact .convert (.refl ..) (hunfold.bindHoles hclosed f) (hnew (lhs, declared) (by simp))
  | @unfoldLeft name declared _ nameLoc hname =>
    have hunfold : Equal (.ofContext ctx) .type (.ident name nameLoc) declared :=
      .unfold nameLoc hname
    exact .convert (hunfold.bindHoles hclosed f) (.refl ..) (hnew (declared, rhs) (by simp))
  | arrow arg ret arg' ret' =>
    exact .arrow (hnew (arg, arg') (by simp)) (hnew (ret, ret') (by simp))
  | generics param param' body body' =>
    exact .generics (n + 1) (hfits _ _ rfl rfl) (hnew _ mem_cons_self)
  | genericLeft param body =>
    exact .genericLeft (n + 1) (hfits _ _ rfl rfl) (hnew _ mem_cons_self)
  | genericRight param _ body =>
    exact .genericRight (n + 1) (hfits _ _ rfl rfl) (hnew _ mem_cons_self)
  | app callee arg callee' arg' appLoc appLoc' =>
    exact .app appLoc appLoc' (hnew (callee, callee') (by simp)) (hnew (arg, arg') (by simp))
  | expandLeft _ hexpanded => exact .expandLeft hexpanded (hnew _ mem_cons_self)
  | expandRight _ hexpanded => exact .expandRight hexpanded (hnew _ mem_cons_self)
  | record row row' _ => exact .record _ _ (hnew (row, row') (by simp)).toRow
  | @fields _ key k type base t b rest found hpulls =>
    obtain ⟨wanted, hfound, hequal⟩ := hpulls.equal_field_of_field hclosed hgrown
    have htype : Matches ctx f fits .type type wanted := by
      rcases hfound with hfound | rfl
      · subst hfound
        exact hnew (type, wanted) (by simp)
      · exact .refl ..
    have hbase : Matches ctx f fits .row base rest := (hnew (base, rest) (by simp)).toRow
    have hpulled : Equal (.ofContext ctx) .type ((field k t b).bindHoles f)
        ((field key wanted rest).bindHoles f) := hequal
    exact .convert (.refl ..) hpulled (.field key htype hbase)

end

/-- An open row that has to have a field is given one: no rule but assignment applies. -/
theorem Solves.mem_of_open_row {id : Nat} {rest answer : List Constraint}
    (hsolves : Solves ctx n ((.hole id, .field k t b) :: rest) solved m answer) :
    (Ty.hole id, Ty.field k t b) ∈ answer := by
  cases hsolves with
  | reduce hreduces _ =>
    cases hreduces with
    | agree hagrees => cases hagrees
  | assign hassigns hsolves =>
    cases hassigns with
    | left =>
      exact hsolves.mem_answer

theorem Solves.grown {new rest answer : List Constraint}
    (hsolves : Solves ctx n (new ++ rest) solved m answer) (hanswer : ∀ c ∈ answer, Follows f c) :
    Grown f new := by
  rintro id k t b others rfl
  exact hanswer _ hsolves.mem_of_open_row

/-- Under a substitution that follows the answer of a run, the two sides of every equation
that was open overlap. -/
theorem Solves.overlaps {pending answer : List Constraint}
    (hclosed : (Convention.ofContext ctx).IsClosed) (hsolves : Solves ctx n pending solved m answer)
    (hanswer : ∀ c ∈ answer, Follows f c) : ∀ c ∈ pending, Overlaps ctx f .type c.1 c.2 := by
  induction hsolves with
  | done => simp
  | @reduce _ _ _ lhs rhs new rest _ answer hreduces hsolves ih =>
    obtain ⟨hnew, hrest⟩ := forall_mem_append.mp (ih hanswer)
    intro c hc
    rcases mem_cons.mp hc with rfl | hc
    · exact hreduces.matches hclosed (fun _ _ _ _ => trivial) (hsolves.grown hanswer) hnew
    · exact hrest c hc
  | @assign _ _ id lhs rhs ty rest _ answer hassigns hsolves ih =>
    have hid : f id = ty.bindHoles f := hanswer _ hsolves.mem_answer
    intro c hc
    rcases mem_cons.mp hc with rfl | hc
    · have hequal : lhs.bindHoles f = rhs.bindHoles f := by
        cases hassigns with
        | right => exact hid.symm
        | left => exact hid
      exact .congr hequal rfl (.refl ..)
    · -- the others were solved after the replacement, which the substitution undoes
      have hreplaced := ih hanswer (replaceBoth id ty c) (mem_map_of_mem hc)
      exact hreplaced.congr (bindHoles_replaceHole hid c.1).symm
        (bindHoles_replaceHole hid c.2).symm

end Solver

/-- The answer of a run, taken as a substitution, follows itself. -/
theorem SolvedForm.follows (hsolved : SolvedForm solved) :
    ∀ c ∈ solved, Solver.Follows (fun i => (Ty.hole i).applying solved) c := by
  intro c hc
  obtain ⟨id, hid⟩ := hsolved.exists_hole hc
  obtain ⟨lhs, ty⟩ := c
  obtain rfl : lhs = .hole id := hid
  show (hole id).applying solved = ty.bindHoles _
  rw [← applying_eq_bindHoles, hsolved.applying_hole hc]

theorem Context.checkIfName_of_normalize {ctx : Context} {loc : Option Loc} {ty normal : Ty}
    (hnormal : ctx.normalize loc ty = .ok normal) : ctx.checkIfName ty loc = .ok () := by
  cases ty with
  | ident name nameLoc =>
    simp only [normalize, Except.bind_eq_ok] at hnormal
    exact hnormal.choose_spec.1
  | _ => rfl

/-- The body of a function is solved with the parameter at the argument of a written arrow.
All names in what is left, which includes that the body has the written result, are type
parameters. -/
structure SolvesWritten (ctx : Context) (param : Param) (body : Term) (arg ret : Ty) (loc : Loc)
    (checker : Checker) (result : Solved) (middle : Checker) : Prop where
  normal : ctx.normalize (some loc) (.arrow arg ret) = .ok (.arrow arg ret)
  takes : arg.agrees .unit = false
  bindable : ctx.checkBindable param.name (some param.loc) = .ok ()
  solves : ∃ enough, ∀ fuel ≥ enough,
    solve fuel (⟨checker.stamp, param.name, .typed arg param.loc false⟩ :: ctx) body
      { checker with stamp := checker.stamp + 1 } = .ok result middle
  rigid : Solver.Rigid ctx ((result.type, ret) :: result.principal)
  issued : Solver.Issued middle.counter ((result.type, ret) :: result.principal)

namespace SolvesWritten

variable {ctx : Context} {param : Param} {body : Term} {arg ret : Ty} {loc : Loc}
  {checker middle : Checker} {result : Solved}
  (hbody : SolvesWritten ctx param body arg ret loc checker result middle)

include hbody

theorem exists_infer : ∃ enough, ∀ fuel ≥ enough,
    infer fuel ctx (.function (some param) body (some (.arrow arg ret)) loc) checker =
      .ok ⟨.arrow arg ret, (result.type, ret) :: result.principal, some result.inner⟩ middle := by
  obtain ⟨enough, hsolves⟩ := hbody.solves
  obtain ⟨_, harg, hrest⟩ := Except.bind_eq_ok.mp hbody.normal
  obtain ⟨_, hret, -⟩ := Except.bind_eq_ok.mp hrest
  refine ⟨enough + 1, fun fuel hfuel => ?_⟩
  obtain ⟨fuel, rfl⟩ : ∃ less, fuel = less + 1 := ⟨fuel - 1, by omega⟩
  simp only [infer, Inference.step, Inference.ascribedFunction, bind_eq_ok, ofExcept_eq_ok]
  refine ⟨_, _, ⟨hbody.normal, rfl⟩, ?_⟩
  simp only [hbody.takes, Bool.false_eq_true, if_false, bind_eq_ok, ofExcept_eq_ok,
    bindName_eq_ok, pure_eq_ok]
  exact ⟨_, _, ⟨Context.checkIfName_of_normalize harg, rfl⟩, _, _,
    ⟨Context.checkIfName_of_normalize hret, rfl⟩, _, _, ⟨hbody.bindable, rfl, rfl⟩, _, _,
    hsolves fuel (by omega), rfl, rfl⟩

/-- The function has the written type if and only if some choice for the placeholders makes
both sides of everything that is left equal, up to the order of fields. No such choice touches
a type parameter. -/
theorem accepted_iff :
    (∃ enough, ∀ fuel ≥ enough, ∃ solved final,
      solve fuel ctx (.function (some param) body (some (.arrow arg ret)) loc) checker =
        .ok solved final) ↔
    ∃ f, Solver.Satisfies .fieldOrder f ((result.type, ret) :: result.principal) := by
  obtain ⟨enough, hinfer⟩ := hbody.exists_infer
  constructor
  · rintro ⟨enough', haccepted⟩
    obtain ⟨solved, final, hrun⟩ := haccepted (max enough enough') (Nat.le_max_right ..)
    simp only [solve, Inference.solveWith, bind_eq_ok, hinfer _ (Nat.le_max_left ..)] at hrun
    obtain ⟨_, _, ⟨rfl, rfl⟩, answer, last, hunify, -⟩ := hrun
    exact ⟨_, Solver.satisfies_of_unify hbody.rigid hbody.issued hunify⟩
  · rintro ⟨f, hsatisfies⟩
    obtain ⟨answer, final, -, ⟨enough', hunify⟩, -⟩ :=
      Solver.exists_unify_of_satisfies hbody.rigid hbody.issued hsatisfies
    refine ⟨max enough enough', fun fuel hfuel =>
      ⟨⟨.arrow arg ret, answer, result.inner⟩, final, ?_⟩⟩
    simp only [solve, Inference.solveWith, bind_eq_ok, pure_eq_ok]
    exact ⟨_, _, hinfer fuel (by omega), answer, final, hunify fuel (by omega), rfl, rfl⟩

end SolvesWritten

/-- A function whose written type is generic is accepted only if it is accepted without the
written type, and the type that is inferred then overlaps the written one. All this is said
under the answer, which is one choice for the placeholders of both. With the parameters in scope
as type parameters, the function is accepted at the arrow behind them if and only if what its
body leaves has a solution. -/
theorem solve_generic_overlaps {fuel : Nat} {ctx : Context} {param : Option Param} {body : Term}
    {ascribed inner : Ty} {name : String} {loc : Loc} {checker final : Checker} {solved : Solved}
    (hctx : ctx.isSettled = true)
    (hterm : (Term.function param body (some ascribed) loc).isClosed = true)
    (htype : ctx.normalize (some loc) ascribed = .ok (.generic name inner))
    (hrun : solve fuel ctx (.function param body (some ascribed) loc) checker =
      .ok solved final) :
    solved.type = .generic name inner ∧
    (∃ plain middle, solve (fuel - 1) ctx (.function param body none loc) checker =
        .ok plain middle ∧
      Ty.Overlaps ctx (fun i => (Ty.hole i).applying solved.principal) .type plain.type
        (.generic name inner) ∧
      ∀ c ∈ plain.principal,
        Ty.Overlaps ctx (fun i => (Ty.hole i).applying solved.principal) .type c.1 c.2) ∧
    ∀ rigid p arg ret result middle,
      rigid = (Ty.generic name inner).params.foldl Context.withTypeParameter ctx →
      param = some p → (Ty.generic name inner).body = .arrow arg ret →
      SolvesWritten rigid p body arg ret loc checker result middle →
      ((∃ enough, ∀ fuel ≥ enough, ∃ solved final,
        solve fuel rigid (.function param body (some (.arrow arg ret)) loc) checker =
          .ok solved final) ↔
      ∃ f, Solver.Satisfies .fieldOrder f ((result.type, ret) :: result.principal)) := by
  simp only [solve, Inference.solveWith, bind_eq_ok, pure_eq_ok] at hrun
  obtain ⟨inferred, middle, hinferred, principal, last, hunify, rfl, rfl⟩ := hrun
  cases fuel with
  | zero => simp [infer] at hinferred
  | succ fuel =>
    have hissued := InferenceInvariant.issued.infers_infer _ hinferred
      (Context.issuedBy_of_isSettled hctx).ofContext hterm
    simp only [infer, Inference.step, Inference.ascribedFunction, bind_eq_ok,
      ofExcept_eq_ok, htype, Except.ok.injEq] at hinferred
    obtain ⟨_, _, ⟨rfl, rfl⟩, hinferred⟩ := hinferred
    simp only [bind_eq_ok, pure_eq_ok] at hinferred
    obtain ⟨plain, c₁, hplain, rfl, rfl⟩ := hinferred
    have hsolves := (unify_solves hunify).1
    have hsuits : (Ty.Convention.ofContext ctx).Suits ctx :=
      (Context.holesIn_of_isSettled (p := fun _ => True) hctx).suits
    have hform := (hsolves.tidy hsuits (Solver.Issued.tidy hissued.ofConstraints)).2.1
    have hoverlaps := hsolves.overlaps hsuits.closed hform.follows
    obtain ⟨htypes, hprincipal⟩ := forall_mem_cons.mp hoverlaps
    refine ⟨rfl, ⟨plain, c₁, hplain, htypes, hprincipal⟩, ?_⟩
    rintro rigid p arg ret result middle - rfl - hbody
    exact hbody.accepted_iff

/-- A generic type of records with one field. -/
def boxContext : Context :=
  [⟨0, "Box", .typeAlias (.generic "t" (.record (.field "content" (.named "t") .emptyRow) none))
    .synthetic false⟩]

/-- The function that takes the content out of a box. -/
def unboxTerm (ascribed : Option Ty) : Term :=
  .function (some ⟨"box", .synthetic⟩)
    (.fieldAccess "content" (.reference "box" .synthetic) .synthetic) ascribed .synthetic

/-- The type of that function, as it is written. -/
def unboxType : Ty :=
  .generic "a" (.arrow (.app (.named "Box") (.named "a") .synthetic) (.named "a"))

/-- The same type behind its parameter, with the box spelled out. -/
def unboxNormal : Ty :=
  .arrow (.record (.field "content" (.named "a") .emptyRow) none) (.named "a")

/-- Taking the content out of a box is accepted. The type inferred for it is that of any
record with the field, which overlaps the written one. -/
theorem solve_generic_overlaps_unbox :
    ∃ solved final, boxContext.isSettled = true ∧ (unboxTerm (some unboxType)).isClosed = true ∧
      solve 20 boxContext (unboxTerm (some unboxType)) {} = .ok solved final ∧
      solved.type = .generic "a" unboxNormal ∧
      (∃ plain middle, solve 19 boxContext (unboxTerm none) {} = .ok plain middle ∧
        Ty.Overlaps boxContext (fun i => (Ty.hole i).applying solved.principal) .type plain.type
          (.generic "a" unboxNormal) ∧
        ∀ c ∈ plain.principal, Ty.Overlaps boxContext
          (fun i => (Ty.hole i).applying solved.principal) .type c.1 c.2) ∧
      ∃ enough, ∀ fuel ≥ enough, ∃ solved final, solve fuel (boxContext.withTypeParameter "a")
        (unboxTerm (some unboxNormal)) {} = .ok solved final := by
  have hyields : (solve 20 boxContext (unboxTerm (some unboxType))).yields {} (fun _ _ => true) =
      true := by decide +kernel
  obtain ⟨solved, final, hrun, -⟩ := exists_of_yields hyields
  have htype : boxContext.normalize (some .synthetic) unboxType =
    .ok (.generic "a" unboxNormal) := rfl
  obtain ⟨hsolved, hplain, hrigid⟩ := solve_generic_overlaps (by decide) (by decide) htype hrun
  have hbody : SolvesWritten (boxContext.withTypeParameter "a") ⟨"box", .synthetic⟩
      (.fieldAccess "content" (.reference "box" .synthetic) .synthetic)
      (.record (.field "content" (.named "a") .emptyRow) none) (.named "a") .synthetic {}
      ⟨.hole 1, [(.hole 2, .emptyRow), (.hole 1, .named "a")], ⟨0, "box", .typed
        (.record (.field "content" (.named "a") .emptyRow) none) .synthetic false⟩ ::
          boxContext.withTypeParameter "a"⟩ { counter := 2, stamp := 1 } :=
    { normal := rfl
      takes := by decide
      bindable := rfl
      solves := ⟨10, fun fuel hfuel => by
        obtain ⟨less, rfl⟩ := Nat.exists_eq_add_of_le' hfuel
        rfl⟩
      rigid := by decide
      issued := by decide }
  exact ⟨solved, final, by decide, by decide, hrun, hsolved, hplain,
    (hrigid _ _ _ _ _ _ rfl rfl rfl hbody).mpr
      ⟨fun i => if i = 1 then .named "a" else .emptyRow, by decide⟩⟩

/-- The identity function with a written type. -/
def identityAs (ascribed : Ty) : Term :=
  .function (some ⟨"x", .synthetic⟩) (.reference "x" .synthetic) (some ascribed) .synthetic

/-- The identity function is accepted as a conversion from any type to any other. It is not
a function from one type parameter to another. -/
theorem solve_identity_as_conversion :
    ∃ globals loaded, preludeContext 60 {} = .ok globals loaded ∧
      (∃ solved final, solve 60 globals (identityAs (.generic "a" (.generic "b"
          (.arrow (.named "a") (.named "b"))))) loaded = .ok solved final) ∧
      ∃ fault final, solve 60 ((globals.withTypeParameter "a").withTypeParameter "b")
          (identityAs (.arrow (.named "a") (.named "b"))) loaded = .error fault final ∧
        fault.cause = .mismatch (.incompatible (.named "a") (.named "b")) := by
  have hyields : (preludeContext 60).yields {} (fun globals loaded =>
      (solve 60 globals (identityAs (.generic "a" (.generic "b"
        (.arrow (.named "a") (.named "b")))))).yields loaded (fun _ _ => true) &&
      (solve 60 ((globals.withTypeParameter "a").withTypeParameter "b")
        (identityAs (.arrow (.named "a") (.named "b")))).fails loaded (fun fault =>
          fault.cause = .mismatch (.incompatible (.named "a") (.named "b")))) = true := by
    rw [preludeContext_eq]
    decide +kernel
  obtain ⟨globals, loaded, hglobals, htest⟩ := exists_of_yields hyields
  rw [Bool.and_eq_true] at htest
  obtain ⟨solved, final, hsolved, -⟩ := exists_of_yields htest.1
  obtain ⟨fault, final', hfault, hcause⟩ := exists_of_fails htest.2
  exact ⟨globals, loaded, hglobals, ⟨solved, final, hsolved⟩, fault, final', hfault,
    of_decide_eq_true hcause⟩

end RowScript
