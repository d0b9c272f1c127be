import RowScript.Proofs.SolverInvariant

/-!
# Soundness of solving

The answer of the solver makes the two sides of every constraint equal, for monomorphic types. Each
rule is an inference from the equations it leaves to the equation it was applied to.
-/

namespace RowScript

open Ty List Bool

variable {pending answer : List Constraint}

/-- A convention whose names all stand for monomorphic types. -/
def Ty.Convention.IsMonomorphic (convention : Convention) : Prop :=
  ∀ name a, convention.alias? name = some a → a.isMonomorphic = true

namespace Solver

variable {convention : Ty.Convention} {ctx : Context} {n m id : Nat}
  {lhs rhs ty type tail rest : Ty} {key : String} {found : Constraint} {f : Nat → Ty}
  {solved : List Constraint}

theorem expandApplication_ne_ok {loc : Option Loc} {arg expanded : Ty} {appLoc : Loc}
    (hmono : convention.IsMonomorphic) :
    ∀ {callee : Ty}, callee.isMonomorphic → convention.Admits ctx callee →
      ctx.expandApplication loc callee arg appLoc ≠ .ok expanded := by
  have hunfold : ∀ {callee arg expanded : Ty} {appLoc : Loc}, callee.isMonomorphic = true →
      convention.Admits ctx callee →
      ctx.unfoldApplication loc callee arg appLoc ≠ .ok expanded := by
    intro callee arg expanded appLoc hcallee hadmits hexpanded
    obtain ⟨param, body, -, rfl | ⟨name, nameLoc, rfl, hname⟩⟩ :=
      Context.unfoldApplication_eq_ok hexpanded
    · simp [isMonomorphic] at hcallee
    · have hgeneric := hmono name _ (hadmits _ hname)
      simp [isMonomorphic] at hgeneric
  intro callee
  induction callee generalizing arg expanded appLoc with
  | app inner innerArg innerLoc ih =>
    intro hcallee hadmits hexpanded
    simp only [isMonomorphic, and_eq_true] at hcallee
    simp only [Context.expandApplication, Except.bind_eq_ok] at hexpanded
    obtain ⟨middle, hmiddle, _⟩ := hexpanded
    exact ih hcallee.1 hadmits.1 hmiddle
  | _ => exact hunfold

/-- A row is the pulled field in front of the rest, if the equation found on the way
holds. A name in the row may have been replaced by the row of its record. -/
theorem Pulls.equal_row {row : Ty} (hsuits : convention.Suits ctx)
    (hpulls : Pulls ctx key type tail n row m found rest) (hrow : convention.Admits ctx row)
    (hfound : Equal convention .type (found.1.bindHoles f) (found.2.bindHoles f)) :
    Equal convention .row (row.bindHoles f)
      (.field key (type.bindHoles f) (rest.bindHoles f)) := by
  induction hpulls with
  | here t base => exact .field key hfound.symm (.refl ..)
  | behind t hkey _ ih =>
    exact .trans (.field _ (.refl ..) (ih hrow.2 hfound)) (.swap _ _ _ hkey)
  | extend htail => exact hfound.toRow
  | @declared _ name row rest label found nameLoc hname _ ih =>
    have hname' : convention.alias? name = some (.record row label) := hrow _ hname
    have hrecord := hsuits.admits _ _ hname'
    have hclosed : row.holes = [] := hsuits.closed name (.record row label) hname'
    have hequal := ih hrecord.1 hfound
    rw [bindHoles_of_holes_eq_nil hclosed] at hequal
    exact .trans (.spread nameLoc hname') hequal

/-- The same for a row that starts with a field, in any position. -/
theorem Pulls.equal {k : String} {t b : Ty} (hsuits : convention.Suits ctx)
    (hpulls : Pulls ctx key type tail n (.field k t b) m found rest)
    (hrow : convention.Admits ctx (.field k t b))
    (hfound : Equal convention .type (found.1.bindHoles f) (found.2.bindHoles f)) :
    Equal convention .type ((Ty.field k t b).bindHoles f)
      (.field key (type.bindHoles f) (rest.bindHoles f)) := by
  cases hpulls with
  | here => exact .field key hfound.symm (.refl ..)
  | behind _ hkey hpulls =>
    exact .trans (.field _ (.refl ..) (hpulls.equal_row hsuits hrow.2 hfound))
      (.swap _ _ _ hkey)

/-- Both sides of every equation are monomorphic. -/
def Monomorphic (pending : List Constraint) : Prop :=
  ∀ c ∈ pending, c.1.isMonomorphic = true ∧ c.2.isMonomorphic = true

instance (pending : List Constraint) : Decidable (Monomorphic pending) :=
  inferInstanceAs (Decidable (∀ c ∈ pending, c.1.isMonomorphic = true ∧ c.2.isMonomorphic = true))

theorem Kept.monomorphic (hsuits : convention.Suits ctx) (hmono : convention.IsMonomorphic) :
    Kept ctx fun _ ty => convention.Admits ctx ty ∧ ty.isMonomorphic = true where
  mono hty _ := hty
  fresh _ := ⟨trivial, rfl⟩
  arrow hty := by simpa [Convention.Admits, isMonomorphic, and_and_and_comm] using hty
  app hty := by simpa [Convention.Admits, isMonomorphic, and_and_and_comm] using hty
  field := by simp [Convention.Admits, isMonomorphic, and_and_and_comm]
  record hty := ⟨hty.1.1, hty.2⟩
  opened hgeneric := by simp [isMonomorphic] at hgeneric
  declared hty hname := ⟨hsuits.admits _ _ (hty.1 _ hname), hmono _ _ (hty.1 _ hname)⟩

/-- What satisfies the equations that a rule leaves satisfies the equation that the
rule was applied to. -/
theorem Reduces.equal {new : List Constraint} (hsuits : convention.Suits ctx)
    (hmono : convention.IsMonomorphic) (hreduces : Reduces ctx n lhs rhs m new)
    (hadmits : convention.Admits ctx lhs ∧ convention.Admits ctx rhs)
    (hlhs : lhs.isMonomorphic) (hrhs : rhs.isMonomorphic)
    (hnew : ∀ c ∈ new, Equal convention .type (c.1.bindHoles f) (c.2.bindHoles f)) :
    Equal convention .type (lhs.bindHoles f) (rhs.bindHoles f) := by
  cases hreduces with
  | agree hagrees => exact (Equal.of_agrees hagrees).bindHoles hsuits.closed f
  | unfoldRight _ nameLoc hname =>
    have hunfold : Equal convention .type _ _ := .unfold nameLoc (hadmits.2 _ hname)
    have hdeclared := hnew _ mem_cons_self
    exact hdeclared.trans (hunfold.bindHoles hsuits.closed f).symm
  | unfoldLeft _ nameLoc hname =>
    have hunfold : Equal convention .type _ _ := .unfold nameLoc (hadmits.1 _ hname)
    have hdeclared := hnew _ mem_cons_self
    exact (hunfold.bindHoles hsuits.closed f).trans hdeclared
  | arrow arg ret arg' ret' =>
    exact .arrow (hnew (arg, arg') (by simp)) (hnew (ret, ret') (by simp))
  | generics | genericLeft => simp [isMonomorphic] at hlhs
  | genericRight => simp [isMonomorphic] at hrhs
  | app callee arg callee' arg' appLoc appLoc' =>
    exact .app _ _ (hnew (callee, callee') (by simp)) (hnew (arg, arg') (by simp))
  | expandLeft _ hexpanded =>
    simp only [isMonomorphic, and_eq_true] at hlhs
    exact absurd hexpanded (expandApplication_ne_ok hmono hlhs.1 hadmits.1.1)
  | expandRight _ hexpanded =>
    simp only [isMonomorphic, and_eq_true] at hrhs
    exact absurd hexpanded (expandApplication_ne_ok hmono hrhs.1 hadmits.2.1)
  | @record label label' row row' hlabels =>
    have hrows := (hnew (row, row') (by simp)).toRow
    have hequal : Equal convention .type ((Ty.record row label).bindHoles f)
        (.record (row'.bindHoles f) label) := .record label hrows
    -- labels differ only where the convention does not look at them
    rcases hadmits with ⟨⟨_, hignored | rfl⟩, _, hignored' | rfl⟩
    · exact hequal.trans (.label _ _ _ hignored)
    · exact hequal.trans (.label _ _ _ hignored)
    · exact hequal.trans (.label _ _ _ hignored')
    · exact hequal
  | @fields _ key k type base t b rest found hpulls =>
    have hfound := hnew found (by simp)
    have hbase := hnew (base, rest) (by simp)
    have hpulled := hpulls.equal hsuits hadmits.2 hfound
    exact .trans (.field key (.refl ..) hbase.toRow) hpulled.symm

theorem Monomorphic.reduce {new rest : List Constraint} (hsuits : convention.Suits ctx)
    (hmono : convention.IsMonomorphic) (hreduces : Reduces ctx n lhs rhs m new)
    (htidy : Tidy convention ctx n ((lhs, rhs) :: rest) solved)
    (hpending : Monomorphic ((lhs, rhs) :: rest)) : Monomorphic (new ++ rest) := by
  obtain ⟨hlhs, hrhs⟩ := hpending (lhs, rhs) mem_cons_self
  obtain ⟨husable, husable'⟩ := htidy.usable (lhs, rhs) mem_cons_self
  intro c hc
  rcases mem_append.mp hc with hc | hc
  · exact ((Kept.monomorphic hsuits hmono).reduces hreduces ⟨husable.admits, hlhs⟩
      ⟨husable'.admits, hrhs⟩ c hc).imp And.right And.right
  · exact hpending c (mem_cons_of_mem _ hc)

theorem Monomorphic.assign {rest : List Constraint} (hassigns : Assigns lhs rhs id ty)
    (hpending : Monomorphic ((lhs, rhs) :: rest)) :
    ty.isMonomorphic ∧ Monomorphic (rest.map (replaceBoth id ty)) := by
  obtain ⟨hlhs, hrhs⟩ := hpending (lhs, rhs) mem_cons_self
  have hty : ty.isMonomorphic := by
    cases hassigns with
    | right => exact hlhs
    | left => exact hrhs
  refine ⟨hty, fun c hc => ?_⟩
  obtain ⟨before, hbefore, rfl⟩ := mem_map.mp hc
  obtain ⟨hfirst, hsecond⟩ := hpending before (mem_cons_of_mem _ hbefore)
  exact ⟨isMonomorphic_replaceHole hfirst hty, isMonomorphic_replaceHole hsecond hty⟩

/-- The types of an answer are monomorphic if those of the constraints are. -/
theorem Solves.monomorphic (hsuits : convention.Suits ctx) (hmono : convention.IsMonomorphic)
    (hsolves : Solves ctx n pending solved m answer) (htidy : Tidy convention ctx n pending solved)
    (hpending : Monomorphic pending) (hsolved : Monomorphic solved) : Monomorphic answer := by
  induction hsolves with
  | done => exact hsolved
  | reduce hreduces _ ih =>
    exact ih (htidy.reduce hsuits hreduces).2 (hpending.reduce hsuits hmono hreduces htidy)
      hsolved
  | assign hassigns _ ih =>
    obtain ⟨hty, hrest⟩ := hpending.assign hassigns
    refine ih (htidy.assign hassigns) hrest fun c hc => ?_
    rcases mem_cons.mp hc with rfl | hc
    · exact ⟨rfl, hty⟩
    · exact hsolved c hc

/-- A substitution makes the two sides of every constraint equal. -/
def Satisfies (convention : Convention) (f : Nat → Ty) (constraints : List Constraint) : Prop :=
  ∀ c ∈ constraints, Equal convention .type (c.1.bindHoles f) (c.2.bindHoles f)

/-- What satisfies the answer of a run satisfies the equations that were open. -/
theorem Solves.satisfies (hsuits : convention.Suits ctx) (hmono : convention.IsMonomorphic)
    (hsolves : Solves ctx n pending solved m answer) (htidy : Tidy convention ctx n pending solved)
    (hpending : Monomorphic pending) (hanswer : Satisfies convention f answer) :
    Satisfies convention f pending := by
  induction hsolves with
  | done => exact fun c hc => by cases hc
  | @reduce _ _ _ lhs rhs _ _ _ _ hreduces _ ih =>
    obtain ⟨hnew, hrest⟩ := forall_mem_append.mp (ih (htidy.reduce hsuits hreduces).2
      (hpending.reduce hsuits hmono hreduces htidy) hanswer)
    obtain ⟨hlhs, hrhs⟩ := hpending (lhs, rhs) mem_cons_self
    obtain ⟨husable, husable'⟩ := htidy.usable (lhs, rhs) mem_cons_self
    exact forall_mem_cons.mpr ⟨hreduces.equal hsuits hmono
      ⟨husable.admits, husable'.admits⟩ hlhs hrhs hnew, hrest⟩
  | @assign _ _ id _ _ ty _ _ _ hassigns hsolves ih =>
    have hid : Equal convention .type (f id) (ty.bindHoles f) := hanswer _ hsolves.mem_answer
    refine forall_mem_cons.mpr ⟨?_, fun c hc => ?_⟩
    · cases hassigns with
      | right => exact hid.symm
      | left => exact hid
    · -- the others were solved after the replacement, which the substitution undoes
      have hequal := ih (htidy.assign hassigns) (hpending.assign hassigns).2 hanswer
        (replaceBoth id ty c) (mem_map_of_mem hc)
      have hreplaced := Equal.bindHoles_replaceHole hid
      exact (hreplaced c.1).symm.trans (hequal.trans (hreplaced c.2))

end Solver

variable {solved : List Constraint}

/-- The answer of a run, taken as a substitution, satisfies itself. -/
theorem SolvedForm.satisfies (hsolved : SolvedForm solved) (convention : Convention) :
    Solver.Satisfies convention (fun i => (Ty.hole i).applying solved) solved := by
  intro c hc
  obtain ⟨id, hid⟩ := hsolved.exists_hole hc
  obtain ⟨lhs, ty⟩ := c
  obtain rfl : lhs = .hole id := hid
  rw [← applying_eq_bindHoles, ← applying_eq_bindHoles, hsolved.applying_hole hc]
  exact .refl ..

/-- Under the answer of a run every equation that was open holds. -/
theorem Solver.Solves.equal {convention : Convention} {ctx : Context} {n m : Nat}
    (hsuits : convention.Suits ctx) (hmono : convention.IsMonomorphic)
    (hsolves : Solves ctx n pending solved m answer) (htidy : Tidy convention ctx n pending solved)
    (hpending : Monomorphic pending) {c : Constraint} (hc : c ∈ pending) :
    Equal convention .type (c.1.applying answer) (c.2.applying answer) := by
  have hform := (hsolves.tidy hsuits htidy).2.1
  have hequal := hsolves.satisfies hsuits hmono htidy hpending (hform.satisfies convention) c hc
  rwa [← applying_eq_bindHoles, ← applying_eq_bindHoles] at hequal

/-- The types that a context declares are monomorphic and have no placeholders. -/
def Context.DeclaresMonomorphic (ctx : Context) : Prop :=
  ∀ name type, ctx.alias? name = some type → type.isMonomorphic = true ∧ type.holes = []

theorem Context.DeclaresMonomorphic.suits {ctx : Context} (hctx : ctx.DeclaresMonomorphic) :
    (Convention.ofContext ctx).Suits ctx where
  closed name type hname := (hctx name type hname).2
  admits _ type _ := Convention.admits_ofContext ctx type

/-- Solved constraints make the two sides of every constraint equal. -/
theorem unify_equates {fuel : Nat} {ctx : Context} {loc : Option Loc}
    {constraints answer : List Constraint} {checker final : Checker}
    (hctx : ctx.DeclaresMonomorphic) (hmono : Solver.Monomorphic constraints)
    (hissued : Solver.Issued checker.counter constraints)
    (hrun : unify fuel ctx loc constraints checker = .ok answer final) :
    ∀ c ∈ constraints, Ty.Equal (.ofContext ctx) .type (c.1.applying answer)
      (c.2.applying answer) := by
  intro c hc
  have hadmits : ∀ c ∈ constraints, (Ty.Convention.ofContext ctx).Admits ctx c.1 ∧
      (Ty.Convention.ofContext ctx).Admits ctx c.2 := fun c _ =>
    ⟨Ty.Convention.admits_ofContext ctx c.1, Ty.Convention.admits_ofContext ctx c.2⟩
  exact (unify_solves hrun).1.equal hctx.suits (fun name type hname => (hctx name type hname).1)
    (.start hadmits hissued) hmono hc

/-- A labelled record with one field, and the type of that field. -/
def planeContext : Context :=
  [⟨1, "Point", .typeAlias (.record (.field "x" (.named "Number") .emptyRow) (some "Point"))
      .synthetic true⟩,
    ⟨0, "Number", .typeParameter⟩]

/-- Rows in different orders, a record and its name, and a name behind a field. -/
def planeConstraints : List Constraint :=
  [(.record (.field "y" (.hole 1) (.field "x" (.hole 2) (.hole 3))) none,
      .record (.field "x" (.named "Number") (.field "y" (.named "Number") .emptyRow)) none),
    (.record (.field "x" (.hole 2) (.hole 3)) none, .named "Point"),
    (.record (.field "x" (.hole 4) (.hole 5)) none,
      .record (.field "z" (.hole 2) (.named "Point")) none)]

def planeAnswer : List Constraint :=
  [(.hole 5, .field "z" (.named "Number") .emptyRow), (.hole 4, .named "Number"),
    (.hole 3, .emptyRow), (.hole 2, .named "Number"), (.hole 1, .named "Number")]

theorem planeContext_declaresMonomorphic : planeContext.DeclaresMonomorphic := by
  intro name type hname
  by_cases hpoint : name = "Point"
  · subst hpoint
    cases hname
    decide
  · by_cases hnumber : name = "Number"
    · subst hnumber
      cases hname
    · simp [Context.alias?, Context.find?, planeContext, Ne.symm hpoint, Ne.symm hnumber] at hname

/-- The plane constraints are solved, and the answer makes their sides equal. -/
theorem unify_equates_plane :
    unify 40 planeContext none planeConstraints { counter := 5 } =
        .ok planeAnswer { counter := 5 } ∧
      ∀ c ∈ planeConstraints, Ty.Equal (.ofContext planeContext) .type
        (c.1.applying planeAnswer) (c.2.applying planeAnswer) := by
  have hrun : unify 40 planeContext none planeConstraints { counter := 5 } =
      .ok planeAnswer { counter := 5 } := rfl
  exact ⟨hrun, unify_equates planeContext_declaresMonomorphic (by decide) (by decide) hrun⟩

end RowScript
