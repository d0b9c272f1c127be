import RowScript.Proofs.GenericAscriptions
import RowScript.Proofs.IdempotentAnswers

/-!
# Equations between generic types

Two generic types are accepted as equal when they have an instance in common. `Ty.Coincides` is what
their equality should mean: they are the same up to the names of their parameters. Where nothing had
to be found the types coincide; where something was found, they need not.
-/

namespace RowScript

open Ty List Bool

namespace Ty

/-- A type with placeholders in the place of its first type parameters. -/
def openWith : List Nat → Ty → Ty
  | id :: ids, .generic param body => openWith ids (body.replaceName param (.hole id))
  | _, ty => ty

/-- Types that are the same up to the names of type parameters, the order of fields, the
labels of records and the names and applications of declared types. A placeholder that
occurs in neither type stands for a parameter, and it is equal to nothing but itself. A
parameter that the other type says nothing about does not matter. -/
abbrev Coincides (ctx : Context) : Position → Ty → Ty → Prop :=
  Matches ctx .hole fun id a b => id ∉ a.holes ∧ id ∉ b.holes

end Ty

/-! ## An empty answer -/

namespace Solver

variable {ctx : Context} {n m : Nat} {lhs rhs : Ty} {pending solved answer : List Constraint}

/-- Where nothing had to be found, the two sides of every equation coincide. -/
theorem Solves.coincides (hsuits : (Convention.ofContext ctx).Suits ctx)
    (hsolves : Solves ctx n pending solved m answer)
    (htidy : Tidy (.ofContext ctx) ctx n pending solved) (hanswer : answer = []) :
    ∀ c ∈ pending, Coincides ctx .type c.1 c.2 := by
  induction hsolves with
  | done => simp
  | @reduce _ _ _ lhs rhs new rest _ answer hreduces hsolves ih =>
    subst hanswer
    obtain ⟨hnew, hrest⟩ := forall_mem_append.mp
      (ih (htidy.reduce hsuits hreduces).2 rfl)
    obtain ⟨hlhs, hrhs⟩ := htidy.usable (lhs, rhs) mem_cons_self
    intro c hc
    rcases mem_cons.mp hc with rfl | hc
    · refine hreduces.matches hsuits.closed (fun a b ha hb => ?_)
        (hsolves.grown (forall_mem_nil _)) hnew
      rw [ha, hb]
      exact ⟨fun hmem => Nat.not_succ_le_self _ (hlhs.issued _ hmem),
        fun hmem => Nat.not_succ_le_self _ (hrhs.issued _ hmem)⟩
    · exact hrest c hc
  | assign hassigns hsolves ih =>
    subst hanswer
    exact absurd hsolves.mem_answer not_mem_nil

theorem Solves.eq_of_nil (hsolves : Solves ctx n [] solved m answer) : answer = solved := by
  cases hsolves
  rfl

/-- A placeholder is handed out only where a row ends in another one. -/
theorem Pulls.eq_or_grows {key : String} {type tail row rest : Ty} {found : Constraint}
    (hclosed : (Convention.ofContext ctx).IsClosed)
    (hpulls : Pulls ctx key type tail n row m found rest) :
    m = n ∨ ∃ id k t b, found = (.hole id, .field k t b) ∧ id ∈ row.holes := by
  induction hpulls with
  | here => exact .inl rfl
  | behind t hkey _ ih =>
    refine ih.imp_right ?_
    rintro ⟨id, k, u, b, hfound, hid⟩
    exact ⟨id, k, u, b, hfound, mem_append_right _ hid⟩
  | extend => exact .inr ⟨_, _, _, _, rfl, mem_singleton_self _⟩
  | @declared _ name row _ label _ nameLoc hname _ ih =>
    refine ih.imp_right ?_
    rintro ⟨id, k, u, b, hfound, hid⟩
    have hrow : row.holes = [] := hclosed name (.record row label) hname
    rw [hrow] at hid
    cases hid

theorem Reduces.eq_or_grows {new : List Constraint} (hclosed : (Convention.ofContext ctx).IsClosed)
    (hreduces : Reduces ctx n lhs rhs m new) (hlhs : lhs.isMonomorphic) (hrhs : rhs.isMonomorphic) :
    m = n ∨ ∃ id k t b others, new = (.hole id, .field k t b) :: others ∧ id ∈ rhs.holes := by
  cases hreduces with
  | generics | genericLeft => cases hlhs
  | genericRight => cases hrhs
  | fields hpulls =>
    refine (hpulls.eq_or_grows hclosed).imp_right ?_
    rintro ⟨id, k, t, b, rfl, hid⟩
    exact ⟨id, k, t, b, _, rfl, hid⟩
  | _ => exact .inl rfl

/-- If the placeholders of monomorphic equations stay as they are, nothing is found. Up to the
first assignment there are no others, and what is assigned does not stay as it is. -/
theorem Solves.eq_nil_of_unbound {known : List Nat} (hctx : ctx.DeclaresMonomorphic)
    (hsolves : Solves ctx n pending solved m answer) (hsolved : solved = [])
    (htidy : Tidy (.ofContext ctx) ctx n pending solved) (hmono : Monomorphic pending)
    (hholes : ∀ c ∈ pending, (∀ i ∈ c.1.holes, i ∈ known) ∧ ∀ i ∈ c.2.holes, i ∈ known)
    (hform : SolvedForm answer)
    (hunbound : ∀ i ∈ known, (Ty.hole i).applying answer = .hole i) : answer = [] := by
  have hbound {i : Nat} {u : Ty} (hmem : (Ty.hole i, u) ∈ answer) : i ∉ known := by
    intro hi
    apply hform.not_mem_holes_applying hmem (.hole i)
    rw [hunbound i hi]
    exact mem_singleton_self i
  induction hsolves with
  | done => exact hsolved
  | @reduce n m _ lhs rhs new rest _ answer hreduces hsolves ih =>
    obtain ⟨⟨hlhs, hrhs⟩, hrest⟩ := forall_mem_cons.mp hholes
    obtain ⟨hlhsMono, hrhsMono⟩ := hmono _ mem_cons_self
    have hnext := (htidy.reduce hctx.suits hreduces).2
    obtain rfl | ⟨id, k, t, b, others, rfl, hid⟩ :=
      hreduces.eq_or_grows hctx.suits.closed hlhsMono hrhsMono
    · have hmono := hmono.reduce hctx.suits (fun name a ha => (hctx name a ha).1) hreduces htidy
      refine ih hsolved hnext hmono (forall_mem_append.mpr ⟨fun c hc => ?_, hrest⟩) hform hunbound
        hbound
      -- what is not known was handed out by the rule, and it has not handed out any
      have hkept := Kept.holesIn (p := fun _ i => i ∈ known ∨ m < i) hctx.suits.closed
        (fun _ _ _ hi _ => hi) fun _ _ hi _ => .inr hi
      obtain ⟨hfirst, hsecond⟩ := hkept.reduces hreduces
        ⟨Nat.le_refl m, fun i hi => .inl (hlhs i hi)⟩ ⟨Nat.le_refl m, fun i hi => .inl (hrhs i hi)⟩
        c hc
      obtain ⟨husable, husable'⟩ := hnext.usable c (mem_append_left _ hc)
      exact ⟨fun i hi => (hfirst.2 i hi).resolve_right (Nat.not_lt.mpr (husable.issued i hi)),
        fun i hi => (hsecond.2 i hi).resolve_right (Nat.not_lt.mpr (husable'.issued i hi))⟩
    · exact absurd (hrhs id hid) (hbound hsolves.mem_of_open_row)
  | @assign _ _ id lhs rhs ty _ _ _ hassigns hsolves =>
    obtain ⟨hlhs, hrhs⟩ := hholes (lhs, rhs) mem_cons_self
    have hid : id ∈ known := by
      cases hassigns with
      | right => exact hrhs id (mem_singleton_self id)
      | left => exact hlhs id (mem_singleton_self id)
    exact absurd hid (hbound hsolves.mem_answer)

/-! ## Leading parameters -/

end Solver

namespace Ty

variable {a b : Ty}

theorem agrees_replaceName (hagrees : a.agrees b) (name : String) (id : Nat) :
    (a.replaceName name (.hole id)).agrees (b.replaceName name (.hole id)) := by
  fun_induction agrees a b with
  | case1 x loc y loc' =>
    obtain rfl := of_decide_eq_true hagrees
    rw [replaceName, replaceName]
    split
    · simp [agrees]
    · simp [agrees]
  | case2 => exact hagrees
  | case3 _ _ _ _ ih₁ ih₂ | case5 _ _ _ _ _ _ ih₁ ih₂ =>
    rw [and_eq_true] at hagrees
    simp [replaceName, agrees, ih₁ hagrees.1, ih₂ hagrees.2]
  | case4 p a q b ih =>
    rw [and_eq_true, decide_eq_true_eq] at hagrees
    obtain ⟨rfl, hagrees⟩ := hagrees
    rw [replaceName, replaceName]
    split
    · simp [agrees, hagrees]
    · simp [agrees, ih hagrees]
  | case6 _ _ _ _ ih =>
    rw [and_eq_true, decide_eq_true_eq] at hagrees
    simp [replaceName, agrees, ih hagrees.1, hagrees.2]
  | case7 => rfl
  | case8 _ _ _ _ _ _ ih₁ ih₂ =>
    rw [and_eq_true, and_eq_true, decide_eq_true_eq] at hagrees
    simp [replaceName, agrees, hagrees.1.1, ih₁ hagrees.1.2, ih₂ hagrees.2]
  | case9 => cases hagrees

theorem agrees_openWith (hagrees : a.agrees b) (ids : List Nat) :
    (a.openWith ids).agrees (b.openWith ids) := by
  induction ids generalizing a b with
  | nil => simpa [openWith] using hagrees
  | cons id ids ih =>
    cases a with
    | generic p a =>
      cases b with
      | generic q b =>
        rw [agrees, and_eq_true, decide_eq_true_eq] at hagrees
        obtain ⟨rfl, hagrees⟩ := hagrees
        exact ih (agrees_replaceName hagrees p id)
      | _ => simp [agrees] at hagrees
    | _ =>
      cases b with
      | generic q b => simp [agrees] at hagrees
      | _ => exact hagrees

/-- Putting a placeholder in keeps the number of leading parameters. -/
theorem length_params_replaceName (name : String) (id : Nat) :
    (a.replaceName name (.hole id)).params.length = a.params.length := by
  induction a with
  | ident x loc =>
    rw [replaceName]
    split
    · rfl
    · rfl
  | generic p a ih =>
    rw [replaceName, params, params, length_cons, length_cons]
    split
    · rfl
    · rw [ih]
  | _ => rfl

theorem mem_holes_openWith {ids : List Nat} {i : Nat} (hi : i ∈ (a.openWith ids).holes) :
    i ∈ ids ∨ i ∈ a.holes := by
  fun_induction openWith ids a with
  | case1 id ids param body ih =>
    obtain hi | hi := ih hi
    · exact .inl (mem_cons_of_mem _ hi)
    · obtain hi | hi := mem_holes_replaceName hi
      · exact .inr hi
      · exact .inl (mem_singleton.mp hi ▸ mem_cons_self)
  | case2 => exact .inr hi

theorem isMonomorphic_replaceName (ha : a.isMonomorphic) (name : String) (id : Nat) :
    (a.replaceName name (.hole id)).isMonomorphic := by
  induction a with
  | ident x loc =>
    rw [replaceName]
    split
    · rfl
    · rfl
  | hole | emptyRow => rfl
  | arrow a b iha ihb | app a b _ iha ihb | field _ a b iha ihb =>
    rw [isMonomorphic, and_eq_true] at ha
    rw [replaceName, isMonomorphic, iha ha.1, ihb ha.2, Bool.and_self]
  | generic => cases ha
  | record row label ih => exact ih ha

theorem isMonomorphic_body_replaceName (ha : a.body.isMonomorphic) (name : String) (id : Nat) :
    (a.replaceName name (.hole id)).body.isMonomorphic := by
  induction a with
  | ident x loc =>
    rw [replaceName]
    split
    · rfl
    · rfl
  | generic p a ih =>
    rw [replaceName]
    split
    · exact ha
    · exact ih ha
  | _ => exact isMonomorphic_replaceName ha name id

/-- A type that is generic at its head only is monomorphic once its parameters are opened. -/
theorem isMonomorphic_openWith {ids : List Nat} (hids : a.params.length = ids.length)
    (ha : a.body.isMonomorphic) : (a.openWith ids).isMonomorphic := by
  fun_induction openWith ids a with
  | case1 id ids param body ih =>
    refine ih ?_ (isMonomorphic_body_replaceName (a := body) ha param id)
    rw [length_params_replaceName]
    exact Nat.succ.inj hids
  | case2 ids a hopen =>
    cases a with
    | generic param body =>
      cases ids with
      | nil => cases hids
      | cons id ids => exact absurd rfl (hopen id ids param body rfl)
    | _ => exact ha

end Ty

namespace Solver

variable {ctx : Context} {loc : Option Loc} {records : Option Constraint}
  {solved answer : List Constraint} {rest : List Equation} {fuel : Nat} {checker final : Checker}

/-- An equation between generic types is done if they agree, and is otherwise solved with
one placeholder for both parameters. -/
theorem run_generics {param param' : String} {body body' : Ty}
    (hrun : run ctx loc fuel ⟨⟨.generic param body, .generic param' body', records⟩ :: rest, solved⟩
      checker = .ok answer final) :
    ((Ty.generic param body).agrees (.generic param' body') ∧
        ∃ fewer, run ctx loc fewer ⟨rest, solved⟩ checker = .ok answer final) ∨
      ∃ fewer, run ctx loc fewer
        ⟨⟨body.replaceName param (.hole (checker.counter + 1)),
          body'.replaceName param' (.hole (checker.counter + 1)), records⟩ :: rest, solved⟩
        { checker with counter := checker.counter + 1 } = .ok answer final := by
  cases fuel with
  | zero => simp [run] at hrun
  | succ fuel =>
    by_cases hagrees : (generic param body).agrees (.generic param' body') = true
    · simp only [run, step, hagrees] at hrun
      exact .inl ⟨hagrees, fuel, hrun⟩
    · right
      simp only [run, step, hagrees] at hrun
      exact ⟨fuel, hrun⟩

/-- The leading parameters of two generic types are opened pair by pair, each pair with the
next placeholder. -/
theorem run_openWith {n : Nat} {lhs rhs : Ty} (hlhs : lhs.params.length = n)
    (hrhs : rhs.params.length = n)
    (hrun : run ctx loc fuel ⟨⟨lhs, rhs, records⟩ :: rest, solved⟩ checker = .ok answer final) :
    ((lhs.openWith (range' (checker.counter + 1) n)).agrees
          (rhs.openWith (range' (checker.counter + 1) n)) ∧
        ∃ fewer middle, run ctx loc fewer ⟨rest, solved⟩ middle = .ok answer final) ∨
      ∃ fewer middle, middle.counter = checker.counter + n ∧ run ctx loc fewer
        ⟨⟨lhs.openWith (range' (checker.counter + 1) n),
          rhs.openWith (range' (checker.counter + 1) n), records⟩ :: rest, solved⟩
        middle = .ok answer final := by
  induction n generalizing fuel lhs rhs checker with
  | zero => exact .inr ⟨fuel, checker, rfl, by simpa [openWith] using hrun⟩
  | succ n ih =>
    cases lhs with
    | generic param body =>
      cases rhs with
      | generic param' body' =>
        obtain ⟨hagrees, fewer, hrest⟩ | ⟨fewer, hopened⟩ := run_generics hrun
        · exact .inl ⟨agrees_openWith hagrees _, fewer, checker, hrest⟩
        · rw [show checker.counter + (n + 1) = checker.counter + 1 + n by omega]
          refine ih ?_ ?_ hopened
          · rw [length_params_replaceName]
            exact Nat.succ.inj hlhs
          · rw [length_params_replaceName]
            exact Nat.succ.inj hrhs
      | _ => simp [params] at hrhs
    | _ => simp [params] at hlhs

end Solver

/-! ## Accepted equations -/

/-- An equation between two types with equally many leading parameters and no placeholders is
accepted only if one choice for these parameters makes both sides overlap. The choice is what
the answer gives to the placeholders that were handed out for them. Nothing is chosen if the
answer is empty, and then the types are the same up to the names of their parameters. Where
there are no other type parameters, neither in the two types nor in declared ones, the answer
is empty as soon as these placeholders stay as they are. -/
theorem unify_generics {fuel : Nat} {ctx : Context} {loc : Option Loc} {lhs rhs : Ty}
    {answer : List Constraint} {checker final : Checker}
    (hctx : ∀ name type, ctx.alias? name = some type → type.holes = [])
    (hlhs : lhs.holes = []) (hrhs : rhs.holes = [])
    (hparams : lhs.params.length = rhs.params.length)
    (hrun : unify fuel ctx loc [(lhs, rhs)] checker = .ok answer final) :
    Ty.Overlaps ctx (fun i => (Ty.hole i).applying answer) .type
        (lhs.openWith (List.range' (checker.counter + 1) lhs.params.length))
        (rhs.openWith (List.range' (checker.counter + 1) lhs.params.length)) ∧
      (answer = [] → Ty.Coincides ctx .type lhs rhs) ∧
      (ctx.DeclaresMonomorphic → lhs.body.isMonomorphic → rhs.body.isMonomorphic →
        (∀ i ∈ List.range' (checker.counter + 1) lhs.params.length,
          (Ty.hole i).applying answer = .hole i) → answer = []) := by
  have hsuits : (Ty.Convention.ofContext ctx).Suits ctx :=
    ⟨hctx, fun _ type _ => Ty.Convention.admits_ofContext ctx type⟩
  have htidy : Solver.Tidy (.ofContext ctx) ctx checker.counter [(lhs, rhs)] [] :=
    Solver.Issued.tidy (by simp [Solver.Issued, hlhs, hrhs])
  have hsolves := (unify_solves hrun).1
  have hform : SolvedForm answer := (hsolves.tidy hsuits htidy).2.1
  obtain ⟨hagrees, fewer, middle, hrest⟩ | ⟨fewer, middle, hcounter, hopened⟩ :=
    Solver.run_openWith rfl hparams.symm hrun
  · refine ⟨.equal ((Ty.Equal.of_agrees hagrees).bindHoles hsuits.closed _),
      fun hanswer => hsolves.coincides hsuits htidy hanswer (lhs, rhs) (by simp), ?_⟩
    exact fun _ _ _ _ => (Solver.run_solves hrest).1.eq_of_nil
  · have hopens := (Solver.run_solves hopened).1
    refine ⟨hopens.overlaps hsuits.closed hform.follows _ mem_cons_self,
      fun hanswer => hsolves.coincides hsuits htidy hanswer (lhs, rhs) (by simp), ?_⟩
    intro hdeclares hmono hmono' hunbound
    generalize hids : List.range' (checker.counter + 1) lhs.params.length = ids at hopens hunbound
    have hholes (ty : Ty) (hty : ty.holes = []) : ∀ i ∈ (ty.openWith ids).holes, i ∈ ids := by
      intro i hi
      have hor := Ty.mem_holes_openWith hi
      simpa [hty] using hor
    have hlength : lhs.params.length = ids.length := by rw [← hids, List.length_range']
    have hissued : Solver.Issued middle.counter [(lhs.openWith ids, rhs.openWith ids)] := by
      have hle (i : Nat) (hi : i ∈ ids) : i ≤ middle.counter := by
        rw [← hids, List.mem_range'_1] at hi
        omega
      intro c hc
      obtain rfl := mem_singleton.mp hc
      exact ⟨fun i hi => hle i (hholes lhs hlhs i hi), fun i hi => hle i (hholes rhs hrhs i hi)⟩
    refine hopens.eq_nil_of_unbound hdeclares rfl hissued.tidy ?_ ?_ hform hunbound
    · intro c hc
      obtain rfl := mem_singleton.mp hc
      exact ⟨Ty.isMonomorphic_openWith hlength hmono,
        Ty.isMonomorphic_openWith (hparams ▸ hlength) hmono'⟩
    · intro c hc
      obtain rfl := mem_singleton.mp hc
      exact ⟨hholes lhs hlhs, hholes rhs hrhs⟩

/-- The type of a function on records with two fields, one of them a box. -/
def boxedPair : Ty :=
  .generic "a" (.generic "b" (.arrow
    (.record (.field "x" (.app (.named "Box") (.named "a") .synthetic)
      (.field "y" (.named "b") .emptyRow)) none) (.named "a")))

/-- The same with other parameters and another order of fields, and with the box spelled
out. -/
def spelledPair : Ty :=
  .generic "c" (.generic "d" (.arrow
    (.record (.field "y" (.named "d") (.field "x" (.record (.field "content" (.named "c")
      .emptyRow) none) .emptyRow)) none) (.named "c")))

theorem boxContext_alias?_holes (name : String) (type : Ty)
    (hname : boxContext.alias? name = some type) : type.holes = [] := by
  by_cases hbox : name = "Box"
  · subst hbox
    cases hname
    rfl
  · simp [Context.alias?, Context.find?, boxContext, Ne.symm hbox] at hname

/-- Records of a value and a number. -/
def numbered : Ty :=
  .generic "a" (.record (.field "x" (.named "a") (.field "y" .number .emptyRow)) none)

/-- The same with another parameter and another order of fields. -/
def numberedFirst : Ty :=
  .generic "b" (.record (.field "y" .number (.field "x" (.named "b") .emptyRow)) none)

/-- The types of the functions are accepted as equal with an empty answer, and they coincide.
Those of the records have no type parameters but at their heads, and the placeholder that is
handed out for these stays as it is. -/
theorem unify_generics_pair :
    (unify 40 boxContext none [(boxedPair, spelledPair)] {} = .ok [] { counter := 2 } ∧
      Ty.Overlaps boxContext (fun i => (Ty.hole i).applying []) .type
        (boxedPair.openWith [1, 2]) (spelledPair.openWith [1, 2]) ∧
      Ty.Coincides boxContext .type boxedPair spelledPair) ∧
    ∃ answer final, unify 40 [] none [(numbered, numberedFirst)] {} = .ok answer final ∧
      (Ty.hole 1).applying answer = .hole 1 ∧ answer = [] ∧
      Ty.Coincides [] .type numbered numberedFirst := by
  have hrun : unify 40 boxContext none [(boxedPair, spelledPair)] {} =
    .ok [] { counter := 2 } := rfl
  have hboxed : boxedPair.holes = [] := rfl
  have hspelled : spelledPair.holes = [] := rfl
  obtain ⟨hoverlaps, hcoincides, -⟩ :=
    unify_generics boxContext_alias?_holes hboxed hspelled rfl hrun
  have hyields : (unify 40 [] none [(numbered, numberedFirst)]).yields {} (fun answer _ =>
    decide ((Ty.hole 1).applying answer = .hole 1)) = true := rfl
  obtain ⟨answer, final, hrecords, htest⟩ := CheckM.exists_of_yields hyields
  have hunbound : (Ty.hole 1).applying answer = .hole 1 := of_decide_eq_true htest
  have hnone (name : String) (type : Ty) : Context.alias? [] name ≠ some type := by
    simp [Context.alias?, Context.find?]
  have hnumbered : numbered.holes = [] ∧ numberedFirst.holes = [] := ⟨rfl, rfl⟩
  obtain ⟨-, hsame, hempty⟩ := unify_generics (fun _ _ halias => absurd halias (hnone _ _))
    hnumbered.1 hnumbered.2 rfl hrecords
  have hanswer := hempty (fun _ _ halias => absurd halias (hnone _ _)) rfl rfl
    fun i hi => mem_singleton.mp hi ▸ hunbound
  exact ⟨⟨hrun, hoverlaps, hcoincides rfl⟩, answer, final, hrecords, hunbound, hanswer,
    hsame hanswer⟩

/-! ## Types that do not coincide -/

namespace Ty

/-- What the last result of a type is. Declared types are records here. -/
inductive Tip where
  | hole (id : Nat)
  | parameter
  | name (name : String)
  | record
  | row
  | application
deriving DecidableEq

/-- What is behind the arrows and the type parameters of a type, where some type parameters
are in scope. -/
def tip (ctx : Context) (bound : List String) : Ty → Tip
  | .ident name _ =>
    if (ctx.alias? name).isSome then .record
    else if name ∈ bound then .parameter else .name name
  | .hole id => .hole id
  | .arrow _ ret => tip ctx bound ret
  | .generic param body => tip ctx (param :: bound) body
  | .app .. => .application
  | .record .. => .record
  | .emptyRow | .field .. => .row

/-- No type parameter is spelled like a declared type. -/
def bindsNoAlias (ctx : Context) : Ty → Bool
  | .ident .. | .hole _ | .emptyRow => true
  | .arrow a b | .app a b _ | .field _ a b => bindsNoAlias ctx a && bindsNoAlias ctx b
  | .generic param body => (ctx.alias? param).isNone && bindsNoAlias ctx body
  | .record row _ => bindsNoAlias ctx row

end Ty

/-- Declared types are records, maybe generic ones, and no type parameter in them is spelled
like a declared type. -/
def Context.DeclaresRecords (ctx : Context) : Prop :=
  ∀ name type, ctx.alias? name = some type →
    (∃ row label, type.body = .record row label) ∧ type.bindsNoAlias ctx = true

namespace Ty

variable {ctx : Context} {bound bound' : List String} {position : Position} {a b : Ty} {id : Nat}
  {param : String}

theorem tip_of_body {row : Ty} {label : Option String} (hbody : a.body = .record row label) :
    a.tip ctx bound = .record := by
  induction a generalizing bound with
  | generic param inner ih => exact ih hbody
  | record => rfl
  | _ => cases hbody

theorem tip_congr (hbound : ∀ name, name ∈ bound ↔ name ∈ bound') :
    a.tip ctx bound = a.tip ctx bound' := by
  induction a generalizing bound bound' with
  | ident name loc => simp only [tip, hbound]
  | arrow _ ret _ ih => exact ih hbound
  | generic param body ih =>
    apply ih
    intro name
    rw [mem_cons, mem_cons, hbound]
  | _ => rfl

theorem mem_holes_of_tip (htip : a.tip ctx bound = .hole id) : id ∈ a.holes := by
  induction a generalizing bound with
  | ident name loc =>
    rw [tip] at htip
    split at htip
    · cases htip
    · split at htip
      · cases htip
      · cases htip
  | hole i =>
    cases htip
    exact mem_singleton_self _
  | arrow _ ret _ ih => exact mem_append_right _ (ih htip)
  | generic param body ih => exact ih htip
  | _ => cases htip

/-- The tip of a type whose parameter was replaced by a new placeholder. -/
theorem tip_replaceName (hparam : ctx.alias? param = none) (hfresh : id ∉ a.holes) :
    a.tip ctx (bound ++ [param]) =
      if (a.replaceName param (.hole id)).tip ctx bound = .hole id then .parameter
      else (a.replaceName param (.hole id)).tip ctx bound := by
  induction a generalizing bound with
  | ident name loc =>
    rw [replaceName]
    by_cases hname : name = param
    · subst hname
      simp [tip, hparam]
    · rw [if_neg hname, if_neg fun htip => hfresh (mem_holes_of_tip htip)]
      simp [tip, hname]
  | hole i =>
    have hi : i ≠ id := fun h => hfresh (mem_singleton.mpr h.symm)
    simp [replaceName, tip, hi]
  | arrow _ ret _ ih => exact ih fun h => hfresh (mem_append_right _ h)
  | generic other body ih =>
    show tip ctx ((other :: bound) ++ [param]) body = _
    rw [replaceName]
    by_cases hother : other = param
    · -- the inner parameter hides the outer one, and nothing is replaced
      rw [if_pos hother, if_neg fun htip => hfresh (mem_holes_of_tip htip)]
      refine tip_congr (a := body) fun name => ?_
      grind
    · rw [if_neg hother]
      exact ih hfresh
  | _ => simp [replaceName, tip]

theorem tip_generic (hparam : ctx.alias? param = none) (hfresh : id ∉ a.holes) :
    (generic param a).tip ctx [] =
      if (a.replaceName param (.hole id)).tip ctx [] = .hole id then .parameter
      else (a.replaceName param (.hole id)).tip ctx [] :=
  @tip_replaceName ctx [] a id param hparam hfresh

theorem bindsNoAlias_replaceName (ha : a.bindsNoAlias ctx) :
    (a.replaceName param (.hole id)).bindsNoAlias ctx := by
  induction a with
  | ident name loc =>
    rw [replaceName]
    split
    · rfl
    · rfl
  | hole | emptyRow => rfl
  | arrow a b iha ihb | app a b _ iha ihb | field _ a b iha ihb =>
    rw [bindsNoAlias, and_eq_true] at ha
    rw [replaceName, bindsNoAlias, iha ha.1, ihb ha.2, Bool.and_true]
  | generic other body ih =>
    rw [bindsNoAlias, and_eq_true] at ha
    rw [replaceName, bindsNoAlias, ha.1, Bool.true_and]
    split
    · exact ha.2
    · exact ih ha.2
  | record row label ih => exact ih ha

/-- Equal types have the same tip, and type parameters of the same names. -/
theorem Equal.tip_eq (hctx : ctx.DeclaresRecords) (hequal : Equal (.ofContext ctx) position a b) :
    (position = .type → ∀ bound, a.tip ctx bound = b.tip ctx bound) ∧
      a.bindsNoAlias ctx = b.bindsNoAlias ctx := by
  induction hequal with
  | refl | ident | label => exact ⟨fun _ _ => rfl, rfl⟩
  | symm _ ih => exact ⟨fun hposition bound => (ih.1 hposition bound).symm, ih.2.symm⟩
  | trans _ _ ih ih' =>
    exact ⟨fun hposition bound => (ih.1 hposition bound).trans (ih'.1 hposition bound),
      ih.2.trans ih'.2⟩
  | arrow _ _ iha ihb =>
    exact ⟨fun _ bound => ihb.1 rfl bound, by rw [bindsNoAlias, bindsNoAlias, iha.2, ihb.2]⟩
  | generic param _ ih =>
    exact ⟨fun _ bound => ih.1 rfl (param :: bound), by rw [bindsNoAlias, bindsNoAlias, ih.2]⟩
  | app _ _ _ _ iha ihb | field _ _ _ iha ihb =>
    exact ⟨fun _ _ => rfl, by rw [bindsNoAlias, bindsNoAlias, iha.2, ihb.2]⟩
  | record _ _ ih => exact ⟨fun _ _ => rfl, ih.2⟩
  | swap a b base =>
    refine ⟨fun _ _ => rfl, ?_⟩
    simp only [bindsNoAlias]
    rw [Bool.and_left_comm]
  | @unfold _ name type loc hname =>
    obtain ⟨⟨row, label, hbody⟩, hclean⟩ := hctx name type hname
    refine ⟨fun _ bound => ?_, by rw [hclean]; rfl⟩
    have hsome : (ctx.alias? name).isSome := by
      have halias : ctx.alias? name = some type := hname
      rw [halias]
      rfl
    rw [tip_of_body hbody, tip, if_pos hsome]
  | @spread name row label loc hname =>
    refine ⟨nofun, ?_⟩
    have hclean := (hctx name _ hname).2
    exact hclean.symm

/-- Types that coincide have the same tip, unless an application is in the way. -/
theorem Coincides.tip_eq (hctx : ctx.DeclaresRecords) (hcoincides : Coincides ctx position a b)
    (hposition : position = .type) (ha : a.bindsNoAlias ctx) (hb : b.bindsNoAlias ctx) :
    a.tip ctx [] = b.tip ctx [] ∨ a.tip ctx [] = .application ∨ b.tip ctx [] = .application := by
  induction hcoincides with
  | equal hequal =>
    rw [bindHoles_hole, bindHoles_hole] at hequal
    exact .inl ((hequal.tip_eq hctx).1 hposition [])
  | convert hleft hright _ ih =>
    rw [bindHoles_hole, bindHoles_hole] at hleft hright
    obtain ⟨htip, hclean⟩ := hleft.tip_eq hctx
    obtain ⟨htip', hclean'⟩ := hright.tip_eq hctx
    rw [htip hposition, htip' hposition]
    exact ih hposition (hclean ▸ ha) (hclean' ▸ hb)
  | arrow _ _ _ ih =>
    rw [bindsNoAlias, and_eq_true] at ha hb
    exact ih rfl ha.2 hb.2
  | app | expandLeft => exact .inr (.inl rfl)
  | record | field => exact .inl rfl
  | @generics _ param param' body body' id hfresh _ ih =>
    rw [bindsNoAlias, and_eq_true, Option.isNone_iff_eq_none] at ha hb
    have hbodies := ih hposition (bindsNoAlias_replaceName ha.2) (bindsNoAlias_replaceName hb.2)
    rw [tip_generic ha.1 hfresh.1, tip_generic hb.1 hfresh.2]
    obtain heq | happ | happ := hbodies
    · exact .inl (by rw [heq])
    · exact .inr (.inl (by rw [happ]; rfl))
    · exact .inr (.inr (by rw [happ]; rfl))
  | @genericLeft _ param body b id hfresh _ ih =>
    rw [bindsNoAlias, and_eq_true, Option.isNone_iff_eq_none] at ha
    have hbody := ih hposition (bindsNoAlias_replaceName ha.2) hb
    have hother : b.tip ctx [] ≠ .hole id := fun htip => hfresh.2 (mem_holes_of_tip htip)
    rw [tip_generic ha.1 hfresh.1]
    obtain heq | happ | happ := hbody
    · exact .inl (by rw [heq, if_neg hother])
    · exact .inr (.inl (by rw [happ]; rfl))
    · exact .inr (.inr happ)
  | @genericRight _ param a body id hfresh _ ih =>
    rw [bindsNoAlias, and_eq_true, Option.isNone_iff_eq_none] at hb
    have hbody := ih hposition ha (bindsNoAlias_replaceName hb.2)
    have hother : a.tip ctx [] ≠ .hole id := fun htip => hfresh.1 (mem_holes_of_tip htip)
    rw [tip_generic hb.1 hfresh.2]
    obtain heq | happ | happ := hbody
    · exact .inl (by rw [← heq, if_neg hother])
    · exact .inr (.inl happ)
    · exact .inr (.inr (by rw [happ]; rfl))
  | expandRight => exact .inr (.inr rfl)

end Ty

/-- Whether every declared type is a record, maybe a generic one, without type parameters
that are spelled like declared types. -/
def Context.declaresRecords (ctx : Context) : Bool :=
  ctx.all fun entry =>
    match entry.binding with
    | .typeAlias type _ _ =>
      (match type.body with
        | .record .. => true
        | _ => false) && type.bindsNoAlias ctx
    | _ => true

theorem Context.declaresRecords_iff {ctx : Context} (hctx : ctx.declaresRecords) :
    ctx.DeclaresRecords := by
  intro name type hname
  obtain ⟨_, _, hfind⟩ := exists_find?_of_alias? hname
  obtain ⟨entry, hentry, hbinding⟩ := exists_mem_of_find? hfind
  have hrecord := all_eq_true.mp hctx entry hentry
  rw [hbinding, and_eq_true] at hrecord
  refine ⟨?_, hrecord.2⟩
  have hbody := hrecord.1
  split at hbody
  · rename_i row label heq
    exact ⟨row, label, heq⟩
  · cases hbody

/-- The type of functions that give back what they are given. -/
def identityType : Ty := .generic "a" (.arrow (.named "a") (.named "a"))

/-- The type of functions that give back a number. -/
def numberingType : Ty := .generic "a" (.arrow (.named "a") .number)

def identityTerm : Term :=
  .function (some ⟨"x", .synthetic⟩) (.reference "x" .synthetic) none .synthetic

def numberingTerm : Term :=
  .function (some ⟨"y", .synthetic⟩) (.number .synthetic) none .synthetic

/-- A conditional with the identity function in one branch, and a function that always gives
back a number in the other, is accepted, because the types of the two are accepted as equal.
They do not coincide. -/
theorem unify_generics_apart :
    ∃ globals loaded, preludeContext 60 {} = .ok globals loaded ∧
      (∃ solved final, solve 60 globals identityTerm loaded = .ok solved final ∧
        solved.type = identityType) ∧
      (∃ solved final, solve 60 globals numberingTerm loaded = .ok solved final ∧
        solved.type = numberingType) ∧
      (∃ solved final, solve 60 globals (.conditional (.boolean .synthetic) identityTerm
        numberingTerm .synthetic) loaded = .ok solved final) ∧
      (∃ answer final, unify 60 globals none [(identityType, numberingType)] loaded =
        .ok answer final) ∧
      ¬Ty.Coincides globals .type identityType numberingType := by
  have hyields : (preludeContext 60).yields {} (fun globals loaded =>
      (solve 60 globals identityTerm).yields loaded (fun solved _ => solved.type = identityType) &&
      (solve 60 globals numberingTerm).yields loaded
        (fun solved _ => solved.type = numberingType) &&
      (solve 60 globals (.conditional (.boolean .synthetic) identityTerm
        numberingTerm .synthetic)).yields loaded (fun _ _ => true) &&
      (unify 60 globals none [(identityType, numberingType)]).yields loaded (fun _ _ => true) &&
      (globals.declaresRecords && identityType.bindsNoAlias globals &&
        numberingType.bindsNoAlias globals && identityType.tip globals [] = .parameter &&
        numberingType.tip globals [] = .record)) = true := by
    rw [preludeContext_eq]
    decide +kernel
  obtain ⟨globals, loaded, hglobals, htest⟩ := CheckM.exists_of_yields hyields
  simp only [and_eq_true, decide_eq_true_eq] at htest
  obtain ⟨⟨⟨⟨hidentity, hnumbering⟩, hconditional⟩, hunify⟩, ⟨⟨⟨hrecords, hclean⟩, hclean'⟩, htip⟩,
    htip'⟩ := htest
  obtain ⟨first, final₁, hfirst, htype₁⟩ := CheckM.exists_of_yields hidentity
  obtain ⟨second, final₂, hsecond, htype₂⟩ := CheckM.exists_of_yields hnumbering
  obtain ⟨whole, final₃, hwhole, -⟩ := CheckM.exists_of_yields hconditional
  obtain ⟨answer, final₄, hanswer, -⟩ := CheckM.exists_of_yields hunify
  refine ⟨globals, loaded, hglobals, ⟨first, final₁, hfirst, of_decide_eq_true htype₁⟩,
    ⟨second, final₂, hsecond, of_decide_eq_true htype₂⟩, ⟨whole, final₃, hwhole⟩,
    ⟨answer, final₄, hanswer⟩, fun hcoincides => ?_⟩
  have htips := hcoincides.tip_eq (Context.declaresRecords_iff hrecords) rfl hclean hclean'
  rw [htip, htip'] at htips
  simp at htips

end RowScript
