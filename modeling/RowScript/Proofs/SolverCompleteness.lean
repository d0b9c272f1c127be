import RowScript.Proofs.RigidTypes
import RowScript.Proofs.SolverSoundness

/-!
# Completeness of solving

Where all names are type parameters, solving finds an answer whenever there is one. Each rule keeps
a given solution one, and what is left to solve, measured under it, gets smaller with every rule or
two.
-/

namespace RowScript

open Ty CheckM List

namespace Solver

variable {ctx : Context} {loc : Option Loc} {fuel enough : Nat} {solver : Solver}
  {lhs rhs tail row : Ty} {owners : Option Constraint} {checker final : Checker}
  {equation : Equation} {answer : List Constraint}

/-! ## Steps that succeed -/

theorem unfolding?_of_isRigid {ty : Ty} (hrigid : ty.isRigid ctx) :
    unfolding? ctx loc ty = .ok none := by
  cases ty with
  | ident name nameLoc =>
    simp [unfolding?, declaredType, find?_of_hasTypeParameter hrigid, bind, Except.bind, pure,
      Except.pure]
  | _ => rfl

/-- Rigid types have nothing to unfold. -/
theorem step_eq_decompose (hlhs : lhs.isRigid ctx) (hrhs : rhs.isRigid ctx)
    (hagrees : lhs.agrees rhs = false) :
    step ctx loc fuel solver ⟨lhs, rhs, owners⟩ checker =
      decompose ctx loc fuel solver lhs rhs owners checker := by
  simp only [step, hagrees, unfolding?_of_isRigid hlhs, unfolding?_of_isRigid hrhs,
    CheckM.ofExcept]
  rfl

theorem decompose_hole_right {id : Nat} (hid : id ∉ lhs.holes) :
    decompose ctx loc fuel solver lhs (.hole id) owners checker =
      .ok ⟨solver.pending.map (·.replaceHole id lhs), (.hole id, lhs) :: solver.solved⟩
        checker := by
  have hoccurs : lhs.occurs id = false := by simpa [occurs] using hid
  simp only [decompose, assign, hoccurs]
  rfl

theorem decompose_hole_left {id : Nat} (hid : id ∉ rhs.holes) (hrhs : ∀ i, rhs ≠ .hole i) :
    decompose ctx loc fuel solver (.hole id) rhs owners checker =
      .ok ⟨solver.pending.map (·.replaceHole id rhs), (.hole id, rhs) :: solver.solved⟩
        checker := by
  have hoccurs : rhs.occurs id = false := by simpa [occurs] using hid
  cases rhs with
  | hole i => exact absurd rfl (hrhs i)
  | _ =>
    simp only [decompose, assign, hoccurs]
    rfl

theorem pullField_of_takeField {key : String} {type found rest : Ty}
    (htaken : takeField key row = some (found, rest)) (hfuel : row.rowLength < fuel) :
    pullField ctx loc solver key type tail owners fuel row checker =
      .ok ((type, found), rest) checker := by
  refine takeField_induct (motive := fun row found rest => ∀ fuel, row.rowLength < fuel →
    pullField ctx loc solver key type tail owners fuel row checker =
      .ok ((type, found), rest) checker) (fun t base fuel hfuel => ?_)
    (fun k t hk ih fuel hfuel => ?_) htaken fuel hfuel
  · obtain ⟨fuel, rfl⟩ := Nat.exists_eq_add_of_lt hfuel
    simp [pullField]
  · obtain ⟨fuel, rfl⟩ := Nat.exists_eq_succ_of_ne_zero (Nat.ne_zero_of_lt hfuel)
    simp only [pullField, if_neg hk, bind_eq_ok, pure_eq_ok]
    exact ⟨_, checker, ih fuel (Nat.lt_of_succ_lt_succ hfuel), rfl, rfl⟩

/-- A row that ends in another placeholder than the one asking is extended. -/
theorem pullField_of_rowTail {key : String} {type : Ty} {id : Nat} (htail : row.rowTail = .hole id)
    (hcount : keyCount key row = 0) (hne : tail ≠ .hole id) (hfuel : row.rowLength < fuel) :
    pullField ctx loc solver key type tail owners fuel row checker =
      .ok ((.hole id, .field key type (.hole (checker.counter + 1))),
        row.withTail (.hole (checker.counter + 1)))
        { checker with counter := checker.counter + 1 } := by
  induction row generalizing fuel with
  | field k t base iht ihbase =>
    cases fuel with
    | zero => simp at hfuel
    | succ fuel =>
      have hk : k ≠ key := by
        rintro rfl
        simp [keyCount] at hcount
      have hbase : keyCount key base = 0 := by simpa [keyCount, hk] using hcount
      have hpull := ihbase htail hbase (Nat.lt_of_succ_lt_succ hfuel)
      simp only [pullField, if_neg hk, bind_eq_ok, pure_eq_ok]
      exact ⟨_, _, hpull, rfl, rfl⟩
  | hole i =>
    cases fuel with
    | zero => simp at hfuel
    | succ fuel =>
      obtain rfl : i = id := by simpa [rowTail] using htail
      simp only [pullField, if_neg hne, bind_eq_ok, freshHole_eq_ok,
        pure_eq_ok]
      exact ⟨_, _, ⟨rfl, rfl⟩, rfl, rfl⟩
  | _ => cases htail

theorem decompose_field {key k : String} {type base t b rest : Ty} {found : Constraint}
    (hpull : pullField ctx loc solver key type base.rowTail owners fuel (.field k t b) checker = .ok
      (found, rest) final) :
    decompose ctx loc fuel solver (.field key type base) (.field k t b) owners checker =
      .ok ((solver.push base rest owners).push found.1 found.2 owners) final := by
  simp only [decompose]
  simp only [bind_eq_ok, pure_eq_ok]
  exact ⟨(found, rest), final, hpull, rfl, rfl⟩

/-! ## Solutions guide the run -/

/-- With enough fuel a run ends with an answer. -/
def Succeeds (ctx : Context) (loc : Option Loc) (solver : Solver) (checker : Checker)
    (answer : List Constraint) (final : Checker) : Prop :=
  ∃ enough, ∀ fuel ≥ enough, run ctx loc fuel solver checker = .ok answer final

theorem Succeeds.of_step {rest : List Equation} {solved : List Constraint} {next : Solver}
    {middle : Checker}
    (hstep : ∀ fuel ≥ enough, step ctx loc fuel ⟨rest, solved⟩ equation checker = .ok next middle)
    (hnext : Succeeds ctx loc next middle answer final) :
    Succeeds ctx loc ⟨equation :: rest, solved⟩ checker answer final := by
  obtain ⟨enough', hrun⟩ := hnext
  refine ⟨max enough enough' + 1, fun fuel hfuel => ?_⟩
  obtain ⟨fuel, rfl⟩ : ∃ less, fuel = less + 1 := ⟨fuel - 1, by omega⟩
  simp only [run, bind_eq_ok]
  exact ⟨next, middle, hstep fuel (by omega), hrun fuel (by omega)⟩

/-- Both sides of every constraint are rigid. -/
def Rigid (ctx : Context) (constraints : List Constraint) : Prop :=
  ∀ c ∈ constraints, c.1.isRigid ctx = true ∧ c.2.isRigid ctx = true

instance (ctx : Context) (constraints : List Constraint) : Decidable (Rigid ctx constraints) :=
  inferInstanceAs (Decidable (∀ c ∈ constraints, c.1.isRigid ctx = true ∧ c.2.isRigid ctx = true))

/-- A substitution solves what is left and respects what is solved already. -/
structure Solvable (ctx : Context) (f : Nat → Ty) (n : Nat) (pending solved : List Constraint) :
    Prop where
  tidy : Tidy .fieldOrder ctx n pending solved
  rigid : Rigid ctx pending
  left : ∀ c ∈ pending, (c.1.bindHoles f).normal = (c.2.bindHoles f).normal
  respects : ∀ i u, (hole i, u) ∈ solved → (f i).normal = (u.bindHoles f).normal

/-- The size of the equations under a substitution. -/
def weight (f : Nat → Ty) : List Constraint → Nat
  | [] => 0
  | c :: pending => (c.1.bindHoles f).size + (c.2.bindHoles f).size + weight f pending

variable {f g : Nat → Ty} {n m id : Nat} {ty : Ty} {rest new solved pending : List Constraint}

theorem weight_append (f : Nat → Ty) (pending rest : List Constraint) :
    weight f (pending ++ rest) = weight f pending + weight f rest := by
  induction pending with
  | nil => simp [weight]
  | cons c pending ih => simp [weight, ih, Nat.add_assoc]

theorem weight_map {change : Constraint → Constraint}
    (hsize : ∀ c ∈ pending, ((change c).1.bindHoles g).size = (c.1.bindHoles f).size ∧
      ((change c).2.bindHoles g).size = (c.2.bindHoles f).size) :
    weight g (pending.map change) = weight f pending := by
  induction pending with
  | nil => rfl
  | cons c pending ih =>
    obtain ⟨hc, hpending⟩ := forall_mem_cons.mp hsize
    rw [map_cons, weight, weight, hc.1, hc.2, ih hpending]

theorem suits_fieldOrder (ctx : Context) : Convention.fieldOrder.Suits ctx where
  closed _ _ hname := by cases hname
  admits _ _ hname := by cases hname

/-- Values for placeholders that were not handed out do not matter. -/
theorem Solvable.congr (hsolvable : Solvable ctx f n pending solved) (hagree : ∀ i ≤ n, g i = f i) :
    Solvable ctx g n pending solved ∧ weight g pending = weight f pending := by
  have hbind : ∀ {u : Ty}, (∀ i ∈ u.holes, i ≤ n) → u.bindHoles g = u.bindHoles f :=
    fun hissued => bindHoles_congr fun i hi => hagree i (hissued i hi)
  have husable := hsolvable.tidy.usable
  refine ⟨⟨hsolvable.tidy, hsolvable.rigid, fun c hc => ?_, fun i u hu => ?_⟩, ?_⟩
  · rw [hbind (husable c hc).1.issued, hbind (husable c hc).2.issued]
    exact hsolvable.left c hc
  · obtain ⟨hi, hissued⟩ := hsolvable.tidy.issued _ hu
    rw [hagree i (hi i (by simp [holes])), hbind hissued]
    exact hsolvable.respects i u hu
  · have hsame : weight g (pending.map id) = weight f pending := weight_map fun c hc => by
      rw [id, hbind (husable c hc).1.issued, hbind (husable c hc).2.issued]
      exact ⟨rfl, rfl⟩
    rwa [map_id] at hsame

/-- A rule keeps a solution that satisfies the equations it leaves. -/
theorem Solvable.reduce (hsolvable : Solvable ctx f n ((lhs, rhs) :: rest) solved)
    (hreduces : Reduces ctx n lhs rhs m new) (hrigid : Rigid ctx new)
    (hnew : ∀ c ∈ new, (c.1.bindHoles f).normal = (c.2.bindHoles f).normal) :
    Solvable ctx f m (new ++ rest) solved where
  tidy := (hsolvable.tidy.reduce (suits_fieldOrder ctx) hreduces).2
  rigid c hc := by
    rcases mem_append.mp hc with hc | hc
    · exact hrigid c hc
    · exact hsolvable.rigid c (mem_cons_of_mem _ hc)
  left c hc := by
    rcases mem_append.mp hc with hc | hc
    · exact hnew c hc
    · exact hsolvable.left c (mem_cons_of_mem _ hc)
  respects := hsolvable.respects

/-- Giving a placeholder its type keeps every solution, and the weight of the other
equations. -/
theorem Solvable.assign (hsolvable : Solvable ctx f n ((lhs, rhs) :: rest) solved)
    (hassigns : Assigns lhs rhs id ty) :
    Solvable ctx f n (rest.map (replaceBoth id ty)) ((.hole id, ty) :: solved) ∧
      weight f (rest.map (replaceBoth id ty)) = weight f rest := by
  obtain ⟨hlhs, hrhs⟩ := hsolvable.rigid (lhs, rhs) mem_cons_self
  have hequal := hsolvable.left (lhs, rhs) mem_cons_self
  obtain ⟨hid, hrigid⟩ : (f id).normal = (ty.bindHoles f).normal ∧ ty.isRigid ctx = true := by
    cases hassigns with
    | right => exact ⟨hequal.symm, hlhs⟩
    | left => exact ⟨hequal, hrhs⟩
  have hreplaced : ∀ u : Ty,
      ((u.replaceHole id ty).bindHoles f).normal = (u.bindHoles f).normal := fun u =>
    equal_fieldOrder_iff.mp
      (Equal.bindHoles_replaceHole (equal_fieldOrder_iff.mpr hid) u)
  refine ⟨⟨hsolvable.tidy.assign hassigns, fun c hc => ?_, fun c hc => ?_, fun i u hu => ?_⟩, ?_⟩
  · obtain ⟨before, hbefore, rfl⟩ := mem_map.mp hc
    obtain ⟨hfirst, hsecond⟩ := hsolvable.rigid before (mem_cons_of_mem _ hbefore)
    exact ⟨isRigid_replaceHole hfirst hrigid, isRigid_replaceHole hsecond hrigid⟩
  · obtain ⟨before, hbefore, rfl⟩ := mem_map.mp hc
    rw [replaceBoth, hreplaced, hreplaced]
    exact hsolvable.left before (mem_cons_of_mem _ hbefore)
  · rcases mem_cons.mp hu with heq | hu
    · obtain ⟨rfl, rfl⟩ : i = id ∧ u = ty := by simpa using heq
      exact hid
    · exact hsolvable.respects i u hu
  · have hsize : ∀ u : Ty, ((u.replaceHole id ty).bindHoles f).size = (u.bindHoles f).size := by
      intro u
      rw [← size_normal, hreplaced, size_normal]
    exact weight_map fun c _ => ⟨hsize c.1, hsize c.2⟩

/-- Types of one form, of the forms that are taken apart. -/
inductive SameForm : Ty → Ty → Prop where
  | arrow (a b a' b' : Ty) : SameForm (.arrow a b) (.arrow a' b')
  | app (a b a' b' : Ty) (appLoc appLoc' : Loc) : SameForm (.app a b appLoc) (.app a' b' appLoc')
  | record (row row' : Ty) : SameForm (.record row none) (.record row' none)
  | field (key k : String) (a b a' b' : Ty) : SameForm (.field key a b) (.field k a' b')

/-- Rigid types with a common instance have one form, unless they are the same type
or one of them is a placeholder. -/
theorem sameForm_of_normal_eq (hlhs : lhs.isRigid ctx) (hrhs : rhs.isRigid ctx)
    (hagrees : lhs.agrees rhs = false) (hleft : ∀ i, lhs ≠ .hole i) (hright : ∀ i, rhs ≠ .hole i)
    (hequal : (lhs.bindHoles f).normal = (rhs.bindHoles f).normal) : SameForm lhs rhs := by
  have hform : lhs.form = rhs.form := by
    rw [← form_bindHoles hleft, ← form_bindHoles hright, ← form_normal, hequal,
      form_normal]
  cases lhs with
  | hole i => exact absurd rfl (hleft i)
  | generic => cases hlhs
  | ident name =>
    cases rhs with
    | ident name' =>
      cases hform
      simp [agrees] at hagrees
    | _ => cases hform
  | arrow a b =>
    cases rhs with
    | arrow a' b' => exact .arrow a b a' b'
    | _ => cases hform
  | app a b appLoc =>
    cases rhs with
    | app a' b' appLoc' => exact .app a b a' b' appLoc appLoc'
    | _ => cases hform
  | record row label =>
    cases rhs with
    | record row' label' =>
      simp only [isRigid, Bool.and_eq_true, Option.isNone_iff_eq_none] at hlhs hrhs
      rw [hlhs.1, hrhs.1]
      exact .record row row'
    | _ => cases hform
  | emptyRow =>
    cases rhs with
    | emptyRow => simp [agrees] at hagrees
    | _ => cases hform
  | field key a b =>
    cases rhs with
    | field k a' b' => exact .field key k a b a' b'
    | _ => cases hform

/-! ## Solving goes on -/

/-- What a solution leads to: after a step or two something smaller is left to solve,
with a solution that gives old placeholders their old values. -/
def Advances (ctx : Context) (loc : Option Loc) (f : Nat → Ty) (solver : Solver)
    (checker : Checker) : Prop :=
  ∃ next middle g,
    (∀ answer final, Succeeds ctx loc next middle answer final →
      Succeeds ctx loc solver checker answer final) ∧
    checker.counter ≤ middle.counter ∧ (∀ i ≤ checker.counter, g i = f i) ∧
    Solvable ctx g middle.counter (equations next.pending) next.solved ∧
    weight g (equations next.pending) < weight f (equations solver.pending)

variable {older : List Equation}

/-- A rule that hands out no placeholder advances if it leaves smaller equations. -/
theorem Advances.of_reduces (left : List Equation)
    (hsolvable : Solvable ctx f checker.counter ((lhs, rhs) :: equations older) solved)
    (hstep : ∀ fuel ≥ enough, step ctx loc fuel ⟨older, solved⟩ ⟨lhs, rhs, owners⟩ checker = .ok
      ⟨left ++ older, solved⟩ checker)
    (hreduces : Reduces ctx checker.counter lhs rhs checker.counter (equations left))
    (hrigid : Rigid ctx (equations left))
    (hleft : ∀ c ∈ equations left, (c.1.bindHoles f).normal = (c.2.bindHoles f).normal)
    (hweight : weight f (equations left) < (lhs.bindHoles f).size + (rhs.bindHoles f).size) :
    Advances ctx loc f ⟨⟨lhs, rhs, owners⟩ :: older, solved⟩ checker := by
  have happend : equations (left ++ older) = equations left ++ equations older := by
    simp [equations]
  refine ⟨⟨left ++ older, solved⟩, checker, f, fun _ _ hnext => .of_step hstep hnext,
    Nat.le_refl _, fun _ _ => rfl, ?_, ?_⟩
  · rw [happend]
    exact hsolvable.reduce hreduces hrigid hleft
  · have hcons : weight f (equations (⟨lhs, rhs, owners⟩ :: older)) =
        (lhs.bindHoles f).size + (rhs.bindHoles f).size + weight f (equations older) := rfl
    simp only [happend, weight_append, hcons]
    omega

theorem Advances.of_assigns
    (hsolvable : Solvable ctx f checker.counter ((lhs, rhs) :: equations older) solved)
    (hstep : ∀ fuel, step ctx loc fuel ⟨older, solved⟩ ⟨lhs, rhs, owners⟩ checker =
      .ok ⟨older.map (·.replaceHole id ty), (.hole id, ty) :: solved⟩ checker)
    (hassigns : Assigns lhs rhs id ty) :
    Advances ctx loc f ⟨⟨lhs, rhs, owners⟩ :: older, solved⟩ checker := by
  obtain ⟨hnext, hweight⟩ := hsolvable.assign hassigns
  refine ⟨⟨older.map (·.replaceHole id ty), (.hole id, ty) :: solved⟩, checker, f,
    fun _ _ hsucceeds => .of_step (fun fuel (_ : fuel ≥ 0) => hstep fuel) hsucceeds,
    Nat.le_refl _, fun _ _ => rfl, ?_, ?_⟩
  · rw [equations_replaceHole]
    exact hnext
  · have hcons : weight f (equations (⟨lhs, rhs, owners⟩ :: older)) =
        (lhs.bindHoles f).size + (rhs.bindHoles f).size + weight f (equations older) := rfl
    have hpos := size_pos (lhs.bindHoles f)
    simp only [equations_replaceHole, hweight, hcons]
    omega

section Fields

variable {key k : String} {type base t b row : Ty}

/-- Rows are equated field by field where the wanted field is written out. -/
theorem Advances.of_found
    (hsolvable : Solvable ctx f checker.counter
      ((.field key type base, .field k t b) :: equations older) solved)
    (hagrees : (Ty.field key type base).agrees (.field k t b) = false)
    (hcount : keyCount key (.field k t b) ≠ 0) :
    Advances ctx loc f ⟨⟨.field key type base, .field k t b, owners⟩ :: older, solved⟩
      checker := by
  obtain ⟨hlhs, hrhs⟩ := hsolvable.rigid _ mem_cons_self
  have hequal := hsolvable.left _ mem_cons_self
  obtain ⟨found, rest, htaken⟩ := exists_takeField hcount
  have hpull : ∀ fuel ≥ (field k t b).rowLength + 1,
      pullField ctx loc ⟨older, solved⟩ key type base.rowTail owners fuel (.field k t b) checker =
        .ok ((type, found), rest) checker :=
    fun fuel hfuel => pullField_of_takeField htaken hfuel
  have hstep : ∀ fuel ≥ (field k t b).rowLength + 1,
      step ctx loc fuel ⟨older, solved⟩ ⟨.field key type base, .field k t b, owners⟩ checker =
        .ok ⟨[⟨type, found, owners⟩, ⟨base, rest, owners⟩] ++ older, solved⟩ checker := by
    intro fuel hfuel
    rw [step_eq_decompose hlhs hrhs hagrees]
    exact decompose_field (hpull fuel hfuel)
  have hparts := normal_of_takeField (takeField_bindHoles (f := f) htaken)
  obtain ⟨htype, hbase⟩ := insertField_inj (hequal.trans hparts)
  obtain ⟨hfound, hrest⟩ := isRigid_of_takeField hrhs htaken
  refine .of_reduces _ hsolvable hstep (.fields (pullField_pulls (hpull _ (Nat.le_refl _))).1)
    ?_ ?_ ?_
  · simp only [isRigid, Bool.and_eq_true] at hlhs
    simp [Rigid, equations, hlhs, hfound, hrest]
  · simpa [equations] using ⟨htype, hbase⟩
  · have hsize := congrArg size hparts
    rw [size_insertField, size_normal, size_normal, size_normal] at hsize
    simp only [equations, map, weight, bindHoles,
      size] at hsize ⊢
    omega

/-- A row without the field that stands first in an equal row ends in a placeholder
that stands for the field. The equal row does not end in the same placeholder. -/
theorem exists_takeField_of_rowTail
    (hequal : ((Ty.field key type base).bindHoles f).normal = (row.bindHoles f).normal)
    (hcount : keyCount key row = 0) :
    ∃ id found rest, row.rowTail = .hole id ∧ base.rowTail ≠ .hole id ∧
      takeField key (f id) = some (found, rest) := by
  have hcounts : keyCount key (row.bindHoles f) = 1 + keyCount key (base.bindHoles f) := by
    rw [← keyCount_normal, ← hequal, keyCount_normal, bindHoles, keyCount, if_pos rfl]
  by_cases hopen : ∃ id, row.rowTail = .hole id
  · obtain ⟨id, htail⟩ := hopen
    rw [keyCount_bindHoles_of_rowTail htail, hcount] at hcounts
    have hend : keyCount key (f id) ≠ 0 := by omega
    obtain ⟨found, rest, htaken⟩ := exists_takeField hend
    refine ⟨id, found, rest, htail, fun hbase => ?_, htaken⟩
    rw [keyCount_bindHoles_of_rowTail hbase] at hcounts
    omega
  · rw [keyCount_bindHoles_of_closed fun id hid => hopen ⟨id, hid⟩] at hcounts
    omega

/-- Extending the end of a row keeps a solution, once the new end stands for what is
left of the old one when the field is taken out. -/
theorem Solvable.extend {found remainder : Ty}
    (hsolvable : Solvable ctx f n ((.field key type base, row) :: rest) solved)
    (hreduces : Reduces ctx n (.field key type base) row (n + 1) [(.hole id, .field key type (.hole
      (n + 1))), (base, row.withTail (.hole (n + 1)))]) (htail : row.rowTail = .hole id)
    (hcount : keyCount key row = 0) (htaken : takeField key (f id) = some (found, remainder)) :
    ∃ g, (∀ i ≤ n, g i = f i) ∧ id ∉ (Ty.field key type (.hole (n + 1))).holes ∧
      Solvable ctx g (n + 1) ((.hole id, .field key type (.hole (n + 1))) ::
        (base, row.withTail (.hole (n + 1))) :: rest) solved ∧
      weight g ((base, row.withTail (.hole (n + 1))) :: rest) <
        weight f ((.field key type base, row) :: rest) := by
  obtain ⟨hlhs, hrhs⟩ := hsolvable.rigid _ mem_cons_self
  obtain ⟨husable, husable'⟩ := hsolvable.tidy.usable _ mem_cons_self
  have hequal := hsolvable.left _ mem_cons_self
  -- the fresh placeholder stands for what is left of the row's end without the field
  let g : Nat → Ty := fun i => if i = n + 1 then remainder else f i
  have hagree : ∀ i ≤ n, g i = f i := by
    intro i hi
    have hold : i ≠ n + 1 := by omega
    simp [g, hold]
  have hfresh : g (n + 1) = remainder := if_pos rfl
  obtain ⟨hsolvable', hweight⟩ := hsolvable.congr hagree
  have hparts := normal_of_takeField (takeField_bindHoles_of_rowTail htail hcount htaken
    hfresh fun i hi => hagree i (husable'.issued i hi))
  obtain ⟨htype, hbase⟩ := insertField_inj (hequal.trans hparts)
  have hfield : (field key type base).bindHoles g = (field key type base).bindHoles f :=
    bindHoles_congr fun i hi => hagree i (husable.issued i hi)
  have hrow : row.bindHoles g = row.bindHoles f :=
    bindHoles_congr fun i hi => hagree i (husable'.issued i hi)
  simp only [bindHoles, field.injEq, true_and] at hfield
  have hend : (g id).normal = ((field key type (.hole (n + 1))).bindHoles g).normal := by
    have hid : id ≤ n := husable'.issued id (mem_holes_of_rowTail htail)
    rw [hagree id hid, normal_of_takeField htaken, ← htype, ← hfield.1]
    simp [bindHoles, normal, hfresh]
  refine ⟨g, hagree, not_mem_holes_of_normal_eq (by simp) hend,
    hsolvable'.reduce hreduces ?_ ?_, ?_⟩
  · simp only [isRigid, Bool.and_eq_true] at hlhs
    have hrest : (row.withTail (.hole (n + 1))).isRigid ctx := isRigid_withTail hrhs rfl
    simp [Rigid, isRigid, hlhs, hrest]
  · simpa [bindHoles, hfield.2] using ⟨hend, hbase⟩
  · have hsize := congrArg size hparts
    rw [size_insertField, size_normal, size_normal, size_normal] at hsize
    rw [← hweight, weight, weight]
    simp only [bindHoles, size, hrow] at hsize ⊢
    omega

/-- Where the wanted field is not written out, it takes two steps to get something
smaller: the row on the right is extended, and then its end gets its type. -/
theorem Advances.of_extended
    (hsolvable : Solvable ctx f checker.counter
      ((.field key type base, .field k t b) :: equations older) solved)
    (hagrees : (Ty.field key type base).agrees (.field k t b) = false)
    (hcount : keyCount key (.field k t b) = 0) :
    Advances ctx loc f ⟨⟨.field key type base, .field k t b, owners⟩ :: older, solved⟩
      checker := by
  obtain ⟨hlhs, hrhs⟩ := hsolvable.rigid _ mem_cons_self
  obtain ⟨id, found, remainder, htail, hne, htaken⟩ :=
    exists_takeField_of_rowTail (hsolvable.left _ mem_cons_self) hcount
  let middle : Checker := { checker with counter := checker.counter + 1 }
  let rest := (field k t b).withTail (.hole (checker.counter + 1))
  let extension := field key type (.hole (checker.counter + 1))
  have hpull : ∀ fuel ≥ (field k t b).rowLength + 1,
      pullField ctx loc ⟨older, solved⟩ key type base.rowTail owners fuel (.field k t b) checker =
        .ok ((.hole id, extension), rest) middle :=
    fun fuel hfuel => pullField_of_rowTail htail hcount hne hfuel
  obtain ⟨g, hagree, hid, hextended, hweight⟩ := hsolvable.extend
    (.fields (pullField_pulls (hpull _ (Nat.le_refl _))).1) htail hcount htaken
  obtain ⟨hnext, hweight'⟩ := hextended.assign (.left hid)
  have hfirst : ∀ fuel ≥ (field k t b).rowLength + 1,
      step ctx loc fuel ⟨older, solved⟩ ⟨.field key type base, .field k t b, owners⟩ checker =
        .ok ⟨⟨.hole id, extension, owners⟩ :: ⟨base, rest, owners⟩ :: older, solved⟩ middle := by
    intro fuel hfuel
    rw [step_eq_decompose hlhs hrhs hagrees]
    exact decompose_field (hpull fuel hfuel)
  -- the equation for the row's end is on top, so nothing comes between the two steps
  have hsecond : ∀ fuel ≥ 0,
      step ctx loc fuel ⟨⟨base, rest, owners⟩ :: older, solved⟩ ⟨.hole id, extension, owners⟩
          middle =
        .ok ⟨(⟨base, rest, owners⟩ :: older).map (·.replaceHole id extension),
          (.hole id, extension) :: solved⟩ middle := by
    intro fuel _
    have hrigid := (hextended.rigid _ mem_cons_self).2
    rw [step_eq_decompose rfl hrigid rfl]
    exact decompose_hole_left hid (by simp)
  refine ⟨_, middle, g, fun _ _ hsucceeds => .of_step hfirst (.of_step hsecond hsucceeds),
    Nat.le_succ _, hagree, ?_, ?_⟩
  · rw [equations_replaceHole]
    exact hnext
  · rw [equations_replaceHole]
    exact Nat.lt_of_le_of_lt (Nat.le_of_eq hweight') hweight

end Fields

theorem Advances.of_sameForm
    (hsolvable : Solvable ctx f checker.counter ((lhs, rhs) :: equations older) solved)
    (hagrees : lhs.agrees rhs = false) (hform : SameForm lhs rhs) :
    Advances ctx loc f ⟨⟨lhs, rhs, owners⟩ :: older, solved⟩ checker := by
  obtain ⟨hlhs, hrhs⟩ := hsolvable.rigid (lhs, rhs) mem_cons_self
  have hequal := hsolvable.left (lhs, rhs) mem_cons_self
  have hstep : ∀ fuel ≥ 0, step ctx loc fuel ⟨older, solved⟩ ⟨lhs, rhs, owners⟩ checker =
      decompose ctx loc fuel ⟨older, solved⟩ lhs rhs owners checker :=
    fun fuel _ => step_eq_decompose hlhs hrhs hagrees
  cases hform with
  | arrow a b a' b' =>
    simp only [isRigid, Bool.and_eq_true] at hlhs hrhs
    simp only [bindHoles, normal, arrow.injEq] at hequal
    refine .of_reduces [⟨a, a', none⟩, ⟨b, b', none⟩] hsolvable hstep (.arrow ..) ?_ ?_ ?_
    · simp [Rigid, equations, hlhs, hrhs]
    · simpa [equations] using hequal
    · simp only [equations, map, weight, bindHoles, size]
      omega
  | app a b a' b' appLoc appLoc' =>
    simp only [isRigid, Bool.and_eq_true] at hlhs hrhs
    simp only [bindHoles, normal, app.injEq, and_true] at hequal
    refine .of_reduces [⟨a, a', none⟩, ⟨b, b', none⟩] hsolvable hstep (.app ..) ?_ ?_ ?_
    · simp [Rigid, equations, hlhs, hrhs]
    · simpa [equations] using hequal
    · simp only [equations, map, weight, bindHoles, size]
      omega
  | record row row' =>
    simp only [isRigid, Bool.and_eq_true] at hlhs hrhs
    simp only [bindHoles, normal, record.injEq, and_true] at hequal
    refine .of_reduces [⟨row, row', some (.record row none, .record row' none)⟩] hsolvable hstep
      (.record row row' rfl) ?_ ?_ ?_
    · simp [Rigid, equations, hlhs, hrhs]
    · simpa [equations] using hequal
    · simp only [equations, map, weight, bindHoles, size]
      omega
  | field key k a b a' b' =>
    by_cases hcount : keyCount key (.field k a' b') = 0
    · exact .of_extended hsolvable hagrees hcount
    · exact .of_found hsolvable hagrees hcount

/-- As long as an equation is left, solving goes on. -/
theorem Solvable.advances
    (hsolvable : Solvable ctx f checker.counter (equations (equation :: older)) solved) :
    Advances ctx loc f ⟨equation :: older, solved⟩ checker := by
  obtain ⟨lhs, rhs, owners⟩ := equation
  obtain ⟨hlhs, hrhs⟩ := hsolvable.rigid (lhs, rhs) mem_cons_self
  have hequal := hsolvable.left (lhs, rhs) mem_cons_self
  cases hagrees : lhs.agrees rhs with
  | true =>
    have hstep : ∀ fuel ≥ 0, step ctx loc fuel ⟨older, solved⟩ ⟨lhs, rhs, owners⟩ checker =
        .ok ⟨[] ++ older, solved⟩ checker := by
      intro fuel _
      simp only [step, hagrees, if_true]
      rfl
    refine .of_reduces [] hsolvable hstep (.agree hagrees) ?_ ?_ ?_
    · simp [Rigid, equations]
    · simp [equations]
    · have hpos := size_pos (lhs.bindHoles f)
      simp only [equations, map, weight]
      omega
  | false =>
    have hstep : ∀ fuel, step ctx loc fuel ⟨older, solved⟩ ⟨lhs, rhs, owners⟩ checker =
        decompose ctx loc fuel ⟨older, solved⟩ lhs rhs owners checker :=
      fun fuel => step_eq_decompose hlhs hrhs hagrees
    by_cases hright : ∃ id, rhs = .hole id
    · obtain ⟨id, rfl⟩ := hright
      have hne : lhs ≠ .hole id := by
        rintro rfl
        simp [agrees] at hagrees
      have hid := not_mem_holes_of_normal_eq hne hequal.symm
      exact .of_assigns hsolvable (fun fuel => (hstep fuel).trans (decompose_hole_right hid))
        (.right hid)
    · have hright : ∀ id, rhs ≠ .hole id := fun id hid => hright ⟨id, hid⟩
      by_cases hleft : ∃ id, lhs = .hole id
      · obtain ⟨id, rfl⟩ := hleft
        have hid := not_mem_holes_of_normal_eq (hright id) hequal
        exact .of_assigns hsolvable
          (fun fuel => (hstep fuel).trans (decompose_hole_left hid hright)) (.left hid)
      · have hleft : ∀ id, lhs ≠ .hole id := fun id hid => hleft ⟨id, hid⟩
        exact .of_sameForm hsolvable hagrees
          (sameForm_of_normal_eq hlhs hrhs hagrees hleft hright hequal)

/-- Solving succeeds where there is a solution, and the answer respects the solution,
once values are chosen for the placeholders handed out on the way. -/
theorem Solvable.succeeds (loc : Option Loc)
    (hsolvable : Solvable ctx f checker.counter (equations solver.pending) solver.solved) :
    ∃ answer final g, Succeeds ctx loc solver checker answer final ∧
      (∀ i ≤ checker.counter, g i = f i) ∧ SolvedForm answer ∧
      ∀ i u, (Ty.hole i, u) ∈ answer → (g i).normal = (u.bindHoles g).normal := by
  -- equations may grow as they are written, but not under the given solution
  induction hweight : weight f (equations solver.pending) using Nat.strongRecOn
    generalizing solver checker f with
  | ind w ih =>
    obtain ⟨pending, solved⟩ := solver
    cases pending with
    | nil =>
      have hdone : Succeeds ctx loc ⟨[], solved⟩ checker solved checker := by
        refine ⟨1, fun fuel hfuel => ?_⟩
        obtain ⟨fuel, rfl⟩ : ∃ less, fuel = less + 1 := ⟨fuel - 1, by omega⟩
        rfl
      exact ⟨solved, checker, f, hdone, fun _ _ => rfl, hsolvable.tidy.solvedForm,
        hsolvable.respects⟩
    | cons equation older =>
      obtain ⟨next, middle, g, hleads, hle, hagree, hnext, hlt⟩ := hsolvable.advances
      obtain ⟨answer, final, g', hsucceeds, hagree', hform, hrespects⟩ :=
        ih _ (hweight ▸ hlt) hnext rfl
      refine ⟨answer, final, g', hleads answer final hsucceeds, fun i hi => ?_, hform,
        hrespects⟩
      rw [hagree' i (Nat.le_trans hi hle), hagree i hi]

/-! ## Constraints in another order -/

instance (f : Nat → Ty) (constraints : List Constraint) :
    Decidable (Satisfies .fieldOrder f constraints) :=
  inferInstanceAs (Decidable (∀ c ∈ constraints, _))

/-- One constraint is the other, up to the orientation and the order of fields. -/
def Same (c d : Constraint) : Prop :=
  (Equal .fieldOrder .type c.1 d.1 ∧ Equal .fieldOrder .type c.2 d.2) ∨
    (Equal .fieldOrder .type c.1 d.2 ∧ Equal .fieldOrder .type c.2 d.1)

/-- Two lists have the same constraints, in any order. -/
def Rearranged (constraints other : List Constraint) : Prop :=
  (∀ c ∈ constraints, ∃ d ∈ other, Same c d) ∧ ∀ d ∈ other, ∃ c ∈ constraints, Same c d

instance (c d : Constraint) : Decidable (Same c d) :=
  inferInstanceAs (Decidable ((_ ∧ _) ∨ (_ ∧ _)))

instance (constraints other : List Constraint) : Decidable (Rearranged constraints other) :=
  inferInstanceAs (Decidable ((∀ c ∈ constraints, _) ∧ ∀ d ∈ other, _))

variable {constraints other : List Constraint}

theorem Same.symm {c d : Constraint} (hsame : Same c d) : Same d c := by
  rcases hsame with ⟨hfirst, hsecond⟩ | ⟨hfirst, hsecond⟩
  · exact .inl ⟨hfirst.symm, hsecond.symm⟩
  · exact .inr ⟨hsecond.symm, hfirst.symm⟩

theorem Rearranged.symm (hsame : Rearranged constraints other) : Rearranged other constraints := by
  obtain ⟨hleft, hright⟩ := hsame
  refine ⟨fun d hd => ?_, fun c hc => ?_⟩
  · obtain ⟨c, hc, hcd⟩ := hright d hd
    exact ⟨c, hc, hcd.symm⟩
  · obtain ⟨d, hd, hcd⟩ := hleft c hc
    exact ⟨d, hd, hcd.symm⟩

/-- What holds of both sides of a constraint holds of the same constraint written in
another way, if it does not depend on the order of fields. -/
theorem Rearranged.forall {p : Ty → Prop}
    (hinvariant : ∀ a b, Equal .fieldOrder .type a b → p a → p b)
    (hsame : Rearranged constraints other) (hp : ∀ c ∈ constraints, p c.1 ∧ p c.2) :
    ∀ d ∈ other, p d.1 ∧ p d.2 := by
  intro d hd
  obtain ⟨c, hc, ⟨hfirst, hsecond⟩ | ⟨hfirst, hsecond⟩⟩ := hsame.2 d hd
  · exact ⟨hinvariant _ _ hfirst (hp c hc).1, hinvariant _ _ hsecond (hp c hc).2⟩
  · exact ⟨hinvariant _ _ hsecond (hp c hc).2, hinvariant _ _ hfirst (hp c hc).1⟩

theorem Satisfies.rearranged (hsame : Rearranged constraints other)
    (hsatisfies : Satisfies .fieldOrder f constraints) : Satisfies .fieldOrder f other := by
  intro d hd
  obtain ⟨c, hc, hcd⟩ := hsame.2 d hd
  have hclosed := (suits_fieldOrder []).closed
  rcases hcd with ⟨hfirst, hsecond⟩ | ⟨hfirst, hsecond⟩
  · exact (hfirst.bindHoles hclosed f).symm.trans
      ((hsatisfies c hc).trans (hsecond.bindHoles hclosed f))
  · exact (hsecond.bindHoles hclosed f).symm.trans
      ((hsatisfies c hc).symm.trans (hfirst.bindHoles hclosed f))

theorem Rigid.rearranged (hsame : Rearranged constraints other) (hrigid : Rigid ctx constraints) :
    Rigid ctx other :=
  hsame.forall (p := fun ty => ty.isRigid ctx = true) (fun a b hequal ha => by
    rw [← isRigid_normal, ← equal_fieldOrder_iff.mp hequal, isRigid_normal]
    exact ha) hrigid

theorem Issued.rearranged (hsame : Rearranged constraints other)
    (hissued : Issued n constraints) : Issued n other :=
  hsame.forall (p := fun ty => ∀ i ∈ ty.holes, i ≤ n) (fun a b hequal ha i hi => by
    rw [← mem_holes_normal, ← equal_fieldOrder_iff.mp hequal, mem_holes_normal] at hi
    exact ha i hi) hissued

/-! ## Runs from the start -/

variable (hrigid : Rigid ctx constraints)

include hrigid

theorem Rigid.tidy (hissued : Issued n constraints) : Tidy .fieldOrder ctx n constraints [] :=
  .start (fun c hc => ⟨admits_fieldOrder_of_isRigid (hrigid c hc).1,
    admits_fieldOrder_of_isRigid (hrigid c hc).2⟩) hissued

theorem Solvable.start (hissued : Issued n constraints)
    (hsatisfies : Satisfies .fieldOrder f constraints) : Solvable ctx f n constraints [] where
  tidy := hrigid.tidy hissued
  rigid := hrigid
  left c hc := equal_fieldOrder_iff.mp (hsatisfies c hc)
  respects := by simp

/-- A solution of the constraints factors through an answer that unification gives
with enough fuel. -/
theorem exists_unify_of_satisfies (hissued : Issued checker.counter constraints)
    (hsatisfies : Satisfies .fieldOrder f constraints) :
    ∃ answer final g,
      (∃ enough, ∀ fuel ≥ enough, unify fuel ctx loc constraints checker = .ok answer final) ∧
      ∀ i ≤ checker.counter,
        Equal .fieldOrder .type (f i) (((Ty.hole i).applying answer).bindHoles g) := by
  let start : Solver := ⟨constraints.map fun c => ⟨c.1, c.2, none⟩, []⟩
  have hsolvable : Solvable ctx f checker.counter (equations start.pending) start.solved := by
    simpa [start, equations, Function.comp_def] using Solvable.start hrigid hissued hsatisfies
  obtain ⟨answer, final, g, hsucceeds, hagree, hform, hrespects⟩ := hsolvable.succeeds loc
  refine ⟨answer, final, g, hsucceeds, fun i hi => ?_⟩
  have hfactor := hform.equal_bindHoles_applying
    (fun i u hu => equal_fieldOrder_iff.mpr (hrespects i u hu)) (.hole i)
  rw [← hagree i hi]
  exact hfactor.symm

theorem satisfies_of_unify (hissued : Issued checker.counter constraints)
    (hrun : unify fuel ctx loc constraints checker = .ok answer final) :
    Satisfies .fieldOrder (fun i => (Ty.hole i).applying answer) constraints := by
  have hmono : Monomorphic constraints := fun c hc =>
    ⟨isMonomorphic_of_isRigid (hrigid c hc).1, isMonomorphic_of_isRigid (hrigid c hc).2⟩
  have hsolves := (unify_solves hrun).1
  have hform := (hsolves.tidy (suits_fieldOrder ctx) (hrigid.tidy hissued)).2.1
  exact hsolves.satisfies (suits_fieldOrder ctx) (fun _ _ hname => by cases hname)
    (hrigid.tidy hissued) hmono (hform.satisfies _)

/-- Constraints that can be solved can be solved in any order. -/
theorem exists_unify_rearranged (hissued : Issued checker.counter constraints)
    (hsame : Rearranged constraints other)
    (hrun : ∃ fuel answer final, unify fuel ctx loc constraints checker = .ok answer final) :
    ∃ fuel answer final, unify fuel ctx loc other checker = .ok answer final := by
  obtain ⟨fuel, answer, final, hrun⟩ := hrun
  have hsatisfies := (satisfies_of_unify hrigid hissued hrun).rearranged hsame
  obtain ⟨answer', final', -, ⟨enough, hrun'⟩, -⟩ :=
    exists_unify_of_satisfies (hrigid.rearranged hsame) (hissued.rearranged hsame) hsatisfies
  exact ⟨enough, answer', final', hrun' enough (Nat.le_refl _)⟩

end Solver

/-- Solving is complete where all names are type parameters. Whatever makes the two
sides of every constraint equal up to the order of fields factors through an answer,
which every run with enough fuel gives. So it does not matter in which order and
orientation the constraints are given, and in which order the fields stand. -/
theorem unify_complete {ctx : Context} {loc : Option Loc} {constraints : List Constraint}
    {checker : Checker} (hrigid : Solver.Rigid ctx constraints)
    (hissued : Solver.Issued checker.counter constraints) :
    (∀ f, Solver.Satisfies .fieldOrder f constraints →
      ∃ answer final g,
        (∃ enough, ∀ fuel ≥ enough, unify fuel ctx loc constraints checker = .ok answer final) ∧
        ∀ i ≤ checker.counter,
          Ty.Equal .fieldOrder .type (f i) (((Ty.hole i).applying answer).bindHoles g)) ∧
    ∀ other, Solver.Rearranged constraints other →
      ((∃ fuel answer final, unify fuel ctx loc constraints checker = .ok answer final) ↔
        ∃ fuel answer final, unify fuel ctx loc other checker = .ok answer final) := by
  refine ⟨fun f hsatisfies => Solver.exists_unify_of_satisfies hrigid hissued hsatisfies,
    fun other hsame => ⟨Solver.exists_unify_rearranged hrigid hissued hsame, ?_⟩⟩
  exact Solver.exists_unify_rearranged (hrigid.rearranged hsame) (hissued.rearranged hsame)
    hsame.symm

/-- Numbers are the only type there is a name for. -/
def numberContext : Context := [⟨0, "Number", .typeParameter⟩]

/-- Two open rows that lack each other's fields, and a function that shares the end of
one of them. -/
def openRows : List Constraint :=
  [(.record (.field "x" (.hole 1) (.field "z" (.hole 5) (.hole 2))) none,
      .record (.field "y" (.named "Number") (.hole 3)) none),
    (.arrow (.hole 4) (.hole 4), .arrow (.record (.hole 2) none) (.hole 5))]

/-- The same constraints, turned around and with the fields in another order. -/
def openRowsTurned : List Constraint :=
  [(.arrow (.record (.hole 2) none) (.hole 5), .arrow (.hole 4) (.hole 4)),
    (.record (.field "z" (.hole 5) (.field "x" (.hole 1) (.hole 2))) none,
      .record (.field "y" (.named "Number") (.hole 3)) none)]

/-- One of the solutions of the open rows, in which both are closed. -/
def openRowsSolution (id : Nat) : Ty :=
  let remainder : Ty := .field "y" (.named "Number") .emptyRow
  match id with
  | 1 => .named "Number"
  | 2 => remainder
  | 3 => .field "z" (.record remainder none) (.field "x" (.named "Number") .emptyRow)
  | _ => .record remainder none

/-- The open rows have a solution, so they are solved, and the turned ones with them. -/
theorem unify_complete_openRows :
    (∃ answer final g,
      (∃ enough, ∀ fuel ≥ enough,
        unify fuel numberContext none openRows { counter := 5 } = .ok answer final) ∧
      ∀ i ≤ 5, Ty.Equal .fieldOrder .type (openRowsSolution i)
        (((Ty.hole i).applying answer).bindHoles g)) ∧
    ((∃ fuel answer final,
        unify fuel numberContext none openRows { counter := 5 } = .ok answer final) ↔
      ∃ fuel answer final,
        unify fuel numberContext none openRowsTurned { counter := 5 } = .ok answer final) := by
  obtain ⟨hsolved, hturned⟩ :=
    @unify_complete numberContext none openRows { counter := 5 } (by decide) (by decide)
  exact ⟨hsolved openRowsSolution (by decide), hturned openRowsTurned (by decide)⟩

end RowScript
