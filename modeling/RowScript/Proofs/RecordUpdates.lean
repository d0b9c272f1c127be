import Mathlib.Data.Multiset.AddSub
import RowScript.Proofs.GenericAscriptions
import RowScript.Proofs.UnrelatedDeclarations

/-!
# Fields that are overwritten

A record with a field put in front keeps the field of the same name that it had, unless this is
written out in the type of the record. The fields of a record are counted through a run of the
solver whose equations match patterns of new placeholders against types.
-/

namespace RowScript

open Ty List Bool

/-! ## The fields of closed records -/

/-- The keys of a record or row that ends, where names stand for what they are declared as. -/
inductive Ty.Carries (ctx : Context) : Ty → Multiset String → Prop where
  | emptyRow : Carries ctx .emptyRow 0
  | field {base : Ty} {keys : Multiset String} (key : String) (type : Ty)
      (hbase : Carries ctx base keys) : Carries ctx (.field key type base) (key ::ₘ keys)
  | record {row : Ty} {keys : Multiset String} (label : Option String)
      (hrow : Carries ctx row keys) : Carries ctx (.record row label) keys
  | declared {name : String} {ty : Ty} {keys : Multiset String} (loc : Loc)
      (hname : ctx.alias? name = some ty) (hty : Carries ctx ty keys) :
      Carries ctx (.ident name loc) keys

namespace Ty

variable {ctx : Context} {f g : Nat → Ty} {a b : Ty} {keys : Multiset String}

@[simp]
theorem carries_field {key : String} : (field key a b).Carries ctx keys ↔
    ∃ others, b.Carries ctx others ∧ keys = key ::ₘ others := by
  constructor
  · rintro ⟨⟩
    exact ⟨_, ‹_›, rfl⟩
  · rintro ⟨others, hothers, rfl⟩
    exact .field key a hothers

@[simp]
theorem carries_record {label : Option String} :
    (record a label).Carries ctx keys ↔ a.Carries ctx keys :=
  ⟨fun hcarries => by cases hcarries; assumption, .record label⟩

@[simp]
theorem carries_ident {name : String} {loc : Loc} : (ident name loc).Carries ctx keys ↔
    ∃ ty, ctx.alias? name = some ty ∧ ty.Carries ctx keys := by
  constructor
  · rintro ⟨⟩
    exact ⟨_, ‹_›, ‹_›⟩
  · rintro ⟨ty, hname, hty⟩
    exact .declared loc hname hty

theorem Equal.carries_iff {position : Position} (hequal : Equal (.ofContext ctx) position a b)
    (keys : Multiset String) : a.Carries ctx keys ↔ b.Carries ctx keys := by
  induction hequal generalizing keys with
  | refl => rfl
  | symm _ ih => exact (ih keys).symm
  | trans _ _ ih ih' => exact (ih keys).trans (ih' keys)
  | arrow | generic | app => exact ⟨nofun, nofun⟩
  | ident | label => simp
  | record _ _ ih => simpa using ih keys
  | field _ _ _ _ ih => simp [ih]
  | swap a b base => simp [Multiset.cons_swap]
  | unfold loc hname | spread loc hname =>
    have hname : ctx.alias? _ = some _ := hname
    simp [hname]

/-- What is put in for the placeholders of a type matters only as far as it has fields. -/
theorem Carries.of_bindHoles
    (hfits : ∀ i ∈ a.holes, ∀ keys, (g i).Carries ctx keys → (f i).Carries ctx keys)
    (hcarries : (a.bindHoles g).Carries ctx keys) : (a.bindHoles f).Carries ctx keys := by
  induction a generalizing keys with
  | hole i => exact hfits i (by simp [holes]) keys hcarries
  | ident | emptyRow => exact hcarries
  | arrow | generic | app => cases hcarries
  | record row label ih => exact .record label (ih hfits (carries_record.mp hcarries))
  | field key type base _ ih =>
    obtain ⟨others, hbase, rfl⟩ := carries_field.mp hcarries
    exact .field key _ (ih (fun i hi => hfits i (mem_append_right _ hi)) hbase)

/-- A record that ends has the same fields whatever its placeholders stand for. -/
theorem Carries.bindHoles (hcarries : a.Carries ctx keys) (f : Nat → Ty) :
    (a.bindHoles f).Carries ctx keys := by
  rw [← bindHoles_hole a] at hcarries
  exact .of_bindHoles (fun i _ keys hhole => by cases hhole) hcarries

/-! ## Patterns of placeholders -/

/-- Records and rows of placeholders. -/
def isPattern : Ty → Bool
  | .hole _ => true
  | .record row _ => row.isPattern
  | .field _ type base => type.isPattern && base.isPattern
  | _ => false

theorem isPattern_replaceHole {id : Nat} (ha : a.isPattern) (hb : b.isPattern) :
    (a.replaceHole id b).isPattern := by
  induction a with
  | hole i =>
    by_cases hi : i = id
    · simpa [replaceHole, bindHoles, hi] using hb
    · simp [replaceHole, bindHoles, hi, isPattern]
  | record _ _ ih => exact ih ha
  | field _ _ _ iht ihb =>
    simp only [isPattern, and_eq_true] at ha
    exact and_eq_true_iff.mpr ⟨iht ha.1, ihb ha.2⟩
  | _ => cases ha

theorem holes_replaceHole (a b : Ty) (id : Nat) :
    (a.replaceHole id b).holes = a.holes.flatMap fun i => if i = id then b.holes else [i] := by
  unfold replaceHole
  induction a with
  | hole i => by_cases hi : i = id <;> simp [bindHoles, holes, hi]
  | ident | emptyRow => rfl
  | generic _ _ ih | record _ _ ih => exact ih
  | arrow _ _ iha ihb | app _ _ _ iha ihb | field _ _ _ iha ihb =>
    simp [bindHoles, holes, iha, ihb]

end Ty

namespace Solver

variable {ctx : Context} {f : Nat → Ty} {n m id i : Nat} {lhs rhs p ty : Ty} {c : Constraint}
  {pending rest new solved answer : List Constraint}

/-- The placeholders on the left sides of equations. -/
def heads (pending : List Constraint) : List Nat := pending.flatMap (·.1.holes)

/-- Equations that match patterns against types. No placeholder is in two patterns. -/
structure Matching (pending : List Constraint) : Prop where
  pattern : ∀ c ∈ pending, c.1.isPattern
  distinct : (heads pending).Nodup

theorem mem_heads : i ∈ heads pending ↔ ∃ c ∈ pending, i ∈ c.1.holes := mem_flatMap

theorem issued_heads (hissued : Issued n pending) : ∀ i ∈ heads pending, i ≤ n := fun i hi => by
  obtain ⟨c, hc, hi⟩ := mem_heads.mp hi
  exact (hissued c hc).1 i hi

theorem Matching.reduce (hmatching : Matching ((lhs, rhs) :: rest))
    (hpattern : ∀ c ∈ new, c.1.isPattern) (hheads : heads new <+ lhs.holes) :
    Matching (new ++ rest) := by
  have hsub : heads new ++ heads rest <+ lhs.holes ++ heads rest := hheads.append (.refl _)
  refine ⟨forall_mem_append.mpr ⟨hpattern, (forall_mem_cons.mp hmatching.pattern).2⟩, ?_⟩
  rw [heads, flatMap_append]
  exact hmatching.distinct.sublist hsub

/-- A placeholder is given a pattern, which takes its place in other patterns. -/
theorem Matching.replace (hmatching : Matching rest) (hp : p.isPattern) (hnodup : p.holes.Nodup)
    (hnew : ∀ i ∈ p.holes, i ∉ heads rest) : Matching (rest.map (replaceBoth id p)) := by
  refine ⟨forall_mem_map.mpr fun c hc => isPattern_replaceHole (hmatching.pattern c hc) hp, ?_⟩
  have hheads : heads (rest.map (replaceBoth id p)) =
      (heads rest).flatMap fun i => if i = id then p.holes else [i] := by
    simp only [heads, flatMap_map, flatMap_assoc, replaceBoth, holes_replaceHole]
  rw [hheads, nodup_flatMap]
  refine ⟨fun i _ => ?_, hmatching.distinct.imp_of_mem fun {i j} hi hj hne => ?_⟩
  · split
    · exact hnodup
    · exact nodup_singleton i
  · intro k hk hk'
    grind

theorem Assigns.matching (hassigns : Assigns lhs rhs id ty)
    (hmatching : Matching ((lhs, rhs) :: rest)) : Matching (rest.map (replaceBoth id ty)) := by
  have hrest : Matching ([] ++ rest) := hmatching.reduce (by simp) (by simp [heads])
  obtain ⟨hlhs, -, hnew⟩ := nodup_append.mp hmatching.distinct
  cases hassigns with
  | right =>
    exact hrest.replace (hmatching.pattern _ mem_cons_self) hlhs
      fun i hi hhead => hnew i hi i hhead rfl
  | left =>
    -- the placeholder is in no other pattern
    have hsame : ∀ c ∈ rest, c.1.replaceHole id rhs = c.1 := fun c hc =>
      (bindHoles_congr fun i hi => if_neg fun heq =>
        hnew i (by simp [heq, holes]) i (mem_heads.mpr ⟨c, hc, hi⟩) rfl).trans
        (bindHoles_hole c.1)
    refine ⟨forall_mem_map.mpr fun c hc => ?_, ?_⟩
    · exact (congrArg isPattern (hsame c hc)).trans (hrest.pattern c hc)
    · have hheads : heads (rest.map (replaceBoth id rhs)) = heads rest :=
        (flatMap_map _ _ _).trans (flatMap_congr fun c hc => congrArg holes (hsame c hc))
      exact hheads ▸ hrest.distinct

/-- What is found when a field is pulled out of a row: the field, or a placeholder of the row that
gets it. -/
theorem Pulls.found_cases {key : String} {type tail row remainder : Ty} {found : Constraint}
    (hpulls : Pulls ctx key type tail n row m found remainder) :
    (∃ t, found = (type, t)) ∨ ∃ id, found = (.hole id, .field key type (.hole (n + 1))) := by
  induction hpulls with
  | here t base => exact .inl ⟨t, rfl⟩
  | behind _ _ _ ih | declared _ _ _ ih => exact ih
  | @extend id _ => exact .inr ⟨id, rfl⟩

/-- A rule leaves equations that match patterns against types, once a placeholder that a row is
extended by has been given its type. -/
theorem Reduces.matching (hissued : Issued n ((lhs, rhs) :: rest))
    (hreduces : Reduces ctx n lhs rhs m new) (hmatching : Matching ((lhs, rhs) :: rest)) :
    Matching (new ++ rest) ∨ ∃ id k t b others, new = (.hole id, .field k t b) :: others ∧
      Matching ((others ++ rest).map (replaceBoth id (.field k t b))) := by
  have hpattern : lhs.isPattern := hmatching.pattern _ mem_cons_self
  have hsame (rhs' : Ty) : Matching ([(lhs, rhs')] ++ rest) :=
    hmatching.reduce (by simpa using hpattern) (by simp [heads])
  cases hreduces with
  | agree => exact .inl (hmatching.reduce (by simp) (by simp [heads]))
  | unfoldRight | genericRight | expandRight => exact .inl (hsame _)
  | record row row' =>
    have hrow : row.isPattern := hpattern
    exact .inl (hmatching.reduce (by simpa using hrow) (by simp [heads, holes]))
  | @fields _ key k type base t b remainder found hpulls =>
    obtain ⟨htype, hbase⟩ := and_eq_true_iff.mp hpattern
    obtain ⟨t', rfl⟩ | ⟨id, rfl⟩ := hpulls.found_cases
    · exact .inl (hmatching.reduce (by simp [htype, hbase]) (by simp [heads, holes]))
    · have hothers : Matching ([(base, remainder)] ++ rest) :=
        hmatching.reduce (by simpa using hbase) (by simp [heads, holes])
      have hdistinct : (type.holes ++ base.holes ++ heads rest).Nodup := hmatching.distinct
      have hfresh : n + 1 ∉ type.holes ++ base.holes ++ heads rest := fun hhead => by
        obtain ⟨c, hc, hi⟩ := mem_heads.mp (show n + 1 ∈ heads ((field key type base, _) :: rest)
          from hhead)
        exact Nat.not_succ_le_self n ((hissued c hc).1 _ hi)
      have hheads : heads ([(base, remainder)] ++ rest) = base.holes ++ heads rest := rfl
      have hgrown : (field key type (.hole (n + 1))).holes = type.holes ++ [n + 1] := rfl
      refine .inr ⟨id, key, type, .hole (n + 1), [(base, remainder)], rfl,
        hothers.replace (by simpa [isPattern] using htype) ?_ ?_⟩
      · grind
      · grind
  | _ => cases hpattern

/-! ## Runs that match patterns -/

/-- The left side has the fields of the right side, if that is a record that ends. -/
def Fits (ctx : Context) (f : Nat → Ty) (c : Constraint) : Prop :=
  ∀ keys, (c.2.bindHoles f).Carries ctx keys → (c.1.bindHoles f).Carries ctx keys

theorem Follows.fits (hfollows : Follows f c) : Fits ctx f c :=
  fun keys hcarries => by rwa [hfollows]

theorem fits_replaceBoth (hid : f id = ty.bindHoles f) :
    Fits ctx f (replaceBoth id ty c) ↔ Fits ctx f c := by
  simp only [Fits, replaceBoth, bindHoles_replaceHole hid]

/-- A pattern fits if the parts do that a rule takes it apart into. Generic types and applications
have no fields, so it does not matter how they are opened. -/
theorem Reduces.fits (hclosed : (Convention.ofContext ctx).IsClosed)
    (hreduces : Reduces ctx n lhs rhs m new) (hpattern : lhs.isPattern)
    (hgrown : Grown f new) (hnew : ∀ c ∈ new, Fits ctx f c) : Fits ctx f (lhs, rhs) := by
  intro keys hcarries
  cases hreduces with
  | agree hagrees =>
    have hequal : Equal (.ofContext ctx) .type lhs rhs := .of_agrees hagrees
    exact ((hequal.bindHoles hclosed f).carries_iff keys).mpr hcarries
  | @unfoldRight name declared _ nameLoc hname =>
    have hequal : Equal (.ofContext ctx) .type (.ident name nameLoc) declared :=
      .unfold nameLoc hname
    exact hnew (lhs, declared) (by simp) keys
      (((hequal.bindHoles hclosed f).carries_iff keys).mp hcarries)
  | genericRight | expandRight => cases hcarries
  | record row row' =>
    exact .record _ (hnew (row, row') (by simp) keys (carries_record.mp hcarries))
  | @fields _ key k type base t b remainder found hpulls =>
    obtain ⟨wanted, -, hequal⟩ := hpulls.equal_field_of_field hclosed hgrown
    obtain ⟨others, hothers, rfl⟩ := carries_field.mp ((hequal.carries_iff keys).mp hcarries)
    exact .field key _ (hnew (base, remainder) (by simp) others hothers)
  | _ => cases hpattern

/-- All patterns of a run fit under a substitution that follows its answer. -/
theorem Solves.fits (hsuits : (Convention.ofContext ctx).Suits ctx)
    (hsolves : Solves ctx n pending solved m answer)
    (htidy : Tidy (.ofContext ctx) ctx n pending solved) (hanswer : ∀ c ∈ answer, Follows f c)
    (hmatching : Matching pending) : ∀ c ∈ pending, Fits ctx f c := by
  -- a placeholder that a row is extended by is given its type before anything else is solved
  suffices (Matching pending → ∀ c ∈ pending, Fits ctx f c) ∧
      ∀ id k t b rest, pending = (.hole id, .field k t b) :: rest →
        Matching (rest.map (replaceBoth id (.field k t b))) → ∀ c ∈ rest, Fits ctx f c from
    this.1 hmatching
  clear hmatching
  induction hsolves with
  | done => exact ⟨by simp, by simp⟩
  | @reduce n _ _ lhs rhs new rest _ _ hreduces hsolves ih =>
    obtain ⟨ih, ihgrown⟩ := ih (htidy.reduce hsuits hreduces).2 hanswer
    constructor
    · intro hmatching
      have hissued : Issued n ((lhs, rhs) :: rest) := fun c hc =>
        ⟨(htidy.usable c hc).1.issued, (htidy.usable c hc).2.issued⟩
      have hgrown := hsolves.grown hanswer
      have hall : ∀ c ∈ new ++ rest, Fits ctx f c := by
        obtain hmatching | ⟨id, k, t, b, others, rfl, hmatching⟩ :=
          hreduces.matching hissued hmatching
        · exact ih hmatching
        · exact forall_mem_cons.mpr
            ⟨(hgrown id k t b others rfl).fits, ihgrown id k t b _ rfl hmatching⟩
      obtain ⟨hnew, hrest⟩ := forall_mem_append.mp hall
      exact forall_mem_cons.mpr ⟨hreduces.fits hsuits.closed
        (hmatching.pattern _ mem_cons_self) hgrown hnew, hrest⟩
    · rintro id k t b rest ⟨⟩
      cases hreduces with
      | agree hagrees => cases hagrees
  | @assign _ _ id lhs rhs ty rest _ _ hassigns hsolves ih =>
    obtain ⟨ih, -⟩ := ih (htidy.assign hassigns) hanswer
    have hid : f id = ty.bindHoles f := hanswer _ hsolves.mem_answer
    have hrest (hmatching : Matching (rest.map (replaceBoth id ty))) :
        ∀ c ∈ rest, Fits ctx f c := fun c hc =>
      (fits_replaceBoth hid).mp (ih hmatching _ (mem_map_of_mem hc))
    constructor
    · intro hmatching
      have hsides : Follows f (lhs, rhs) := by
        cases hassigns with
        | right => exact hid.symm
        | left => exact hid
      exact forall_mem_cons.mpr ⟨hsides.fits, hrest (hassigns.matching hmatching)⟩
    · rintro id k t b rest ⟨⟩ hmatching
      cases hassigns with
      | left => exact hrest hmatching

/-! ## Equations of new placeholders and solved constraints -/

/-- The first equation gives a placeholder its type, be it generic or not. -/
theorem Solves.equal_hole (hclosed : (Convention.ofContext ctx).IsClosed)
    (hsolves : Solves ctx n ((.hole i, ty) :: rest) solved m answer)
    (hanswer : ∀ c ∈ answer, Follows f c) :
    Equal (.ofContext ctx) .type (f i) (ty.bindHoles f) := by
  generalize hpending : (hole i, ty) :: rest = pending at hsolves
  induction hsolves generalizing ty with
  | done => cases hpending
  | reduce hreduces _ ih =>
    cases hpending
    cases hreduces with
    | agree hagrees =>
      have hequal : Equal (.ofContext ctx) .type (.hole i) _ := .of_agrees hagrees
      exact hequal.bindHoles hclosed f
    | unfoldRight _ nameLoc hname =>
      have hunfold : Equal (.ofContext ctx) .type _ _ := .unfold nameLoc hname
      exact (ih hanswer rfl).trans (hunfold.bindHoles hclosed f).symm
    | genericRight _ _ _ hlhs => exact absurd rfl (hlhs i)
    | expandRight _ _ hlhs => exact absurd rfl (hlhs i)
  | @assign _ _ id _ _ u _ _ _ hassigns hsolves _ =>
    cases hpending
    have hid : f id = u.bindHoles f := hanswer _ hsolves.mem_answer
    cases hassigns with
    | right =>
      show Equal _ _ (f i) (f id)
      rw [hid]
      exact .refl ..
    | left =>
      rw [hid]
      exact .refl ..

end Solver

namespace SolvedForm

open Solver

variable {ctx : Context} {f : Nat → Ty} {ty : Ty} {keys : Multiset String}
  {solved : List Constraint}

theorem mem_of_mem_heads (hsolved : SolvedForm solved) {i : Nat} (hi : i ∈ heads solved) :
    ∃ u, (Ty.hole i, u) ∈ solved := by
  obtain ⟨⟨lhs, u⟩, hc, hi⟩ := mem_heads.mp hi
  obtain ⟨j, rfl⟩ : ∃ j, lhs = .hole j := hsolved.exists_hole hc
  obtain rfl := mem_singleton.mp hi
  exact ⟨u, hc⟩

theorem matching (hsolved : SolvedForm solved) : Matching solved := by
  induction hsolved with
  | nil => exact ⟨by simp, nodup_nil⟩
  | cons holder hid havoids ih =>
    refine ⟨forall_mem_cons.mpr ⟨rfl, ih.pattern⟩, nodup_cons.mpr ⟨fun hhead => ?_, ih.distinct⟩⟩
    obtain ⟨u, hu⟩ := holder.mem_of_mem_heads hhead
    exact (havoids _ u hu).1 rfl

/-- A type has the fields that it has under solved constraints that fit. -/
theorem carries_of_applying (hsolved : SolvedForm solved) (hfits : ∀ c ∈ solved, Fits ctx f c)
    (hcarries : ((ty.applying solved).bindHoles f).Carries ctx keys) :
    (ty.bindHoles f).Carries ctx keys := by
  obtain ⟨rank, hrank⟩ := hsolved.isRankedBy
  have hopen {i : Nat} (hnone : (Assignment.ofConstraints solved).lookup i = none) :
      (hole i).applying solved = .hole i :=
    Assignment.resolveUpTo_of_unassigned _ _ fun j hj => mem_singleton.mp hj ▸ hnone
  have hhole : ∀ n i, rank i < n → ∀ keys,
      (((hole i).applying solved).bindHoles f).Carries ctx keys → (f i).Carries ctx keys := by
    intro n
    induction n with
    | zero => exact fun i hi => absurd hi (Nat.not_lt_zero _)
    | succ n ih =>
      intro i hi keys hcarries
      cases hlookup : (Assignment.ofConstraints solved).lookup i with
      | none => rwa [hopen hlookup] at hcarries
      | some u =>
        have hmem := hsolved.lookup_eq_some_iff.mp hlookup
        rw [hsolved.applying_hole hmem, applying_eq_bindHoles, bindHoles_bindHoles] at hcarries
        refine hfits _ hmem keys (.of_bindHoles (fun j hj keys hj' => ?_) hcarries)
        rcases hrank i u hlookup j hj with hnone | hlt
        · rwa [hopen hnone] at hj'
        · exact ih j (Nat.lt_of_lt_of_le hlt (Nat.le_of_lt_succ hi)) keys hj'
  rw [applying_eq_bindHoles, bindHoles_bindHoles] at hcarries
  exact .of_bindHoles (fun i _ => hhole _ i (Nat.lt_succ_self _)) hcarries

end SolvedForm

/-! ## Records with one more field -/

section

open Solver

variable {fuel n m : Nat} {ctx : Context} {key : String} {type p : Ty} {keys : Multiset String}
  {principal pending answer : List Constraint} {value record term : Term} {loc : Loc}
  {checker middle final : Checker} {base val solved : Solved}

section

variable (hctx : ctx.isSettled)

include hctx

/-- A pattern that is matched against a type has the fields of the type, as far as they are known
from solved constraints that are solved along with it. -/
theorem Solver.Solves.carries (hsolves : Solves ctx n pending [] m answer)
    (hissued : Issued n pending) (hmatching : Matching pending) (hmem : (p, type) ∈ pending)
    (hprincipal : SolvedForm principal) (hsub : ∀ c ∈ principal, c ∈ pending)
    (hcarries : (type.applying principal).Carries ctx keys) :
    (p.applying answer).Carries ctx keys := by
  have hsuits := (Context.holesIn_of_isSettled (p := fun _ => True) hctx).suits
  have hform := (hsolves.tidy hsuits hissued.tidy).2.1
  have hfits := hsolves.fits hsuits hissued.tidy hform.follows hmatching
  rw [applying_eq_bindHoles]
  exact hfits _ hmem keys (hprincipal.carries_of_applying (fun c hc => hfits c (hsub c hc))
    (hcarries.bindHoles _))

/-- What is solved for a term comes from a level of inference, whose constraints are solved. -/
theorem exists_steps_of_solve (hterm : term.isClosed)
    (hrun : solve fuel ctx term checker = .ok solved final) :
    ∃ inferred middle, solved.type = inferred.type ∧
      Inference.Steps (solve (fuel - 1)) ctx term checker inferred middle ∧
      Issued middle.counter inferred.constraints ∧
      Solves ctx middle.counter inferred.constraints [] final.counter solved.principal ∧
      SolvedForm solved.principal := by
  simp only [solve, Inference.solveWith, CheckM.bind_eq_ok, CheckM.pure_eq_ok] at hrun
  obtain ⟨inferred, middle, hinferred, principal, last, hunify, rfl, rfl⟩ := hrun
  have hissued : Issued middle.counter inferred.constraints :=
    (InferenceInvariant.issued.infers_infer _ hinferred
      (Context.issuedBy_of_isSettled hctx).ofContext hterm).ofConstraints
  have hsuits := (Context.holesIn_of_isSettled (p := fun _ => True) hctx).suits
  have hsolves := (unify_solves hunify).1
  refine ⟨inferred, middle, rfl, ?_, hissued, hsolves, (hsolves.tidy hsuits hissued.tidy).2.1⟩
  cases fuel with
  | zero => simp [infer] at hinferred
  | succ fuel => exact Inference.steps_of_step hinferred

/-- What is solved for a term matches its placeholders against types, none of which is new. -/
theorem solve_matching (hterm : term.isClosed)
    (hrun : solve fuel ctx term checker = .ok solved final) :
    SolvedForm solved.principal ∧ Matching solved.principal ∧
      ∀ i ∈ heads solved.principal, i ≤ final.counter := by
  obtain ⟨_, _, _, _, _, _, hform⟩ := exists_steps_of_solve hctx hterm hrun
  have hfinds := InferenceInvariant.issued.solves_solve _ hrun
    (Context.issuedBy_of_isSettled hctx).ofContext hterm
  exact ⟨hform, hform.matching, issued_heads hfinds.ofConstraints⟩

theorem Solver.Solves.restricted (hrecord : record.isClosed)
    (hbase : solve fuel ctx record checker = .ok base final) (hn : final.counter = n)
    (hpending : pending = (.record (.field key (.hole (n + 1)) (.hole (n + 2))) none, base.type) ::
      base.principal) (hissued : Issued (n + 2) pending)
    (hsolves : Solves ctx (n + 2) pending [] m answer)
    (hcarries : (base.type.applying base.principal).Carries ctx keys) :
    ((Ty.record (.hole (n + 2)) none).applying answer).Carries ctx (keys.erase key) := by
  obtain ⟨hform, hknown, hold⟩ := solve_matching hctx hrecord hbase
  have hdistinct := hknown.distinct
  have hheads : heads pending = (n + 1) :: (n + 2) :: heads base.principal := by
    simp [hpending, heads, holes]
  have hmatching : Matching pending :=
    ⟨hpending ▸ forall_mem_cons.mpr ⟨rfl, hknown.pattern⟩, by rw [hheads]; grind⟩
  have hfields := hsolves.carries hctx hissued hmatching (hpending ▸ mem_cons_self) hform
    (fun c hc => hpending ▸ mem_cons_of_mem _ hc) hcarries
  rw [applying_eq_bindHoles] at hfields ⊢
  obtain ⟨others, hothers, rfl⟩ := carries_field.mp (carries_record.mp hfields)
  rw [Multiset.erase_cons_head]
  exact .record none hothers

/-- A field is put in front of a record. The placeholders of the value were drawn after those of
the record. -/
theorem Solver.Solves.extended (hrecord : record.isClosed) (hvalue : value.isClosed)
    (hbase : solve fuel ctx record checker = .ok base middle)
    (hval : solve fuel ctx value middle = .ok val final) (hn : final.counter = n)
    (hpending : pending = (.hole (n + 1), val.type) ::
      (.record (.hole (n + 2)) none, base.type) :: val.principal ++ base.principal)
    (hissued : Issued (n + 2) pending) (hsolves : Solves ctx (n + 2) pending [] m answer)
    (hcarries : (base.type.applying base.principal).Carries ctx keys) :
    ((Ty.hole (n + 2)).applying answer).Carries ctx keys := by
  obtain ⟨hform, hknown, hold⟩ := solve_matching hctx hrecord hbase
  obtain ⟨-, hknown', hold'⟩ := solve_matching hctx hvalue hval
  have hdrawn := (InferenceInvariant.drawn middle.counter).solves_solve _ hval
    ⟨Nat.le_refl _, Context.holesIn_of_isSettled hctx⟩ hvalue
  have hle := hdrawn.le
  have hnewer : ∀ i ∈ heads val.principal, middle.counter < i := fun i hi => by
    obtain ⟨c, hc, hi⟩ := mem_heads.mp hi
    exact ((hdrawn.ofConstraints c hc).1 i hi).1
  have hdistinct := hknown.distinct
  have hdistinct' := hknown'.distinct
  have hheads : heads pending =
      (n + 1) :: (n + 2) :: (heads val.principal ++ heads base.principal) := by
    simp [hpending, heads, holes]
  have hmatching : Matching pending := by
    refine ⟨hpending ▸ forall_mem_cons.mpr ⟨rfl, forall_mem_cons.mpr ⟨rfl, forall_mem_append.mpr
      ⟨hknown'.pattern, hknown.pattern⟩⟩⟩, ?_⟩
    rw [hheads]
    grind
  have hmem : (Ty.record (.hole (n + 2)) none, base.type) ∈ pending := by simp [hpending]
  have hfields := hsolves.carries hctx hissued hmatching hmem hform
    (fun c hc => by simp [hpending, hc]) hcarries
  rw [applying_eq_bindHoles] at hfields
  exact carries_record.mp hfields

/-- A record with a field put in front is an equation for the type of the field. -/
theorem Solver.Solves.applying_field (hform : SolvedForm answer)
    (hsolves : Solves ctx m ((.hole n, type) :: pending) [] k answer) (row : Ty) :
    (Ty.record (.field key (.hole n) row) none).applying answer =
      .record (.field key ((Ty.hole n).applying answer) (row.applying answer)) none ∧
    Equal (.ofContext ctx) .type ((Ty.hole n).applying answer) (type.applying answer) := by
  have hclosed := (Context.holesIn_of_isSettled (p := fun _ => True) hctx).isClosed
  rw [applying_eq_bindHoles answer type, applying_eq_bindHoles answer row]
  exact ⟨applying_eq_bindHoles .., hsolves.equal_hole hclosed hform.follows⟩

end

theorem Ty.Alike.carries {known : String → Prop} {locs : Loc → Loc → Prop}
    {holes : Nat → Nat → Prop} {a b : Ty} (hlike : a.Alike known locs holes [] b)
    (hcarries : a.Carries ctx keys) : b.Carries ctx keys := by
  induction hcarries generalizing b with
  | emptyRow =>
    cases hlike
    exact .emptyRow
  | field key type _ ih =>
    cases hlike with
    | field _ hbase => exact .field key _ (ih hbase)
  | record label _ ih =>
    cases hlike with
    | record hrow => exact .record label (ih hrow)
  | declared loc hname hty _ =>
    cases hlike with
    | ident hsame _ => exact .declared _ (hsame.1 ▸ hname) hty

/-- A record that is solved twice has the same fields, if letters are type parameters only. -/
theorem solve_twice_carries {words : Vocabulary} {fuel' : Nat} {known again : Solved}
    {first next : Checker} (hctx : ctx.Within words) (hterm : words.Spells term)
    (hknown : solve fuel ctx term checker = .ok known final)
    (hagain : solve fuel' ctx term first = .ok again next)
    (hcarries : (known.type.applying known.principal).Carries ctx keys) :
    (again.type.applying again.principal).Carries ctx keys := by
  have hpairing := Pairing.none checker.counter first.counter
  have haccords := (solve_accords words fuel hpairing.unique hctx.pair_self hterm).accords hpairing
    fuel'
  rw [hknown, hagain] at haccords
  obtain ⟨_, -, hmore, halike⟩ := haccords
  exact (halike.type.applying hmore.unique halike.principal).carries hcarries

/-- A field is put in front of a record: its type is that of the value, and the record keeps its
fields. If a field of that name is written out in the type of the record, it is taken out of the
record before. The record is solved again for this and has the same fields, if no written type
leaves a letter free. -/
theorem solve_recordExtend_carries (hctx : ctx.isSettled = true)
    (hterm : (Term.recordExtend key value record loc).isClosed = true)
    (hrun : solve fuel ctx (.recordExtend key value record loc) checker = .ok solved final) :
    ∃ known first found middle last type row,
      solve (fuel - 1) ctx record checker = .ok known first ∧
      solve (fuel - 1) ctx value middle = .ok found last ∧
      solved.type.applying solved.principal = .record (.field key type row) none ∧
      Equal (.ofContext ctx) .type type (found.type.applying solved.principal) ∧
      if (known.type.applying known.principal).hasField key then
        ∃ again next, solve (fuel - 2) ctx record first = .ok again next ∧
          (∀ keys, (again.type.applying again.principal).Carries ctx keys →
            row.Carries ctx (keys.erase key)) ∧
          ∀ words, ctx.Within words → words.Spells record → ∀ keys,
            (known.type.applying known.principal).Carries ctx keys →
              (again.type.applying again.principal).Carries ctx keys
      else
        ∀ keys, (known.type.applying known.principal).Carries ctx keys → row.Carries ctx keys := by
  obtain ⟨inferred, middle, htype, hsteps, hissued, hsolves, hform⟩ :=
    exists_steps_of_solve hctx hterm hrun
  obtain ⟨hvalue, hrecord⟩ := and_eq_true_iff.mp hterm
  rw [htype]
  cases hsteps with
  | @extend _ _ _ _ base val _ middle last hbase hfield hval =>
    obtain ⟨hshape, hequal⟩ := hsolves.applying_field hctx hform (.hole (last.counter + 2))
    refine ⟨base, middle, val, middle, last, _, _, hbase, hval, hshape, hequal, ?_⟩
    rw [if_neg (by simp [hfield])]
    exact fun keys hkeys =>
      hsolves.extended hctx hrecord hvalue hbase hval rfl rfl hissued hkeys
  | @overwrite _ _ _ _ known base val _ first middle last hknown hfield hbase hval =>
    obtain ⟨hshape, hequal⟩ := hsolves.applying_field hctx hform (.hole (last.counter + 2))
    refine ⟨known, first, val, middle, last, _, _, hknown, hval, hshape, hequal, ?_⟩
    rw [if_pos hfield]
    have hrestrict : (Term.recordRestrict key record loc).isClosed = true := hrecord
    obtain ⟨inner, next, hinner, hsteps, hissued', hsolves', -⟩ :=
      exists_steps_of_solve hctx hrestrict hbase
    cases hsteps with
    | @restrict _ _ _ again _ next hagain =>
      refine ⟨again, next, hagain, fun keys hkeys => ?_, fun words hwithin hspells keys hkeys =>
        solve_twice_carries hwithin hspells hknown hagain hkeys⟩
      have hrest := hsolves'.restricted hctx hrecord hagain rfl rfl hissued' hkeys
      exact hsolves.extended hctx hrestrict hvalue hbase hval rfl rfl hissued (hinner ▸ hrest)

end

/-- Points have a number `x`, and `p` is a point. -/
def pointContext : Context :=
  [⟨3, "p", .typed (.named "P") .synthetic false⟩,
    ⟨2, "P", .typeAlias (.record (.field "x" .number .emptyRow) none) .synthetic false⟩,
    ⟨1, "String", .typeParameter⟩, ⟨0, "Number", .typeParameter⟩]

/-- A record in which `x` is a text. -/
def relabel (record : Term) : Term := .recordExtend "x" (.string .synthetic) record .synthetic

/-- In a record with a number `x` that is written out, the number is replaced. -/
theorem solve_recordExtend_carries_literal :
    ∃ solved final type row,
      solve 9 pointContext (relabel (.recordExtend "x" (.number .synthetic)
        (.emptyRecord .synthetic) .synthetic)) {} = .ok solved final ∧
      solved.type.applying solved.principal = .record (.field "x" type row) none ∧
      row.Carries pointContext 0 := by
  have hyields : (solve 9 pointContext (relabel (.recordExtend "x" (.number .synthetic)
      (.emptyRecord .synthetic) .synthetic))).yields {} (fun _ _ =>
      (solve 8 pointContext (.recordExtend "x" (.number .synthetic)
        (.emptyRecord .synthetic) .synthetic)).yields {} fun known _ =>
          known.type.applying known.principal = .record (.field "x" .number .emptyRow) none) =
      true := by decide +kernel
  obtain ⟨solved, final, hrun, hyields⟩ := CheckM.exists_of_yields hyields
  obtain ⟨known', first', hknown', htype⟩ := CheckM.exists_of_yields hyields
  obtain ⟨known, first, _, _, _, type, row, hknown, -, hshape, -, hrow⟩ :=
    solve_recordExtend_carries (by decide) (by decide) hrun
  obtain ⟨rfl, rfl⟩ := EStateM.Result.ok.inj (hknown'.symm.trans hknown)
  have htype := of_decide_eq_true htype
  have hcarries : (known'.type.applying known'.principal).Carries pointContext {"x"} :=
    htype ▸ .record none (.field "x" _ .emptyRow)
  rw [if_pos (by rw [htype]; decide)] at hrow
  obtain ⟨again, next, -, hrow, hsame⟩ := hrow
  have hwithin : pointContext.Within (.without "y" (by decide)) := by
    intro entry hentry type htype
    simp only [pointContext, mem_cons, not_mem_nil] at hentry
    rcases hentry with rfl | rfl | rfl | rfl | ⟨⟨⟩⟩ <;> cases htype <;> decide
  refine ⟨solved, final, type, row, hrun, hshape, ?_⟩
  exact hrow _ (hsame _ hwithin (Vocabulary.spells_of_isApartFrom (by decide)) _ hcarries)

/-- The fields of `p` are known through the name of its type only, and it keeps its number `x`
when it gets another one in front. -/
theorem solve_recordExtend_point :
    (∃ known final, solve 9 pointContext (.reference "p" .synthetic) {} = .ok known final ∧
      (known.type.applying known.principal).Carries pointContext {"x"}) ∧
    ∃ solved final, solve 9 pointContext (relabel (.reference "p" .synthetic)) {} =
      .ok solved final ∧
      (solved.type.applying solved.principal).Carries pointContext ("x" ::ₘ {"x"}) := by
  have hpoint : (named "P").Carries pointContext {"x"} :=
    .declared _ rfl (.record none (.field "x" _ .emptyRow))
  have hyields : (solve 9 pointContext (.reference "p" .synthetic)).yields {} (fun known _ =>
      known.type.applying known.principal = .named "P") = true := by decide +kernel
  have hyields' : (solve 9 pointContext (relabel (.reference "p" .synthetic))).yields {}
      (fun solved _ => solved.type.applying solved.principal =
        .record (.field "x" .string (.field "x" .number .emptyRow)) none) = true := by
    decide +kernel
  obtain ⟨known, middle, hknown, htype⟩ := CheckM.exists_of_yields hyields
  obtain ⟨solved, final, hsolved, htype'⟩ := CheckM.exists_of_yields hyields'
  exact ⟨⟨known, middle, hknown, of_decide_eq_true htype ▸ hpoint⟩, solved, final, hsolved,
    of_decide_eq_true htype' ▸ .record none (.field "x" _ (.field "x" _ .emptyRow))⟩

end RowScript
