import RowScript.Proofs.SolverInvariant

/-!
# Answers as idempotent substitutions

An answer is a list of assignments, the latest one first. A type found for a placeholder mentions
only placeholders that are found later or never, so a type under the answer mentions none that was
found.
-/

namespace RowScript

namespace Assignment

variable {assignment : Assignment}

/-- In an acyclic assignment only unassigned placeholders are left in a resolved type. -/
theorem lookup_eq_none_of_mem_holes_resolve {rank : Nat → Nat} (hrank : assignment.IsRankedBy rank)
    {ty : Ty} {i : Nat} (hi : i ∈ (assignment.resolve ty).holes) : assignment.lookup i = none := by
  have hhole : ∀ bound j, rank j < bound → i ∈ (assignment.resolve (.hole j)).holes →
      assignment.lookup i = none := by
    intro bound
    induction bound with
    | zero => exact fun j hj => absurd hj (Nat.not_lt_zero _)
    | succ bound ih =>
      intro j hj hmem
      cases hassigned : assignment.lookup j with
      | none =>
        rw [resolve_hole_of_lookup_eq_none hassigned, Ty.holes, List.mem_singleton] at hmem
        rwa [hmem]
      | some assigned =>
        rw [resolve_hole_of_lookup hrank hassigned, resolve_eq_bindHoles] at hmem
        obtain ⟨k, hk, hmem⟩ := Ty.mem_holes_bindHoles.mp hmem
        rcases hrank j assigned hassigned k hk with hnone | hlt
        · rw [resolve_hole_of_lookup_eq_none hnone, Ty.holes, List.mem_singleton] at hmem
          rwa [hmem]
        · exact ih k (Nat.lt_of_lt_of_le hlt (Nat.le_of_lt_succ hj)) hmem
  rw [resolve_eq_bindHoles] at hi
  obtain ⟨j, -, hi⟩ := Ty.mem_holes_bindHoles.mp hi
  exact hhole (rank j + 1) j (Nat.lt_succ_self _) hi

end Assignment

namespace SolvedForm

variable {solved : List Constraint}

theorem nodup (hsolved : SolvedForm solved) : (solved.map Prod.fst).Nodup := by
  induction hsolved with
  | nil => exact List.nodup_nil
  | @cons id ty older holder hid havoids ih =>
    refine List.nodup_cons.mpr ⟨fun hmem => ?_, ih⟩
    obtain ⟨c, hc, hfirst⟩ := List.mem_map.mp hmem
    obtain ⟨lhs, u⟩ := c
    obtain rfl : lhs = .hole id := hfirst
    exact (havoids id u hc).1 rfl

/-- The type given to a placeholder mentions neither it nor one that was given a type
before. -/
theorem avoids_older {newer older : List Constraint} {id : Nat} {ty : Ty}
    (hsolved : SolvedForm (newer ++ (.hole id, ty) :: older)) :
    id ∉ ty.holes ∧ ∀ i u, (Ty.hole i, u) ∈ older → i ∉ ty.holes := by
  induction newer with
  | nil =>
    cases hsolved with
    | cons _ hid havoids => exact ⟨hid, fun i u hu => (havoids i u hu).2⟩
  | cons c newer ih =>
    cases hsolved with
    | cons holder _ _ => exact ih holder

/-- What is solved does not occur in a type under the solved constraints. -/
theorem not_mem_holes_applying (hsolved : SolvedForm solved) {i : Nat} {u : Ty}
    (hmem : (Ty.hole i, u) ∈ solved) (ty : Ty) : i ∉ (ty.applying solved).holes := by
  obtain ⟨rank, hrank⟩ := hsolved.isRankedBy
  intro hi
  have hnone := Assignment.lookup_eq_none_of_mem_holes_resolve hrank hi
  rw [hsolved.lookup_eq_some_iff.mpr hmem] at hnone
  cases hnone

theorem applying_applying (hsolved : SolvedForm solved) (ty : Ty) :
    (ty.applying solved).applying solved = ty.applying solved := by
  obtain ⟨rank, hrank⟩ := hsolved.isRankedBy
  exact Assignment.resolveUpTo_of_unassigned _ _ fun i hi =>
    Assignment.lookup_eq_none_of_mem_holes_resolve hrank hi

end SolvedForm

/-- The answer of a run is an acyclic and idempotent substitution. -/
theorem unify_idempotent {fuel : Nat} {ctx : Context} {loc : Option Loc}
    {constraints answer : List Constraint} {checker final : Checker}
    (hctx : ∀ name type, ctx.alias? name = some type → type.holes = [])
    (hissued : Solver.Issued checker.counter constraints)
    (hrun : unify fuel ctx loc constraints checker = .ok answer final) :
    (∀ c ∈ answer, ∃ id, c.1 = .hole id) ∧ (answer.map Prod.fst).Nodup ∧
      (∀ newer id ty older, answer = newer ++ (.hole id, ty) :: older →
        id ∉ ty.holes ∧ ∀ i u, (Ty.hole i, u) ∈ older → i ∉ ty.holes) ∧
      ∀ ty : Ty, (∀ i u, (Ty.hole i, u) ∈ answer → i ∉ (ty.applying answer).holes) ∧
        (ty.applying answer).applying answer = ty.applying answer := by
  have hsuits : (Ty.Convention.ofContext ctx).Suits ctx :=
    ⟨hctx, fun _ type _ => Ty.Convention.admits_ofContext ctx type⟩
  have htidy : Solver.Tidy (.ofContext ctx) ctx checker.counter constraints [] :=
    .start (fun c _ => ⟨Ty.Convention.admits_ofContext ctx c.1,
      Ty.Convention.admits_ofContext ctx c.2⟩) hissued
  have hform : SolvedForm answer := ((unify_solves hrun).1.tidy hsuits htidy).2.1
  refine ⟨fun c hc => hform.exists_hole hc, hform.nodup, ?_, fun ty =>
    ⟨fun i u hu => hform.not_mem_holes_applying hu ty, hform.applying_applying ty⟩⟩
  rintro newer id ty older rfl
  exact hform.avoids_older

/-- A labelled generic type of records with one field, and a type to put in. -/
def cellContext : Context :=
  [⟨1, "Cell", .typeAlias (.generic "t" (.record (.field "content" (.named "t") .emptyRow)
      (some "Cell"))) .synthetic true⟩,
    ⟨0, "Number", .typeParameter⟩]

/-- A generic function that is used at some type, a cell that is spelled out, and what the
function is used at. -/
def cellConstraints : List Constraint :=
  [(.generic "a" (.arrow (.named "a") (.named "a")), .arrow (.hole 1) (.hole 2)),
    (.app (.named "Cell") (.hole 2) .synthetic,
      .record (.field "content" (.hole 3) (.hole 4)) none),
    (.hole 1, .named "Number")]

/-- The placeholder for the parameter of the function is found last, and three types refer
to it. -/
def cellAnswer : List Constraint :=
  [(.hole 5, .named "Number"), (.hole 4, .emptyRow), (.hole 3, .hole 5), (.hole 2, .hole 5),
    (.hole 1, .hole 5)]

theorem cellContext_alias?_holes (name : String) (type : Ty)
    (hname : cellContext.alias? name = some type) : type.holes = [] := by
  by_cases hcell : name = "Cell"
  · subst hcell
    cases hname
    rfl
  · by_cases hnumber : name = "Number"
    · subst hnumber
      cases hname
    · simp [Context.alias?, Context.find?, cellContext, Ne.symm hcell, Ne.symm hnumber] at hname

/-- The cell constraints are solved by a chain of assignments, and the answer gives the same
when it is applied again. -/
theorem unify_idempotent_cell :
    unify 40 cellContext none cellConstraints { counter := 4 } =
        .ok cellAnswer { counter := 5 } ∧
      (∀ c ∈ cellAnswer, ∃ id, c.1 = .hole id) ∧ (cellAnswer.map Prod.fst).Nodup ∧
      (∀ newer id ty older, cellAnswer = newer ++ (.hole id, ty) :: older →
        id ∉ ty.holes ∧ ∀ i u, (Ty.hole i, u) ∈ older → i ∉ ty.holes) ∧
      ∀ ty : Ty, (∀ i u, (Ty.hole i, u) ∈ cellAnswer → i ∉ (ty.applying cellAnswer).holes) ∧
        (ty.applying cellAnswer).applying cellAnswer = ty.applying cellAnswer := by
  have hrun : unify 40 cellContext none cellConstraints { counter := 4 } =
      .ok cellAnswer { counter := 5 } := rfl
  exact ⟨hrun, unify_idempotent cellContext_alias?_holes (by decide) hrun⟩

end RowScript
