import RowScript.Proofs.Equality

/-!
# Resolution along acyclic assignments

Resolution leaves a placeholder as it is that is reached again on the way, so it ends for every
assignment. Solved constraints are acyclic: each assigned type avoids its own placeholder and all
that were assigned before it.
-/

namespace RowScript

open Ty Assignment List

variable {convention : Convention}

namespace Assignment

/-- The recursion of resolution, with the placeholders whose types it is in. Each rule asks for
the recursive calls that are made, so a type has a result if the recursion ends on it. -/
inductive Visits (assignment : Assignment) : List Nat → Ty → Ty → Prop
  | ident {active name loc} : Visits assignment active (.ident name loc) (.ident name loc)
  | emptyRow {active} : Visits assignment active .emptyRow .emptyRow
  | enter {active id ty result} : assignment.lookup id = some ty → id ∉ active →
    Visits assignment (id :: active) ty result → Visits assignment active (.hole id) result
  | stay {active id} : assignment.lookup id = none ∨ id ∈ active →
    Visits assignment active (.hole id) (.hole id)
  | arrow {active a b a' b'} : Visits assignment active a a' → Visits assignment active b b' →
    Visits assignment active (.arrow a b) (.arrow a' b')
  | generic {active param a a'} : Visits assignment active a a' →
    Visits assignment active (.generic param a) (.generic param a')
  | app {active a b a' b' loc} : Visits assignment active a a' → Visits assignment active b b' →
    Visits assignment active (.app a b loc) (.app a' b' loc)
  | record {active a a' label} : Visits assignment active a a' →
    Visits assignment active (.record a label) (.record a' label)
  | field {active key a b a' b'} : Visits assignment active a a' →
    Visits assignment active b b' → Visits assignment active (.field key a b) (.field key a' b')

variable {assignment : Assignment} {active : List Nat} {ty result other : Ty} {id i : Nat}
  {rank : Nat → Nat} {f : Nat → Ty}

theorem lookup_cons (id i : Nat) (ty : Ty) (rest : Assignment) :
    List.lookup i ((id, ty) :: rest) = if i = id then some ty else rest.lookup i := by
  rw [List.lookup_cons]
  by_cases hi : i = id
  · simp [hi]
  · rw [beq_false_of_ne hi, if_neg hi]

theorem lookup_without (assignment : Assignment) (id i : Nat) :
    (assignment.without id).lookup i = if i = id then none else assignment.lookup i := by
  induction assignment with
  | nil => simp [without]
  | cons entry rest ih =>
    obtain ⟨j, ty⟩ := entry
    simp only [without] at ih
    by_cases hj : j = id
    · simp only [without, hj, filter_cons, ne_eq, not_true_eq_false, decide_false,
        Bool.false_eq_true, if_false, ih, lookup_cons]
      by_cases hi : i = id
      · simp only [hi, if_true]
      · simp only [hi, if_false]
    · simp only [without, hj, filter_cons, ne_eq, not_false_eq_true, decide_true, if_true,
        lookup_cons, ih]
      by_cases hi : i = j
      · simp [hi, hj]
      · simp [hi]

theorem length_without_lt (hassigned : assignment.lookup id = some ty) :
    (assignment.without id).length < assignment.length := by
  have hmem : (id, ty) ∈ assignment := by
    obtain ⟨newer, older, rfl, -⟩ := lookup_eq_some_iff.mp hassigned
    simp
  apply length_filter_lt_length_iff_exists.mpr
  exact ⟨(id, ty), hmem, by simp⟩

/-- No placeholder leads back to itself: along the assigned types a rank goes down. -/
def IsRankedBy (assignment : Assignment) (rank : Nat → Nat) : Prop :=
  ∀ id ty, assignment.lookup id = some ty →
    ∀ i ∈ ty.holes, assignment.lookup i = none ∨ rank i < rank id

theorem resolve_eq_bindHoles (assignment : Assignment) (ty : Ty) :
    assignment.resolve ty = ty.bindHoles fun i => assignment.resolve (.hole i) := by
  cases assignment with
  | nil => exact (bindHoles_hole ty).symm
  | cons entry rest => rfl

theorem resolveUpTo_of_unassigned (n : Nat) (assignment : Assignment)
    (hunassigned : ∀ i ∈ ty.holes, assignment.lookup i = none) :
    resolveUpTo n assignment ty = ty := by
  cases n with
  | zero => rfl
  | succ n =>
    rw [resolveUpTo, bindHoles_congr (g := .hole), bindHoles_hole]
    intro i hi
    rw [hunassigned i hi]

/-- The assignment without the placeholders whose types resolution is in. -/
def outside (assignment : Assignment) : List Nat → Assignment
  | [] => assignment
  | id :: active => (assignment.outside active).without id

theorem lookup_outside :
    (assignment.outside active).lookup i = if i ∈ active then none else assignment.lookup i := by
  induction active with
  | nil => simp [outside]
  | cons id active ih =>
    rw [outside, lookup_without, ih]
    by_cases hi : i = id
    · simp [hi]
    · simp [hi]

theorem visits_bindHoles (hholes : ∀ i ∈ ty.holes, assignment.Visits active (.hole i) (f i)) :
    assignment.Visits active ty (ty.bindHoles f) := by
  induction ty with
  | ident => exact .ident
  | emptyRow => exact .emptyRow
  | hole id => exact hholes id mem_cons_self
  | arrow a b iha ihb =>
    rw [holes, forall_mem_append] at hholes
    exact .arrow (iha hholes.1) (ihb hholes.2)
  | app a b loc iha ihb =>
    rw [holes, forall_mem_append] at hholes
    exact .app (iha hholes.1) (ihb hholes.2)
  | field key a b iha ihb =>
    rw [holes, forall_mem_append] at hholes
    exact .field (iha hholes.1) (ihb hholes.2)
  | generic _ a ih => exact .generic (ih hholes)
  | record a _ ih => exact .record (ih hholes)

theorem visits_of_lookup_eq_none (hnone : (assignment.outside active).lookup i = none) :
    assignment.Visits active (.hole i) (.hole i) := by
  rw [lookup_outside] at hnone
  split at hnone
  · exact .stay (.inr ‹_›)
  · exact .stay (.inl hnone)

/-- Every placeholder that resolution goes into is one less to go into. -/
theorem visits_resolveUpTo (n : Nat) (hlength : (assignment.outside active).length ≤ n) (ty : Ty) :
    assignment.Visits active ty (resolveUpTo n (assignment.outside active) ty) := by
  induction n generalizing active ty with
  | zero =>
    have hnil := eq_nil_of_length_eq_zero (Nat.le_zero.mp hlength)
    have hstay : ∀ i ∈ ty.holes, assignment.Visits active (.hole i) (.hole i) :=
      fun i _ => visits_of_lookup_eq_none (by rw [hnil]; rfl)
    have hvisits := visits_bindHoles hstay
    rwa [bindHoles_hole] at hvisits
  | succ n ih =>
    refine visits_bindHoles fun i _ => ?_
    cases hassigned : (assignment.outside active).lookup i with
    | none => exact visits_of_lookup_eq_none hassigned
    | some assigned =>
      have hshorter := length_without_lt hassigned
      have hlength' := Nat.le_of_lt_succ (Nat.lt_of_lt_of_le hshorter hlength)
      have hvisits := @ih (i :: active) hlength' assigned
      rw [lookup_outside] at hassigned
      split at hassigned
      · cases hassigned
      · exact .enter hassigned ‹_› hvisits

theorem Visits.unique (hresult : assignment.Visits active ty result)
    (hother : assignment.Visits active ty other) : result = other := by
  induction hresult generalizing other with
  | ident | emptyRow => cases hother; rfl
  | enter hassigned hinactive _ ih =>
    cases hother with
    | enter hassigned' _ hother =>
      cases hassigned.symm.trans hassigned'
      exact ih hother
    | stay hstay =>
      obtain hnone | hactive := hstay
      · cases hassigned.symm.trans hnone
      · exact absurd hactive hinactive
  | stay hstay =>
    cases hother with
    | stay => rfl
    | enter hassigned hinactive _ =>
      obtain hnone | hactive := hstay
      · cases hassigned.symm.trans hnone
      · exact absurd hactive hinactive
  | arrow _ _ iha ihb =>
    cases hother with
    | arrow ha hb => rw [iha ha, ihb hb]
  | app _ _ iha ihb =>
    cases hother with
    | app ha hb => rw [iha ha, ihb hb]
  | field _ _ iha ihb =>
    cases hother with
    | field ha hb => rw [iha ha, ihb hb]
  | generic _ ih =>
    cases hother with
    | generic ha => rw [ih ha]
  | record _ ih =>
    cases hother with
    | record ha => rw [ih ha]

theorem visits_iff : assignment.Visits [] ty result ↔ result = assignment.resolve ty := by
  have hvisits : assignment.Visits [] ty (assignment.resolve ty) :=
    visits_resolveUpTo assignment.length (Nat.le_refl _) ty
  refine ⟨fun hresult => hresult.unique hvisits, ?_⟩
  rintro rfl
  exact hvisits

/-- What matters to resolving a type are the assigned types of lower rank, whatever other
types resolution is in. -/
theorem Visits.among {inner : List Nat} (hrank : assignment.IsRankedBy rank)
    (hvisits : assignment.Visits active ty result) (bound : Nat)
    (hty : ∀ i ∈ ty.holes, assignment.lookup i = none ∨ rank i < bound)
    (hactive : ∀ i ∈ active, bound ≤ rank i) (hinner : ∀ i ∈ inner, bound ≤ rank i) :
    assignment.Visits inner ty result := by
  induction hvisits generalizing inner bound with
  | ident => exact .ident
  | emptyRow => exact .emptyRow
  | @enter active id assigned result hassigned _ _ ih =>
    have hlower : rank id < bound := by simpa [hassigned] using hty id mem_cons_self
    have hbelow (others : List Nat) (hothers : ∀ i ∈ others, bound ≤ rank i) :
        ∀ i ∈ id :: others, rank id ≤ rank i :=
      forall_mem_cons.mpr ⟨Nat.le_refl _, fun i hi =>
        Nat.le_trans (Nat.le_of_lt hlower) (hothers i hi)⟩
    refine .enter hassigned (fun hid => absurd (hinner id hid) (Nat.not_le.mpr hlower)) ?_
    exact ih (rank id) (hrank id assigned hassigned) (hbelow _ hactive) (hbelow _ hinner)
  | @stay _ id hstay =>
    obtain hnone | hlower := hty id mem_cons_self
    · exact .stay (.inl hnone)
    · exact .stay (hstay.imp_right fun hid => absurd (hactive id hid) (Nat.not_le.mpr hlower))
  | arrow _ _ iha ihb =>
    rw [holes, forall_mem_append] at hty
    exact .arrow (iha bound hty.1 hactive hinner) (ihb bound hty.2 hactive hinner)
  | app _ _ iha ihb =>
    rw [holes, forall_mem_append] at hty
    exact .app (iha bound hty.1 hactive hinner) (ihb bound hty.2 hactive hinner)
  | field _ _ iha ihb =>
    rw [holes, forall_mem_append] at hty
    exact .field (iha bound hty.1 hactive hinner) (ihb bound hty.2 hactive hinner)
  | generic _ ih => exact .generic (ih bound hty hactive hinner)
  | record _ ih => exact .record (ih bound hty hactive hinner)

/-- In an acyclic assignment a resolved placeholder is its type resolved. -/
theorem resolve_hole_of_lookup (hrank : assignment.IsRankedBy rank)
    (hassigned : assignment.lookup id = some ty) :
    assignment.resolve (.hole id) = assignment.resolve ty := by
  have hvisits : assignment.Visits [] ty (assignment.resolve ty) := visits_iff.mpr rfl
  have hinside : assignment.Visits [id] ty (assignment.resolve ty) :=
    hvisits.among hrank (rank id) (hrank id ty hassigned) (fun _ hi => absurd hi not_mem_nil)
      (by simp)
  exact (visits_iff.mp (.enter hassigned not_mem_nil hinside)).symm

theorem resolve_hole_of_lookup_eq_none (hunassigned : assignment.lookup id = none) :
    assignment.resolve (.hole id) = .hole id := by
  apply resolveUpTo_of_unassigned
  intro i hi
  obtain rfl : i = id := by simpa [holes] using hi
  exact hunassigned

/-- A substitution that satisfies an acyclic assignment cannot tell a type from
the resolved type. -/
theorem equal_bindHoles_resolve (hrank : assignment.IsRankedBy rank)
    (hsatisfied : ∀ i ty, assignment.lookup i = some ty → Equal convention .type (f i) (ty.bindHoles
      f)) (ty : Ty) :
    Equal convention .type ((assignment.resolve ty).bindHoles f) (ty.bindHoles f) := by
  have hhole : ∀ bound i, rank i < bound →
      Equal convention .type ((assignment.resolve (.hole i)).bindHoles f) (f i) := by
    intro bound
    induction bound with
    | zero => intro i hi; omega
    | succ bound ih =>
      intro i hi
      cases hassigned : assignment.lookup i with
      | none =>
        rw [resolve_hole_of_lookup_eq_none hassigned]
        exact .refl ..
      | some assigned =>
        rw [resolve_hole_of_lookup hrank hassigned, resolve_eq_bindHoles,
          bindHoles_bindHoles]
        refine .trans (.bindHoles_congr ?_) (hsatisfied i assigned hassigned).symm
        intro j hj
        rcases hrank i assigned hassigned j hj with hnone | hlt
        · rw [resolve_hole_of_lookup_eq_none hnone]
          exact .refl ..
        · exact ih j (by omega)
  rw [resolve_eq_bindHoles, bindHoles_bindHoles]
  exact .bindHoles_congr fun i _ => hhole (rank i + 1) i (Nat.lt_succ_self _)

end Assignment

/-- Constraints in the form in which solving returns them, the latest one first:
each gives a type to a new placeholder, and the type mentions neither that
placeholder nor one that was given a type before. -/
inductive SolvedForm : List Constraint → Prop where
  | nil : SolvedForm []
  | cons {id : Nat} {ty : Ty} {older : List Constraint} (holder : SolvedForm older)
      (hid : id ∉ ty.holes)
      (havoids : ∀ i u, (hole i, u) ∈ older → i ≠ id ∧ i ∉ ty.holes) :
      SolvedForm ((.hole id, ty) :: older)

namespace SolvedForm

variable {solved : List Constraint} {id : Nat} {ty : Ty}

variable (hsolved : SolvedForm solved)

include hsolved

theorem exists_hole {c : Constraint} (hc : c ∈ solved) : ∃ i, c.1 = .hole i := by
  induction hsolved with
  | nil => cases hc
  | @cons id ty older holder hid havoids ih =>
    rcases mem_cons.mp hc with rfl | hc
    · exact ⟨id, rfl⟩
    · exact ih hc

/-- The assignment holds exactly the solved constraints. -/
theorem lookup_eq_some_iff :
    (ofConstraints solved).lookup id = some ty ↔ (Ty.hole id, ty) ∈ solved := by
  induction hsolved generalizing id ty with
  | nil => simp [ofConstraints]
  | @cons first u older holder hfirst havoids ih =>
    rw [ofConstraints, lookup_cons, lookup_without]
    by_cases hid : id = first
    · subst hid
      have hnot : ∀ t, (hole id, t) ∉ older := fun t ht => (havoids id t ht).1 rfl
      simp [hnot, eq_comm]
    · simp [hid, ih]

/-- Solved constraints are acyclic: an older placeholder may lead to newer ones
only. -/
theorem isRankedBy : ∃ rank, (ofConstraints solved).IsRankedBy rank := by
  induction hsolved with
  | nil =>
    refine ⟨fun _ => 0, fun id ty h => ?_⟩
    simp [ofConstraints] at h
  | @cons first u older holder hfirst havoids ih =>
    obtain ⟨rank, hrank⟩ := ih
    have hform : SolvedForm ((.hole first, u) :: older) := .cons holder hfirst havoids
    refine ⟨fun i => if i = first then 0 else rank i + 1, ?_⟩
    intro id ty hassigned i hi
    rw [hform.lookup_eq_some_iff] at hassigned
    cases hi' : (ofConstraints ((.hole first, u) :: older)).lookup i with
    | none => exact .inl rfl
    | some assigned =>
      right
      rw [hform.lookup_eq_some_iff] at hi'
      rcases mem_cons.mp hassigned with heq | hold
      · -- the newest type mentions no assigned placeholder at all
        obtain ⟨rfl, rfl⟩ : id = first ∧ ty = u := by simpa using heq
        rcases mem_cons.mp hi' with heq' | hold'
        · obtain ⟨rfl, -⟩ : i = id ∧ assigned = ty := by simpa using heq'
          exact absurd hi hfirst
        · exact absurd hi (havoids i assigned hold').2
      · have hne : id ≠ first := (havoids id ty hold).1
        show (if i = first then 0 else rank i + 1) < (if id = first then 0 else rank id + 1)
        rw [if_neg hne]
        by_cases hifirst : i = first
        · rw [if_pos hifirst]
          omega
        · rw [if_neg hifirst]
          have hiold : (hole i, assigned) ∈ older := by
            simpa [hifirst] using hi'
          have hlt := hrank id ty (holder.lookup_eq_some_iff.mpr hold) i hi
          rw [holder.lookup_eq_some_iff.mpr hiold] at hlt
          simpa using hlt

/-- Under solved constraints a placeholder and its type come to the same. -/
theorem applying_hole (hmem : (Ty.hole id, ty) ∈ solved) :
    (Ty.hole id).applying solved = ty.applying solved := by
  obtain ⟨rank, hrank⟩ := hsolved.isRankedBy
  exact resolve_hole_of_lookup hrank (hsolved.lookup_eq_some_iff.mpr hmem)

/-- A substitution that satisfies solved constraints does so for every type under
them. -/
theorem equal_bindHoles_applying {f : Nat → Ty}
    (hsatisfied : ∀ i u, (Ty.hole i, u) ∈ solved → Equal convention .type (f i) (u.bindHoles f))
    (ty : Ty) : Equal convention .type ((ty.applying solved).bindHoles f) (ty.bindHoles f) := by
  obtain ⟨rank, hrank⟩ := hsolved.isRankedBy
  exact equal_bindHoles_resolve hrank
    (fun i u h => hsatisfied i u (hsolved.lookup_eq_some_iff.mp h)) ty

end SolvedForm

/-- Applying solved constraints is a substitution of placeholders. -/
theorem Ty.applying_eq_bindHoles (solved : List Constraint) (ty : Ty) :
    ty.applying solved = ty.bindHoles fun i => (Ty.hole i).applying solved :=
  resolve_eq_bindHoles _ ty

end RowScript
