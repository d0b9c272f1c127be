import Mathlib.Data.Finset.Card
import Mathlib.Logic.Relation
import Mathlib.Order.FixedPoints
import RowScript.Proofs.Resolution

/-!
# Resolution and the least fixed point

If no placeholder leads back to itself, then resolution gives the least fixed point of replacing
assigned placeholders.
-/

namespace RowScript

open Ty List

open Relation (TransGen)

namespace Assignment

variable {assignment : Assignment} {ty result : Ty} {rank : Nat → Nat}

/-- A placeholder leads to the placeholders of its type. -/
def Leads (assignment : Assignment) (id i : Nat) : Prop :=
  ∃ ty, assignment.lookup id = some ty ∧ i ∈ ty.holes

/-- No placeholder leads back to itself. -/
def IsAcyclic (assignment : Assignment) : Prop := ∀ id, ¬TransGen assignment.Leads id id

open Classical in
/-- A placeholder ranks by the number of assigned placeholders that it leads to. -/
theorem IsAcyclic.exists_rank (hacyclic : assignment.IsAcyclic) :
    ∃ rank, assignment.IsRankedBy rank := by
  refine ⟨fun id => ((assignment.map Prod.fst).toFinset.filter (TransGen assignment.Leads id)).card,
    fun id ty hassigned i hi => ?_⟩
  cases hassigned' : assignment.lookup i with
  | none => exact .inl rfl
  | some assigned =>
    have hleads : assignment.Leads id i := ⟨ty, hassigned, hi⟩
    refine .inr (Finset.card_lt_card (Finset.ssubset_iff_of_subset ?_ |>.mpr ⟨i, ?_, ?_⟩))
    · exact Finset.monotone_filter_right _ fun _ _ hreached => .head hleads hreached
    · obtain ⟨newer, older, rfl, -⟩ := lookup_eq_some_iff.mp hassigned'
      simpa using TransGen.single hleads
    · exact fun hmem => hacyclic i (Finset.mem_filter.mp hmem).2

/-- Replaces every assigned placeholder of a type by what `next` gives for its type. -/
def replacing (assignment : Assignment) : (Ty → Ty → Prop) →o (Ty → Ty → Prop) where
  toFun next ty result := ∃ f : Nat → Ty, result = ty.bindHoles f ∧
    ∀ i ∈ ty.holes, match assignment.lookup i with
      | some assigned => next assigned (f i)
      | none => f i = .hole i
  monotone' next later hle ty result := by
    rintro ⟨f, rfl, hf⟩
    refine ⟨f, rfl, fun i hi => ?_⟩
    have hi := hf i hi
    split at hi
    · exact hle _ _ hi
    · exact hi

/-- The least fixed point gives no other result than resolution. -/
theorem IsRankedBy.eq_resolve (hrank : assignment.IsRankedBy rank)
    (hresult : assignment.replacing.lfp ty result) : result = assignment.resolve ty := by
  have hle : assignment.replacing.lfp ≤ fun ty result => result = assignment.resolve ty := by
    refine OrderHom.lfp_le _ fun ty result => ?_
    rintro ⟨f, rfl, hf⟩
    rw [resolve_eq_bindHoles]
    refine bindHoles_congr fun i hi => ?_
    have hi := hf i hi
    split at hi
    · rw [hi, resolve_hole_of_lookup hrank ‹_›]
    · rw [hi, resolve_hole_of_lookup_eq_none ‹_›]
  exact hle ty result hresult

/-- A type is resolved if the types of its assigned placeholders are. -/
theorem IsRankedBy.lfp_resolve_of (hrank : assignment.IsRankedBy rank)
    (hassigned : ∀ i ∈ ty.holes, ∀ assigned, assignment.lookup i = some assigned →
      assignment.replacing.lfp assigned (assignment.resolve assigned)) :
    assignment.replacing.lfp ty (assignment.resolve ty) := by
  rw [← OrderHom.map_lfp]
  refine ⟨_, resolve_eq_bindHoles assignment ty, fun i hi => ?_⟩
  split
  · rename_i assigned hlookup
    rw [resolve_hole_of_lookup hrank hlookup]
    exact hassigned i hi assigned hlookup
  · exact resolve_hole_of_lookup_eq_none ‹_›

theorem IsRankedBy.lfp_resolve (hrank : assignment.IsRankedBy rank) (ty : Ty) :
    assignment.replacing.lfp ty (assignment.resolve ty) := by
  -- the placeholders of an assigned type have lower ranks
  have hall (bound : Nat) : ∀ i assigned, rank i = bound → assignment.lookup i = some assigned →
      assignment.replacing.lfp assigned (assignment.resolve assigned) := by
    induction bound using Nat.strong_induction_on with
    | _ bound ih =>
      rintro i assigned rfl hassigned
      refine hrank.lfp_resolve_of fun j hj inner hinner => ?_
      have hlower := (hrank i assigned hassigned j hj).resolve_left (by simp [hinner])
      exact ih (rank j) hlower j inner rfl hinner
  exact hrank.lfp_resolve_of fun i _ assigned => hall (rank i) i assigned rfl

/-- Resolution ends for every assignment with one result, and for an acyclic assignment this is
the least fixed point of replacing the assigned placeholders by their resolved types. -/
theorem resolve_least (assignment : Assignment) (ty : Ty) :
    (∀ result, assignment.Visits [] ty result ↔ result = assignment.resolve ty) ∧
      (assignment.IsAcyclic →
        ∀ result, assignment.replacing.lfp ty result ↔ result = assignment.resolve ty) := by
  refine ⟨fun result => visits_iff, fun hacyclic result => ?_⟩
  obtain ⟨rank, hrank⟩ := hacyclic.exists_rank
  refine ⟨hrank.eq_resolve, ?_⟩
  rintro rfl
  exact hrank.lfp_resolve ty

/-- The second placeholder occurs twice in the type of the first one. -/
def shared : Assignment := [(1, .arrow (.hole 2) (.hole 2)), (2, .arrow (.hole 3) .unit)]

/-- A placeholder that occurs twice in the type of another one, and beside it, is resolved at all
three places. -/
theorem resolve_least_shared :
    shared.IsAcyclic ∧ shared.replacing.lfp (.arrow (.hole 1) (.hole 2))
      (.arrow (.arrow (.arrow (.hole 3) .unit) (.arrow (.hole 3) .unit))
        (.arrow (.hole 3) .unit)) := by
  have hup {id i : Nat} (hleads : shared.Leads id i) : id < i := by
    obtain ⟨ty, hassigned, hi⟩ := hleads
    rw [shared, lookup_cons, lookup_cons] at hassigned
    split at hassigned
    · cases hassigned
      simp_all [holes]
    · split at hassigned
      · cases hassigned
        simp_all [holes, Ty.unit, Ty.named]
      · cases hassigned
  have hacyclic : shared.IsAcyclic := by
    intro id hcycle
    have hlt : TransGen (· < ·) id id := TransGen.mono (fun _ _ => hup) _ _ hcycle
    rw [Relation.transGen_eq_self] at hlt
    exact Nat.lt_irrefl id hlt
  exact ⟨hacyclic, ((resolve_least _ _).2 hacyclic _).mpr rfl⟩

end Assignment

end RowScript
