import RowScript.Ty.Assignment

/-!
# Placeholders under substitution

A substitution replaces every placeholder at once. This module says which placeholders and names a
type has after a replacement, and when a replacement changes nothing. Types without generic types
are called monomorphic.
-/

namespace RowScript.Ty

/-- Types with no type parameters, neither leading ones nor ones inside. -/
def isMonomorphic : Ty → Bool
  | .ident .. | .hole _ | .emptyRow => true
  | .arrow a b | .app a b _ | .field _ a b => isMonomorphic a && isMonomorphic b
  | .record row _ => isMonomorphic row
  | .generic .. => false

/-- Types whose records all come without a label. -/
def isUnlabelled : Ty → Bool
  | .ident .. | .hole _ | .emptyRow => true
  | .arrow a b | .app a b _ | .field _ a b => isUnlabelled a && isUnlabelled b
  | .record row label => label.isNone && isUnlabelled row
  | .generic _ body => isUnlabelled body

variable {f g : Nat → Ty} {id i : Nat} {ty replacement : Ty}

theorem bindHoles_bindHoles (f g : Nat → Ty) (ty : Ty) :
    (ty.bindHoles f).bindHoles g = ty.bindHoles fun i => (f i).bindHoles g := by
  induction ty with
  | ident | hole | emptyRow => rfl
  | arrow a b iha ihb | app a b _ iha ihb | field _ a b iha ihb =>
    simp [bindHoles, iha, ihb]
  | generic _ a ih | record a _ ih => simp [bindHoles, ih]

/-- Only the placeholders that occur matter to a substitution. -/
theorem bindHoles_congr (hagree : ∀ i ∈ ty.holes, f i = g i) : ty.bindHoles f = ty.bindHoles g := by
  induction ty with
  | ident | emptyRow => rfl
  | hole i => exact hagree i (by simp [holes])
  | arrow a b iha ihb | app a b _ iha ihb | field _ a b iha ihb =>
    simp only [holes, List.mem_append] at hagree
    simp only [bindHoles, iha fun i hi => hagree i (.inl hi),
      ihb fun i hi => hagree i (.inr hi)]
  | generic _ a ih | record a _ ih =>
    simp only [bindHoles, ih hagree]

@[simp]
theorem bindHoles_hole (ty : Ty) : ty.bindHoles .hole = ty := by
  induction ty with
  | ident | hole | emptyRow => rfl
  | arrow a b iha ihb | app a b _ iha ihb | field _ a b iha ihb =>
    simp [bindHoles, iha, ihb]
  | generic _ a ih | record a _ ih => simp [bindHoles, ih]

/-- A type without placeholders is left alone by every substitution. -/
theorem bindHoles_of_holes_eq_nil (hclosed : ty.holes = []) (f : Nat → Ty) :
    ty.bindHoles f = ty := by
  rw [bindHoles_congr (g := .hole) (by simp [hclosed]), bindHoles_hole]

/-- The placeholders after a substitution come from what was put in. -/
theorem mem_holes_bindHoles : i ∈ (ty.bindHoles f).holes ↔ ∃ j ∈ ty.holes, i ∈ (f j).holes := by
  induction ty with
  | ident | emptyRow | hole j => simp [bindHoles, holes]
  | arrow a b iha ihb | app a b _ iha ihb | field _ a b iha ihb =>
    simp only [bindHoles, holes, List.mem_append, iha, ihb]
    constructor
    · rintro (⟨j, hj, hi⟩ | ⟨j, hj, hi⟩)
      · exact ⟨j, .inl hj, hi⟩
      · exact ⟨j, .inr hj, hi⟩
    · rintro ⟨j, hj | hj, hi⟩
      · exact .inl ⟨j, hj, hi⟩
      · exact .inr ⟨j, hj, hi⟩
  | generic _ a ih | record a _ ih => simpa [bindHoles, holes] using ih

theorem isMonomorphic_bindHoles (hty : ty.isMonomorphic)
    (hf : ∀ i ∈ ty.holes, (f i).isMonomorphic) : (ty.bindHoles f).isMonomorphic := by
  induction ty with
  | ident | emptyRow => rfl
  | hole i => exact hf i (by simp [holes])
  | arrow a b iha ihb | app a b _ iha ihb | field _ a b iha ihb =>
    simp only [isMonomorphic, Bool.and_eq_true] at hty
    simp only [holes, List.mem_append] at hf
    simp only [bindHoles, isMonomorphic, Bool.and_eq_true]
    exact ⟨iha hty.1 fun i hi => hf i (.inl hi), ihb hty.2 fun i hi => hf i (.inr hi)⟩
  | generic => simp [isMonomorphic] at hty
  | record a _ ih => exact ih hty hf

theorem mem_holes_of_occurs : ty.occurs id ↔ id ∈ ty.holes := by
  simp [occurs]

/-- Replacing a placeholder by what a substitution makes of it anyway does not
change the outcome of the substitution. -/
theorem bindHoles_replaceHole (hid : f id = replacement.bindHoles f) (ty : Ty) :
    (ty.replaceHole id replacement).bindHoles f = ty.bindHoles f := by
  rw [replaceHole, bindHoles_bindHoles]
  apply bindHoles_congr
  intro i _
  by_cases hi : i = id
  · rw [if_pos hi, hi, hid]
  · rw [if_neg hi]
    rfl

/-- A replaced placeholder is gone, unless the replacement brings it back. -/
theorem mem_holes_replaceHole (hi : i ∈ (ty.replaceHole id replacement).holes) :
    i ∈ ty.holes ∧ i ≠ id ∨ i ∈ replacement.holes := by
  obtain ⟨j, hj, hi⟩ := mem_holes_bindHoles.mp hi
  by_cases hid : j = id
  · rw [if_pos hid] at hi
    exact .inr hi
  · rw [if_neg hid] at hi
    obtain rfl : i = j := by simpa [holes] using hi
    exact .inl ⟨hj, hid⟩

theorem isMonomorphic_replaceHole (hty : ty.isMonomorphic)
    (hreplacement : replacement.isMonomorphic) : (ty.replaceHole id replacement).isMonomorphic := by
  apply isMonomorphic_bindHoles hty
  intro i _
  by_cases hi : i = id
  · rwa [if_pos hi]
  · rw [if_neg hi]
    rfl

theorem mem_holes_replaceName {name : String} (hi : i ∈ (ty.replaceName name replacement).holes) :
    i ∈ ty.holes ∨ i ∈ replacement.holes := by
  induction ty with
  | ident n loc =>
    simp only [replaceName] at hi
    split at hi
    · exact .inr hi
    · simp [holes] at hi
  | hole | emptyRow => exact .inl hi
  | arrow a b iha ihb | app a b _ iha ihb | field _ a b iha ihb =>
    simp only [replaceName, holes, List.mem_append] at hi ⊢
    rcases hi with hi | hi
    · exact (iha hi).imp_left .inl
    · exact (ihb hi).imp_left .inr
  | generic param a ih =>
    simp only [replaceName, holes] at hi ⊢
    split at hi
    · exact .inl hi
    · exact ih hi
  | record a _ ih => exact ih hi

end RowScript.Ty
