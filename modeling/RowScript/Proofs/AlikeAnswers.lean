import RowScript.Proofs.AlikeTypes
import RowScript.Proofs.Minting

/-!
# Answers of the solver that are alike

Constraints that are alike are solved by placeholders that correspond, with types that are alike.
The letters of those that are left may differ, and the generic types made with them are equal up to
the names of their parameters.
-/

namespace RowScript

open Ty Assignment List

namespace Ty

/-- Whether two names mean the same below some pairs of binders, the innermost one first. -/
def sameName : List (String × String) → String → String → Bool
  | [], x, y => x = y
  | (p, q) :: env, x, y => if x = p || y = q then x = p && y = q else sameName env x y

/-- Equality up to the names of type parameters. Ranges play no part in it. -/
def alphaEq (env : List (String × String)) : Ty → Ty → Bool
  | .ident x _, .ident y _ => sameName env x y
  | .hole i, .hole j => i = j
  | .arrow a b, .arrow c d => alphaEq env a c && alphaEq env b d
  | .generic p a, .generic q b => alphaEq ((p, q) :: env) a b
  | .app a b _, .app c d _ => alphaEq env a c && alphaEq env b d
  | .record a label, .record b label' => alphaEq env a b && label = label'
  | .emptyRow, .emptyRow => true
  | .field key a b, .field key' c d => key = key' && alphaEq env a c && alphaEq env b d
  | _, _ => false

variable {known : String → Prop} {locs : Loc → Loc → Prop} {holes holes' : Nat → Nat → Prop}
  {env : List (String × String)} {a b : Ty} {i j : Nat}

theorem SameName.sameName {x y : String} (hsame : SameName known env x y) : sameName env x y := by
  induction env with
  | nil => simpa [Ty.sameName] using hsame.1
  | cons pair env ih =>
    obtain ⟨hx, hy⟩ | ⟨hx, hy, hsame⟩ := hsame
    · simp [Ty.sameName, hx, hy]
    · simp [Ty.sameName, hx, hy, ih hsame]

theorem Alike.alphaEq (halike : Alike known locs (· = ·) env a b) : Ty.alphaEq env a b := by
  induction halike with
  | ident hname => exact hname.sameName
  | hole hij => simpa [Ty.alphaEq] using hij
  | arrow _ _ iha ihb | app _ _ _ iha ihb | field _ _ iha ihb => simp [Ty.alphaEq, iha, ihb]
  | generic _ _ ih => exact ih
  | record _ ih => simp [Ty.alphaEq, ih]
  | emptyRow => rfl

/-- Placeholders that correspond occur in corresponding lists. -/
theorem mem_iff_of_forall₂ {ids ids' : List Nat} (hunique : Relator.BiUnique holes)
    (hids : Forall₂ holes ids ids') (hij : holes i j) : i ∈ ids ↔ j ∈ ids' := by
  induction hids with
  | nil => simp
  | @cons k l _ _ hkl _ ih =>
    rw [mem_cons, mem_cons, ih]
    refine or_congr_left ⟨fun hik => ?_, fun hjl => ?_⟩
    · exact hunique.2 hij (hik ▸ hkl)
    · exact hunique.1 hij (hjl ▸ hkl)

namespace Alike

theorem forall₂_holes (halike : Alike known locs holes env a b) :
    Forall₂ holes a.holes b.holes := by
  induction halike with
  | ident => exact .nil
  | hole hij => exact .cons hij .nil
  | arrow _ _ iha ihb | app _ _ _ iha ihb | field _ _ iha ihb => exact rel_append iha ihb
  | generic _ _ ih => exact ih
  | record _ ih => exact ih
  | emptyRow => exact .nil

section

variable (hunique : Relator.BiUnique holes) (halike : Alike known locs holes env a b)
  (hij : holes i j)

include hunique halike hij

theorem occurs_eq : a.occurs i = b.occurs j := by
  rw [occurs, occurs, Bool.eq_iff_iff, contains_iff_mem, contains_iff_mem]
  exact mem_iff_of_forall₂ hunique halike.forall₂_holes hij

theorem eq_hole_iff : a = .hole i ↔ b = .hole j := by
  cases halike with
  | @hole _ k l hkl =>
    rw [hole.injEq, hole.injEq]
    exact ⟨fun hk => hunique.2 hkl (hk ▸ hij), fun hl => hunique.1 hkl (hl ▸ hij)⟩
  | _ => simp

end

variable (halike : Alike known locs holes env a b)

include halike

theorem rowTail : Alike known locs holes env a.rowTail b.rowTail := by
  induction halike with
  | ident hname hloc => exact .ident hname hloc
  | hole hij => exact .hole hij
  | arrow ha hb => exact .arrow ha hb
  | generic hpair ha => exact .generic hpair ha
  | app ha hb hloc => exact .app ha hb hloc
  | record ha => exact .record ha
  | emptyRow => exact .emptyRow
  | field _ _ _ ihb => exact ihb

theorem rowHasKey_eq (key : String) : a.rowHasKey key = b.rowHasKey key := by
  induction halike with
  | field _ _ _ ihb => rw [rowHasKey, rowHasKey, ihb]
  | _ => rfl

theorem hasField_eq (key : String) : a.hasField key = b.hasField key := by
  cases halike with
  | record ha => exact ha.rowHasKey_eq key
  | _ => rfl

theorem length_params_eq : a.params.length = b.params.length := by
  induction halike with
  | generic _ _ ih => rw [params, params, length_cons, length_cons, ih]
  | _ => rfl

end Alike

end Ty

/-- Constraints that are alike, one by one. -/
abbrev ConstraintsAlike (known : String → Prop) (locs : Loc → Loc → Prop)
    (holes : Nat → Nat → Prop) : List Constraint → List Constraint → Prop :=
  Forall₂ fun c d => c.1.Alike known locs holes [] d.1 ∧ c.2.Alike known locs holes [] d.2

namespace Assignment

/-- Assignments of types that are alike to placeholders that correspond. -/
abbrev AlikeOn (known : String → Prop) (locs : Loc → Loc → Prop)
    (holes : Nat → Nat → Prop) : Assignment → Assignment → Prop :=
  Forall₂ fun e e' => holes e.1 e'.1 ∧ e.2.Alike known locs holes [] e'.2

variable {known : String → Prop} {locs : Loc → Loc → Prop} {holes : Nat → Nat → Prop}
  {first second : Assignment} {i j : Nat} {a b : Ty}

theorem without_cons (i : Nat) (e : Nat × Ty) (rest : Assignment) :
    without i (e :: rest) = if e.1 = i then without i rest else e :: without i rest := by
  by_cases hi : e.1 = i
  · simp [without, hi]
  · simp [without, hi]

variable (hunique : Relator.BiUnique holes)

include hunique

theorem AlikeOn.without (halike : AlikeOn known locs holes first second) (hij : holes i j) :
    AlikeOn known locs holes (first.without i) (second.without j) := by
  induction halike with
  | nil => exact .nil
  | @cons e e' first second he _ ih =>
    rw [without_cons, without_cons]
    have hsame : e.1 = i ↔ e'.1 = j :=
      ⟨fun h => hunique.2 (h ▸ he.1) hij, fun h => hunique.1 (h ▸ he.1) hij⟩
    by_cases hi : e.1 = i
    · rw [if_pos hi, if_pos (hsame.mp hi)]
      exact ih
    · rw [if_neg hi, if_neg (mt hsame.mpr hi)]
      exact .cons he ih

theorem AlikeOn.lookup (halike : AlikeOn known locs holes first second) (hij : holes i j) :
    Option.Rel (Alike known locs holes []) (first.lookup i) (second.lookup j) := by
  induction halike with
  | nil => exact .none
  | @cons e e' first second he _ ih =>
    rw [List.lookup_cons, List.lookup_cons]
    by_cases hi : i = e.1
    · have hj : j = e'.1 := hunique.2 (hi ▸ hij) he.1
      simp only [hi, hj, beq_self_eq_true]
      exact .some he.2
    · have hj : j ≠ e'.1 := fun h => hi (hunique.1 (h ▸ hij) he.1)
      rw [beq_false_of_ne hi, beq_false_of_ne hj]
      exact ih

theorem alikeOn_ofConstraints {constraints others : List Constraint}
    (halike : ConstraintsAlike known locs holes constraints others) :
    AlikeOn known locs holes (ofConstraints constraints) (ofConstraints others) := by
  induction halike with
  | nil => exact .nil
  | @cons c d constraints others hc _ ih =>
    obtain ⟨c₁, c₂⟩ := c
    obtain ⟨d₁, d₂⟩ := d
    obtain ⟨h₁, h₂⟩ := hc
    by_cases hhole : ∃ i, c₁ = .hole i
    · obtain ⟨i, rfl⟩ := hhole
      cases h₁ with
      | hole hij => exact .cons ⟨hij, h₂⟩ (ih.without hunique hij)
    · by_cases hhole' : ∃ i, c₂ = .hole i
      · obtain ⟨i, rfl⟩ := hhole'
        cases h₂ with
        | @hole _ _ j hij =>
          have hrest := ih.without hunique hij
          cases h₁ with
          | hole => exact absurd ⟨_, rfl⟩ hhole
          | ident hname hloc => exact .cons ⟨hij, .ident hname hloc⟩ hrest
          | arrow ha hb => exact .cons ⟨hij, .arrow ha hb⟩ hrest
          | generic hpair ha => exact .cons ⟨hij, .generic hpair ha⟩ hrest
          | app ha hb hloc => exact .cons ⟨hij, .app ha hb hloc⟩ hrest
          | record ha => exact .cons ⟨hij, .record ha⟩ hrest
          | emptyRow => exact .cons ⟨hij, .emptyRow⟩ hrest
          | field ha hb => exact .cons ⟨hij, .field ha hb⟩ hrest
      · have hstop {c₁ c₂ : Ty} {rest : List Constraint} (hc₁ : ¬∃ i, c₁ = .hole i)
            (hc₂ : ¬∃ i, c₂ = .hole i) : ofConstraints ((c₁, c₂) :: rest) = [] := by
          unfold ofConstraints
          split
          · rfl
          · rename_i heq
            cases heq
            exact absurd ⟨_, rfl⟩ hc₁
          · rename_i heq
            cases heq
            exact absurd ⟨_, rfl⟩ hc₂
          · rfl
        rw [hstop hhole hhole', hstop]
        · exact .nil
        · rintro ⟨j, rfl⟩
          cases h₁ with
          | hole => exact hhole ⟨_, rfl⟩
        · rintro ⟨j, rfl⟩
          cases h₂ with
          | hole => exact hhole' ⟨_, rfl⟩

theorem AlikeOn.resolveUpTo (n : Nat) (halike : AlikeOn known locs holes first second)
    (hty : a.Alike known locs holes [] b) :
    (resolveUpTo n first a).Alike known locs holes []
      (resolveUpTo n second b) := by
  induction n generalizing first second a b with
  | zero => exact hty
  | succ n ih =>
    refine hty.bindHoles fun i j hij => ?_
    have hlookup := halike.lookup hunique hij
    cases hfirst : first.lookup i with
    | none =>
      rw [hfirst] at hlookup
      cases hsecond : second.lookup j with
      | none => exact .hole hij
      | some v => rw [hsecond] at hlookup; cases hlookup
    | some u =>
      rw [hfirst] at hlookup
      cases hsecond : second.lookup j with
      | none => rw [hsecond] at hlookup; cases hlookup
      | some v =>
        rw [hsecond] at hlookup
        cases hlookup with
        | some huv => exact ih (halike.without hunique hij) huv

theorem AlikeOn.resolve (halike : AlikeOn known locs holes first second)
    (hty : a.Alike known locs holes [] b) :
    (first.resolve a).Alike known locs holes [] (second.resolve b) := by
  rw [Assignment.resolve, Assignment.resolve, halike.length_eq]
  exact halike.resolveUpTo hunique _ hty

end Assignment

section Solved

variable {known : String → Prop} {locs : Loc → Loc → Prop} {holes : Nat → Nat → Prop}
  {constraints others : List Constraint} {a b : Ty} {i j : Nat}

theorem Ty.Alike.applying (hunique : Relator.BiUnique holes) (hty : a.Alike known locs holes [] b)
    (halike : ConstraintsAlike known locs holes constraints others) :
    (a.applying constraints).Alike known locs holes [] (b.applying others) :=
  (alikeOn_ofConstraints hunique halike).resolve hunique hty

/-- What is said about a placeholder, side by side. -/
theorem solutionFor_eq_or (i : Nat) (constraints : List Constraint) :
    solutionFor i constraints =
      (constraints.findSome? fun c =>
        if c.1 = .hole i then some c.2 else if c.2 = .hole i then some c.1 else none).or
      (if constraints.any (fun c => c.1.occurs i || c.2.occurs i) then some (.hole i)
        else none) := by
  unfold solutionFor
  dsimp only
  split
  · rename_i hfound
    rw [hfound]
    rfl
  · rename_i hfound
    rw [hfound]
    rfl

theorem solutionFor_alike (hunique : Relator.BiUnique holes)
    (halike : ConstraintsAlike known locs holes constraints others) (hij : holes i j) :
    Option.Rel (Alike known locs holes []) (solutionFor i constraints)
      (solutionFor j others) := by
  have hassigned : Option.Rel (Alike known locs holes [])
      (constraints.findSome? fun c =>
        if c.1 = .hole i then some c.2 else if c.2 = .hole i then some c.1 else none)
      (others.findSome? fun c =>
        if c.1 = .hole j then some c.2 else if c.2 = .hole j then some c.1 else none) := by
    induction halike with
    | nil => exact .none
    | @cons c d _ _ hc _ ih =>
      rw [findSome?_cons, findSome?_cons]
      have h₁ := hc.1.eq_hole_iff hunique hij
      have h₂ := hc.2.eq_hole_iff hunique hij
      by_cases hc₁ : c.1 = .hole i
      · rw [if_pos hc₁, if_pos (h₁.mp hc₁)]
        exact .some hc.2
      · rw [if_neg hc₁, if_neg (mt h₁.mpr hc₁)]
        by_cases hc₂ : c.2 = .hole i
        · rw [if_pos hc₂, if_pos (h₂.mp hc₂)]
          exact .some hc.1
        · rw [if_neg hc₂, if_neg (mt h₂.mpr hc₂)]
          exact ih
  have hoccurs : (constraints.any fun c => c.1.occurs i || c.2.occurs i) =
      others.any fun c => c.1.occurs j || c.2.occurs j := by
    clear hassigned
    induction halike with
    | nil => rfl
    | cons hc _ ih =>
      rw [any_cons, any_cons, ih, hc.1.occurs_eq hunique hij, hc.2.occurs_eq hunique hij]
  rw [solutionFor_eq_or, solutionFor_eq_or, hoccurs]
  generalize constraints.findSome? _ = found at hassigned ⊢
  generalize others.findSome? _ = found' at hassigned ⊢
  cases hassigned with
  | some hty => exact .some hty
  | none =>
    split
    · exact .some (.hole hij)
    · exact .none

end Solved

namespace Ty

variable {known : String → Prop} {locs : Loc → Loc → Prop} {holes holes' : Nat → Nat → Prop}
  {env inner : List (String × String)} {a b : Ty} {x y : String} {i j : Nat}

theorem SameName.below (hsame : SameName known env x y)
    (hinner : ∀ e ∈ inner, x ≠ e.1 ∧ y ≠ e.2) : SameName known (inner ++ env) x y := by
  induction inner with
  | nil => exact hsame
  | cons pair inner ih =>
    obtain ⟨hpair, hinner⟩ := forall_mem_cons.mp hinner
    exact .inr ⟨hpair.1, hpair.2, ih hinner⟩

namespace Alike

/-- Only the placeholders that occur matter. -/
theorem restrict (halike : Alike known locs holes env a b) :
    Alike known locs (fun i j => holes i j ∧ i ∈ a.holes) env a b := by
  induction halike with
  | ident hname hloc => exact .ident hname hloc
  | hole hij => exact .hole ⟨hij, mem_singleton_self _⟩
  | arrow _ _ iha ihb =>
    exact .arrow (iha.mono (fun _ _ h => h) fun _ _ h => h.imp_right (mem_append_left _))
      (ihb.mono (fun _ _ h => h) fun _ _ h => h.imp_right (mem_append_right _))
  | generic hpair _ ih => exact .generic hpair ih
  | app _ _ hloc iha ihb =>
    exact .app (iha.mono (fun _ _ h => h) fun _ _ h => h.imp_right (mem_append_left _))
      (ihb.mono (fun _ _ h => h) fun _ _ h => h.imp_right (mem_append_right _)) hloc
  | record _ ih => exact .record ih
  | emptyRow => exact .emptyRow
  | field _ _ iha ihb =>
    exact .field (iha.mono (fun _ _ h => h) fun _ _ h => h.imp_right (mem_append_left _))
      (ihb.mono (fun _ _ h => h) fun _ _ h => h.imp_right (mem_append_right _))

/-- Names that are bound by the same binder and that the types do not use are put in the
place of corresponding placeholders. -/
theorem replaceHole_named (hlocs : ∀ l, locs l l) (hunique : Relator.BiUnique holes)
    (halike : Alike known locs holes env a b) (hij : holes i j) (hx : x ∉ a.names)
    (hy : y ∉ b.names) (hsame : SameName known env x y) :
    Alike known locs holes env (a.replaceHole i (named x)) (b.replaceHole j (named y)) := by
  refine halike.bindHoles_below fun inner hinner k l hkl => ?_
  by_cases hk : k = i
  · subst hk
    rw [if_pos rfl, if_pos (hunique.2 hkl hij)]
    refine .ident (hsame.below fun e he => ⟨?_, ?_⟩) (hlocs _)
    · rintro rfl
      exact hx (hinner e he).2.1
    · rintro rfl
      exact hy (hinner e he).2.2
  · rw [if_neg hk, if_neg fun hl : l = j => hk (hunique.1 hkl (hl ▸ hij))]
    exact .hole hkl

theorem functionTo_named (hlocs : ∀ l, locs l l) (halike : Alike known locs holes env a b)
    (hx : x ∉ a.params) (hy : y ∉ b.params) (hsame : SameName known env x y) :
    Alike known locs holes env ((named x).functionTo a) ((named y).functionTo b) := by
  induction halike with
  | @generic env p q a a' hpair ha ih =>
    rw [params, mem_cons, not_or] at hx hy
    exact .generic hpair (ih hx.2 hy.2 (.inr ⟨hx.1, hy.1, hsame⟩))
  | ident hname hloc => exact .arrow (.ident hsame (hlocs _)) (.ident hname hloc)
  | hole hij => exact .arrow (.ident hsame (hlocs _)) (.hole hij)
  | arrow ha hb => exact .arrow (.ident hsame (hlocs _)) (.arrow ha hb)
  | app ha hb hloc => exact .arrow (.ident hsame (hlocs _)) (.app ha hb hloc)
  | record ha => exact .arrow (.ident hsame (hlocs _)) (.record ha)
  | emptyRow => exact .arrow (.ident hsame (hlocs _)) .emptyRow
  | field ha hb => exact .arrow (.ident hsame (hlocs _)) (.field ha hb)

end Alike

theorem params_replaceHole_named (hx : x ∉ a.names) (i : Nat) :
    x ∉ (a.replaceHole i (named x)).params := by
  induction a with
  | generic param body ih =>
    rw [names, mem_cons, not_or] at hx
    rw [replaceHole, bindHoles, params, mem_cons, not_or]
    exact ⟨hx.1, ih hx.2⟩
  | hole k =>
    rw [replaceHole, bindHoles]
    split
    · simp [named, params]
    · simp [params]
  | _ => simp [replaceHole, bindHoles, params]

/-- Functions that are generic in a parameter that nothing is known of are alike. -/
theorem Alike.quantified (hlocs : ∀ l, locs l l) (hunique : Relator.BiUnique holes)
    (halike : Alike known locs holes [] a b) (hij : holes i j) (hx : x ∉ a.names) (hy : y ∉ b.names)
    (hletters : ¬known x ∧ ¬known y) :
    Alike known locs holes [] (.generic x ((named x).functionTo (a.replaceHole i (named x))))
      (.generic y ((named y).functionTo (b.replaceHole j (named y)))) := by
  have hpair : Paired known x y := .inr hletters
  have hsame : SameName known [(x, y)] x y := .inl ⟨rfl, rfl⟩
  have hbody : Alike known locs holes [(x, y)] a b := halike.append (by simpa using hpair)
  have hreplaced := hbody.replaceHole_named hlocs hunique hij hx hy hsame
  exact .generic hpair (hreplaced.functionTo_named hlocs (params_replaceHole_named hx i)
    (params_replaceHole_named hy j) hsame)

/-- Types that are generic in several letters, the first one innermost. -/
theorem Alike.quantify {own other : Naming}
    (hpairs : Forall₂ (fun e e' => Paired known e.2 e'.2) own other)
    (halike : Alike known locs holes ((own.zip other).map (fun e => (e.1.2, e.2.2)) ++ env) a b) :
    Alike known locs holes env (a.quantify own) (b.quantify other) := by
  induction hpairs generalizing a b with
  | nil => exact halike
  | cons hpair _ ih => exact ih (.generic hpair halike)

end Ty

section Naming

variable {known : String → Prop} {holes : Nat → Nat → Prop} {mine mine' more : List Nat}
  {names names' : List String} {i j : Nat}

theorem forall₂_eraseDups (hunique : Relator.BiUnique holes) {ids ids' : List Nat}
    (hids : Forall₂ holes ids ids') : Forall₂ holes ids.eraseDups ids'.eraseDups := by
  have hfilter {ids ids' : List Nat} {i j : Nat} (hids : Forall₂ holes ids ids')
      (hij : holes i j) :
      Forall₂ holes (ids.filter fun k => !k == i) (ids'.filter fun k => !k == j) := by
    induction hids with
    | nil => exact .nil
    | @cons k l _ _ hkl _ ih =>
      by_cases hk : k = i
      · subst hk
        obtain rfl := hunique.2 hkl hij
        simpa using ih
      · have hl : l ≠ j := fun h => hk (hunique.1 hkl (h ▸ hij))
        simpa [hk, hl] using ⟨hkl, ih⟩
  induction hlength : ids.length using Nat.strongRecOn generalizing ids ids' with
  | ind n ih =>
    cases hids with
    | nil => exact .nil
    | @cons k l rest rest' hkl hrest =>
      rw [eraseDups_cons, eraseDups_cons]
      refine .cons hkl (ih _ ?_ (hfilter hrest hkl) rfl)
      rw [← hlength, length_cons]
      exact Nat.lt_succ_of_le (length_filter_le _ _)

theorem paired_zip (hmine : Forall₂ holes mine mine') (hlength : mine.length ≤ names.length)
    (hlength' : mine.length ≤ names'.length) (hnames : ∀ x ∈ names, ¬known x)
    (hnames' : ∀ y ∈ names', ¬known y) :
    Forall₂ (fun e e' => Paired known e.2 e'.2) (mine.zip names) (mine'.zip names') := by
  induction hmine generalizing names names' with
  | nil => exact .nil
  | cons _ _ ih =>
    cases names with
    | nil => cases hlength
    | cons x names =>
      cases names' with
      | nil => cases hlength'
      | cons y names' =>
        obtain ⟨hx, hnames⟩ := forall_mem_cons.mp hnames
        obtain ⟨hy, hnames'⟩ := forall_mem_cons.mp hnames'
        exact .cons (.inr ⟨hx, hy⟩) (ih (Nat.le_of_succ_le_succ hlength)
          (Nat.le_of_succ_le_succ hlength') hnames hnames')

/-- Corresponding placeholders of two types get names that are bound by the same binder. -/
theorem lookup_names (known : String → Prop) (more more' : List Nat)
    (hunique : Relator.BiUnique holes) (hmine : List.Forall₂ holes mine mine')
    (hlength : mine.length ≤ names.length) (hlength' : mine.length ≤ names'.length)
    (hnames : names.Nodup) (hnames' : names'.Nodup) (hij : holes i j) (hi : i ∈ mine) :
    ∃ x y, ((mine ++ more).zip names).lookup i = some x ∧
      ((mine' ++ more').zip names').lookup j = some y ∧ x ∈ names ∧ y ∈ names' ∧
      SameName known
        (((mine.zip names).zip (mine'.zip names')).map fun e => (e.1.2, e.2.2)) x y := by
  induction hmine generalizing names names' with
  | nil => cases hi
  | @cons k l mine mine' hkl _ ih =>
    cases names with
    | nil => cases hlength
    | cons x₀ names =>
      cases names' with
      | nil => cases hlength'
      | cons y₀ names' =>
        simp only [List.cons_append, List.zip_cons_cons, List.lookup_cons, List.map_cons]
        by_cases hik : i = k
        · subst hik
          obtain rfl := hunique.2 hkl hij
          refine ⟨x₀, y₀, by simp, by simp, List.mem_cons_self, List.mem_cons_self, ?_⟩
          exact .inl ⟨rfl, rfl⟩
        · have hjl : j ≠ l := fun h => hik (hunique.1 hij (h ▸ hkl))
          rw [List.nodup_cons] at hnames hnames'
          obtain ⟨x, y, hx, hy, hxs, hys, hsame⟩ := ih (Nat.le_of_succ_le_succ hlength)
            (Nat.le_of_succ_le_succ hlength') hnames.2 hnames'.2
            ((List.mem_cons.mp hi).resolve_left hik)
          rw [beq_false_of_ne hik, beq_false_of_ne hjl]
          refine ⟨x, y, hx, hy, List.mem_cons_of_mem _ hxs, List.mem_cons_of_mem _ hys, ?_⟩
          refine .inr ⟨?_, ?_, hsame⟩
          · rintro rfl
            exact hnames.1 hxs
          · rintro rfl
            exact hnames'.1 hys

end Naming

section Generalize

variable {known : String → Prop} {locs : Loc → Loc → Prop} {holes : Nat → Nat → Prop}
  {solved other : List Constraint} {a b : Ty} {ctx ctx' : Context} {loc loc' : Option Loc}
  {start start' stamp stamp' : Nat} {result result' : Generalized}

theorem mem_freeTypeVariables {x : String} {taken : List String}
    (hx : x ∈ ctx.freeTypeVariables taken) : x ∈ typeVariableNames ∧ x ∉ taken := by
  rw [Context.freeTypeVariables, mem_filter, Bool.and_eq_true] at hx
  exact ⟨hx.1, by simpa using hx.2.1⟩

/-- A generalized type: the placeholders of the type get the first names, and these are
its parameters. -/
theorem generalize_type_eq (hrun : generalize solved a ctx loc start = .ok (result, stamp)) :
    ∃ more, (a.applying solved).holes.eraseDups.length ≤
        (ctx.freeTypeVariables (a.applying solved).names).length ∧
      result.type = ((a.applying solved).withNames
          (((a.applying solved).holes.eraseDups ++ more).zip
            (ctx.freeTypeVariables (a.applying solved).names))).quantify
        ((a.applying solved).holes.eraseDups.zip
          (ctx.freeTypeVariables (a.applying solved).names)) := by
  rw [generalize_eq_bind, Except.bind_eq_ok, ← applying] at hrun
  obtain ⟨naming, hnaming, hrun⟩ := hrun
  cases hrun
  rw [Naming.ofTypes] at hnaming
  split at hnaming
  · cases hnaming
  · rename_i hlength
    obtain rfl := Except.ok.inj hnaming
    rw [flatMap_cons, eraseDups_append, length_append] at hlength
    refine ⟨((ctx.reachableTypes.map (ofConstraints solved).resolve).flatMap holes |>.removeAll
      (a.applying solved).holes).eraseDups, by omega, ?_⟩
    rw [← eraseDups_append]
    exact congrArg (quantify · _) (filter_zip_eraseDups ..).1

/-- Generalizing types that are alike gives types that are equal up to the names of their
parameters. -/
theorem generalize_alphaEq (hletters : ∀ x ∈ typeVariableNames, ¬known x)
    (hunique : Relator.BiUnique holes) (hty : a.Alike known (· = ·) holes [] b)
    (hsolved : ConstraintsAlike known (· = ·) holes solved other)
    (hrun : generalize solved a ctx loc start = .ok (result, stamp))
    (hrun' : generalize other b ctx' loc' start' = .ok (result', stamp')) :
    alphaEq [] result.type result'.type := by
  obtain ⟨more, hlength, htype⟩ := generalize_type_eq hrun
  obtain ⟨more', hlength', htype'⟩ := generalize_type_eq hrun'
  have hresolved := hty.applying hunique hsolved
  have hmine := forall₂_eraseDups hunique hresolved.forall₂_holes
  rw [← hmine.length_eq] at hlength'
  have hpairs := paired_zip hmine hlength hlength'
    (fun x hx => hletters x (mem_freeTypeVariables hx).1)
    fun y hy => hletters y (mem_freeTypeVariables hy).1
  have henv : ∀ e ∈ ((((a.applying solved).holes.eraseDups.zip
      (ctx.freeTypeVariables (a.applying solved).names)).zip ((b.applying other).holes.eraseDups.zip
      (ctx'.freeTypeVariables (b.applying other).names))).map fun e => (e.1.2, e.2.2)),
      Paired known e.1 e.2 := by
    intro e he
    obtain ⟨pair, hpair, rfl⟩ := mem_map.mp he
    have hx := (of_mem_zip (of_mem_zip hpair).1).2
    have hy := (of_mem_zip (of_mem_zip hpair).2).2
    exact .inr ⟨hletters _ (mem_freeTypeVariables hx).1, hletters _ (mem_freeTypeVariables hy).1⟩
  rw [htype, htype']
  refine Alike.alphaEq (show Alike known (· = ·) (· = ·) [] _ _ from .quantify hpairs ?_)
  rw [append_nil]
  refine (hresolved.restrict.append henv).bindHoles_below fun inner hinner i j hij => ?_
  obtain ⟨x, y, hx, hy, hxs, hys, hsame⟩ := lookup_names known more more' hunique hmine
    hlength hlength' (freeTypeVariables_nodup _ _) (freeTypeVariables_nodup _ _) hij.1
    (mem_eraseDups.mpr hij.2)
  rw [hx, hy]
  refine .ident (hsame.below fun e he => ⟨?_, ?_⟩) rfl
  · rintro rfl
    exact (mem_freeTypeVariables hxs).2 (hinner e he).2.1
  · rintro rfl
    exact (mem_freeTypeVariables hys).2 (hinner e he).2.2

end Generalize

end RowScript
