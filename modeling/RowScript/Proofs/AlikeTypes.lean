import RowScript.Proofs.FreeNames
import Mathlib.Data.List.Forall2

/-!
# Types that differ in the names of their type parameters

Two runs of inference may choose different letters and number their placeholders differently. What
they find has the same form, placeholders correspond, and a name is known and spelled alike or is
the type parameter of the same binder.
-/

namespace RowScript.Ty

open List

/-- Two names mean the same below some pairs of binders, the innermost one first: both are
bound by the same pair, or they are the same known name and bound by none. -/
def SameName (known : String → Prop) : List (String × String) → String → String → Prop
  | [], x, y => x = y ∧ known x
  | (p, q) :: env, x, y => (x = p ∧ y = q) ∨ (x ≠ p ∧ y ≠ q ∧ SameName known env x y)

/-- Two parameters may be paired if they are spelled alike, or like no known name. -/
def Paired (known : String → Prop) (p q : String) : Prop := p = q ∨ (¬known p ∧ ¬known q)

/-- Types of the same form. Their placeholders and their ranges correspond, and so do the
names that they mention. -/
inductive Alike (known : String → Prop) (locs : Loc → Loc → Prop) (holes : Nat → Nat → Prop) :
    List (String × String) → Ty → Ty → Prop
  | ident {env x y loc loc'} : SameName known env x y → locs loc loc' →
    Alike known locs holes env (.ident x loc) (.ident y loc')
  | hole {env i j} : holes i j → Alike known locs holes env (.hole i) (.hole j)
  | arrow {env a b a' b'} : Alike known locs holes env a a' → Alike known locs holes env b b' →
    Alike known locs holes env (.arrow a b) (.arrow a' b')
  | generic {env p q a a'} : Paired known p q → Alike known locs holes ((p, q) :: env) a a' →
    Alike known locs holes env (.generic p a) (.generic q a')
  | app {env a b a' b' loc loc'} : Alike known locs holes env a a' →
    Alike known locs holes env b b' → locs loc loc' →
    Alike known locs holes env (.app a b loc) (.app a' b' loc')
  | record {env a a' label} : Alike known locs holes env a a' →
    Alike known locs holes env (.record a label) (.record a' label)
  | emptyRow {env} : Alike known locs holes env .emptyRow .emptyRow
  | field {env key a b a' b'} : Alike known locs holes env a a' →
    Alike known locs holes env b b' → Alike known locs holes env (.field key a b) (.field key a' b')

variable {known : String → Prop} {locs locs' locs'' : Loc → Loc → Prop}
  {holes holes' holes'' : Nat → Nat → Prop} {env outer : List (String × String)} {a b c : Ty}
  {x y z p q : String} {bound : List String} {envs : List (String × String × String)}

theorem SameName.symm (hsame : SameName known env x y) :
    SameName known (env.map Prod.swap) y x := by
  induction env with
  | nil => exact ⟨hsame.1.symm, hsame.1 ▸ hsame.2⟩
  | cons pair env ih =>
    obtain ⟨hx, hy⟩ | ⟨hx, hy, hsame⟩ := hsame
    · exact .inl ⟨hy, hx⟩
    · exact .inr ⟨hy, hx, ih hsame⟩

/-- Three chains of binders side by side. -/
theorem SameName.trans (hsame : SameName known (envs.map fun e => (e.1, e.2.1)) x y)
    (hsame' : SameName known (envs.map fun e => (e.2.1, e.2.2)) y z) :
    SameName known (envs.map fun e => (e.1, e.2.2)) x z := by
  induction envs with
  | nil => exact ⟨hsame.1.trans hsame'.1, hsame.2⟩
  | cons triple envs ih =>
    obtain ⟨hx, hy⟩ | ⟨hx, hy, hsame⟩ := hsame
    · obtain ⟨-, hz⟩ | ⟨hne, -⟩ := hsame'
      · exact .inl ⟨hx, hz⟩
      · exact absurd hy hne
    · obtain ⟨heq, -⟩ | ⟨-, hz, hsame'⟩ := hsame'
      · exact absurd heq hy
      · exact .inr ⟨hx, hz, ih hsame hsame'⟩

theorem sameName_of_known (hknown : known x) (henv : ∀ e ∈ env, Paired known e.1 e.2) :
    SameName known env x x := by
  induction env with
  | nil => exact ⟨rfl, hknown⟩
  | cons pair env ih =>
    obtain ⟨p, q⟩ := pair
    obtain ⟨hpair, henv⟩ := forall_mem_cons.mp henv
    change Paired known p q at hpair
    by_cases hp : x = p
    · subst hp
      obtain rfl | ⟨hunknown, -⟩ := hpair
      · exact .inl ⟨rfl, rfl⟩
      · exact absurd hknown hunknown
    · refine .inr ⟨hp, fun hq => ?_, ih henv⟩
      subst hq
      obtain hpq | ⟨-, hunknown⟩ := hpair
      · exact hp hpq.symm
      · exact hunknown hknown

theorem SameName.append (hsame : SameName known outer x y)
    (henv : ∀ e ∈ env, Paired known e.1 e.2) : SameName known (outer ++ env) x y := by
  induction outer with
  | nil =>
    obtain ⟨rfl, hknown⟩ := hsame
    exact sameName_of_known hknown henv
  | cons pair outer ih =>
    obtain hsame | ⟨hx, hy, hsame⟩ := hsame
    · exact .inl hsame
    · exact .inr ⟨hx, hy, ih hsame⟩

/-- A name that is bound or known means the same below binders of equal spelling. -/
theorem sameName_self (hname : x ∈ bound ∨ known x) :
    SameName known (bound.map fun name => (name, name)) x x := by
  induction bound with
  | nil => exact ⟨rfl, hname.resolve_left (by simp)⟩
  | cons other bound ih =>
    by_cases hx : x = other
    · exact .inl ⟨hx, hx⟩
    · exact .inr ⟨hx, hx, ih (hname.imp_left fun h => (mem_cons.mp h).resolve_left hx)⟩

/-- Where the last binder counts, none of the others binds the name. -/
theorem SameName.last (hsame : SameName known (outer ++ [(p, q)]) x y) :
    (x = p ∧ y = q ∧ p ∉ outer.map Prod.fst ∧ q ∉ outer.map Prod.snd) ∨
      ((x = p → p ∈ outer.map Prod.fst) ∧ (y = q → q ∈ outer.map Prod.snd) ∧
        SameName known outer x y) := by
  induction outer with
  | nil =>
    obtain ⟨rfl, rfl⟩ | ⟨hx, hy, hsame⟩ := hsame
    · exact .inl ⟨rfl, rfl, by simp, by simp⟩
    · exact .inr ⟨fun h => absurd h hx, fun h => absurd h hy, hsame⟩
  | cons pair outer ih =>
    obtain ⟨rfl, rfl⟩ | ⟨hx, hy, hsame⟩ := hsame
    · exact .inr ⟨fun h => by simp [h], fun h => by simp [h], .inl ⟨rfl, rfl⟩⟩
    · obtain ⟨rfl, rfl, hp, hq⟩ | ⟨hp, hq, hsame⟩ := ih hsame
      · refine .inl ⟨rfl, rfl, ?_, ?_⟩
        · rw [map_cons, mem_cons, not_or]
          exact ⟨hx, hp⟩
        · rw [map_cons, mem_cons, not_or]
          exact ⟨hy, hq⟩
      · exact .inr ⟨fun h => mem_cons_of_mem _ (hp h), fun h => mem_cons_of_mem _ (hq h),
          .inr ⟨hx, hy, hsame⟩⟩

namespace Alike

theorem mono (halike : Alike known locs holes env a b) (hlocs : ∀ l l', locs l l' → locs' l l')
    (hholes : ∀ i j, holes i j → holes' i j) : Alike known locs' holes' env a b := by
  induction halike with
  | ident hname hloc => exact .ident hname (hlocs _ _ hloc)
  | hole hij => exact .hole (hholes _ _ hij)
  | arrow _ _ iha ihb => exact .arrow iha ihb
  | generic hpair _ ih => exact .generic hpair ih
  | app _ _ hloc iha ihb => exact .app iha ihb (hlocs _ _ hloc)
  | record _ ih => exact .record ih
  | emptyRow => exact .emptyRow
  | field _ _ iha ihb => exact .field iha ihb

theorem symm (halike : Alike known locs holes env a b) :
    Alike known (fun l l' => locs l' l) (fun i j => holes j i) (env.map Prod.swap) b a := by
  induction halike with
  | ident hname hloc => exact .ident hname.symm hloc
  | hole hij => exact .hole hij
  | arrow _ _ iha ihb => exact .arrow iha ihb
  | generic hpair _ ih => exact .generic (hpair.imp Eq.symm And.symm) ih
  | app _ _ hloc iha ihb => exact .app iha ihb hloc
  | record _ ih => exact .record ih
  | emptyRow => exact .emptyRow
  | field _ _ iha ihb => exact .field iha ihb

theorem trans (hlocs : ∀ l m k, locs l m → locs' m k → locs'' l k)
    (hholes : ∀ i j k, holes i j → holes' j k → holes'' i k)
    (hab : Alike known locs holes (envs.map fun e => (e.1, e.2.1)) a b)
    (hbc : Alike known locs' holes' (envs.map fun e => (e.2.1, e.2.2)) b c) :
    Alike known locs'' holes'' (envs.map fun e => (e.1, e.2.2)) a c := by
  generalize henv : (envs.map fun e => (e.1, e.2.1)) = env at hab
  induction hab generalizing c envs with
  | ident hname hloc =>
    subst henv
    cases hbc with
    | ident hname' hloc' => exact .ident (hname.trans hname') (hlocs _ _ _ hloc hloc')
  | hole hij =>
    cases hbc with
    | hole hjk => exact .hole (hholes _ _ _ hij hjk)
  | arrow _ _ ih₁ ih₂ =>
    cases hbc with
    | arrow h₁ h₂ => exact .arrow (ih₁ h₁ henv) (ih₂ h₂ henv)
  | @generic env p q a b hpair _ ih =>
    cases hbc with
    | @generic _ _ r _ c hpair' h =>
      refine .generic ?_ (@ih c ((p, q, r) :: envs) h (congrArg ((p, q) :: ·) henv))
      obtain rfl | hpq := hpair
      · exact hpair'
      · obtain rfl | hqr := hpair'
        · exact .inr hpq
        · exact .inr ⟨hpq.1, hqr.2⟩
  | app _ _ hloc ih₁ ih₂ =>
    cases hbc with
    | app h₁ h₂ hloc' => exact .app (ih₁ h₁ henv) (ih₂ h₂ henv) (hlocs _ _ _ hloc hloc')
  | record _ ih =>
    cases hbc with
    | record h => exact .record (ih h henv)
  | emptyRow =>
    cases hbc with
    | emptyRow => exact .emptyRow
  | field _ _ ih₁ ih₂ =>
    cases hbc with
    | field h₁ h₂ => exact .field (ih₁ h₁ henv) (ih₂ h₂ henv)

theorem append (halike : Alike known locs holes outer a b)
    (henv : ∀ e ∈ env, Paired known e.1 e.2) : Alike known locs holes (outer ++ env) a b := by
  induction halike with
  | ident hname hloc => exact .ident (hname.append henv) hloc
  | hole hij => exact .hole hij
  | arrow _ _ iha ihb => exact .arrow iha ihb
  | generic hpair _ ih => exact .generic hpair ih
  | app _ _ hloc iha ihb => exact .app iha ihb hloc
  | record _ ih => exact .record ih
  | emptyRow => exact .emptyRow
  | field _ _ iha ihb => exact .field iha ihb

theorem closedOver (halike : Alike known locs holes env a b) :
    a.ClosedOver fun name => name ∈ env.map Prod.fst ∨ known name := by
  have hsameName {env : List (String × String)} {x y : String} (hsame : SameName known env x y) :
      x ∈ env.map Prod.fst ∨ known x := by
    induction env with
    | nil => exact .inr hsame.2
    | cons pair env ih =>
      obtain ⟨rfl, -⟩ | ⟨-, -, hsame⟩ := hsame
      · exact .inl (by simp)
      · exact (ih hsame).imp_left (mem_cons_of_mem _)
  induction halike with
  | ident hname => exact closedOver_ident.mpr (hsameName hname)
  | hole => exact closedOver_hole
  | arrow _ _ iha ihb => exact closedOver_arrow.mpr ⟨iha, ihb⟩
  | generic _ _ ih =>
    refine closedOver_generic.mpr (ih.mono fun name hname => ?_)
    simpa [or_assoc] using hname
  | app _ _ _ iha ihb => exact closedOver_app.mpr ⟨iha, ihb⟩
  | record _ ih => exact closedOver_record.mpr ih
  | emptyRow => exact closedOver_emptyRow
  | field _ _ iha ihb => exact closedOver_field.mpr ⟨iha, ihb⟩

end Alike

/-- A type is like itself if its placeholders are, and its names are bound or known. -/
theorem alike_self (hlocs : ∀ l, locs l l) (hholes : ∀ i ∈ a.holes, holes i i)
    (hclosed : a.ClosedOver fun name => name ∈ bound ∨ known name) :
    Alike known locs holes (bound.map fun name => (name, name)) a a := by
  induction a generalizing bound with
  | ident x loc =>
    exact .ident (sameName_self (closedOver_ident.mp hclosed)) (hlocs loc)
  | hole i => exact .hole (hholes i mem_cons_self)
  | arrow a b iha ihb =>
    rw [Ty.holes, forall_mem_append] at hholes
    rw [closedOver_arrow] at hclosed
    exact .arrow (iha hholes.1 hclosed.1) (ihb hholes.2 hclosed.2)
  | generic p a ih =>
    rw [closedOver_generic] at hclosed
    refine .generic (.inl rfl) (@ih (p :: bound) hholes (hclosed.mono fun name hname => ?_))
    simpa [or_assoc] using hname
  | app a b loc iha ihb =>
    rw [Ty.holes, forall_mem_append] at hholes
    rw [closedOver_app] at hclosed
    exact .app (iha hholes.1 hclosed.1) (ihb hholes.2 hclosed.2) (hlocs loc)
  | record a label ih => exact .record (ih hholes (closedOver_record.mp hclosed))
  | emptyRow => exact .emptyRow
  | field key a b iha ihb =>
    rw [Ty.holes, forall_mem_append] at hholes
    rw [closedOver_field] at hclosed
    exact .field (iha hholes.1 hclosed.1) (ihb hholes.2 hclosed.2)

theorem alike_of_agrees (hclosed : a.ClosedOver fun name => name ∈ bound ∨ known name)
    (hagrees : a.agrees b) :
    Alike known (fun _ _ => True) (· = ·) (bound.map fun name => (name, name)) a b := by
  fun_induction agrees a b generalizing bound with
  | case1 x loc y loc' =>
    obtain rfl := of_decide_eq_true hagrees
    exact .ident (sameName_self (closedOver_ident.mp hclosed)) trivial
  | case2 => exact .hole (of_decide_eq_true hagrees)
  | case3 _ _ _ _ ih₁ ih₂ =>
    rw [Bool.and_eq_true] at hagrees
    rw [closedOver_arrow] at hclosed
    exact .arrow (ih₁ hclosed.1 hagrees.1) (ih₂ hclosed.2 hagrees.2)
  | case4 p a q b ih =>
    rw [Bool.and_eq_true, decide_eq_true_eq] at hagrees
    obtain ⟨rfl, hagrees⟩ := hagrees
    rw [closedOver_generic] at hclosed
    refine .generic (.inl rfl) (@ih (p :: bound) (hclosed.mono fun name hname => ?_) hagrees)
    simpa [or_assoc] using hname
  | case5 _ _ _ _ _ _ ih₁ ih₂ =>
    rw [Bool.and_eq_true] at hagrees
    rw [closedOver_app] at hclosed
    exact .app (ih₁ hclosed.1 hagrees.1) (ih₂ hclosed.2 hagrees.2) trivial
  | case6 _ _ _ _ ih =>
    rw [Bool.and_eq_true, decide_eq_true_eq] at hagrees
    obtain ⟨hagrees, rfl⟩ := hagrees
    exact .record (ih (closedOver_record.mp hclosed) hagrees)
  | case7 => exact .emptyRow
  | case8 _ _ _ _ _ _ ih₁ ih₂ =>
    rw [Bool.and_eq_true, Bool.and_eq_true, decide_eq_true_eq] at hagrees
    obtain ⟨⟨rfl, h₁⟩, h₂⟩ := hagrees
    rw [closedOver_field] at hclosed
    exact .field (ih₁ hclosed.1 h₁) (ih₂ hclosed.2 h₂)
  | case9 => cases hagrees

namespace Alike

/-- What is put in has to be alike below the binders that it comes to stand under. -/
theorem paired_mono {inner : List (String × String)} {names names' more more' : List String}
    (hleft : names ⊆ more) (hright : names' ⊆ more')
    (hinner : ∀ e ∈ inner, Paired known e.1 e.2 ∧ e.1 ∈ names ∧ e.2 ∈ names') :
    ∀ e ∈ inner, Paired known e.1 e.2 ∧ e.1 ∈ more ∧ e.2 ∈ more' :=
  fun e he => (hinner e he).imp_right (And.imp (@hleft e.1) (@hright e.2))

theorem bindHoles_below {f g : Nat → Ty} (halike : Alike known locs holes env a b)
    (hf : ∀ inner, (∀ e ∈ inner, Paired known e.1 e.2 ∧ e.1 ∈ a.names ∧ e.2 ∈ b.names) →
      ∀ i j, holes i j → Alike known locs holes' (inner ++ env) (f i) (g j)) :
    Alike known locs holes' env (a.bindHoles f) (b.bindHoles g) := by
  have hinLeft {l₁ l₂ : List String} : l₁ ⊆ l₁ ++ l₂ := subset_append_left l₁ l₂
  have hinRight {l₁ l₂ : List String} : l₂ ⊆ l₁ ++ l₂ := subset_append_right l₁ l₂
  induction halike with
  | ident hname hloc => exact .ident hname hloc
  | hole hij => exact hf [] (by simp) _ _ hij
  | arrow _ _ iha ihb =>
    exact .arrow (iha fun inner hinner => hf inner (paired_mono hinLeft hinLeft hinner))
      (ihb fun inner hinner => hf inner (paired_mono hinRight hinRight hinner))
  | @generic env p q a a' hpair _ ih =>
    refine .generic hpair (ih fun inner hinner i j hij => ?_)
    rw [append_cons]
    refine hf (inner ++ [(p, q)]) (fun e he => ?_) i j hij
    obtain he | he := mem_append.mp he
    · exact paired_mono (subset_cons_self ..) (subset_cons_self ..) hinner e he
    · obtain rfl := mem_singleton.mp he
      exact ⟨hpair, mem_cons_self, mem_cons_self⟩
  | app _ _ hloc iha ihb =>
    exact .app (iha fun inner hinner => hf inner (paired_mono hinLeft hinLeft hinner))
      (ihb fun inner hinner => hf inner (paired_mono hinRight hinRight hinner)) hloc
  | record _ ih => exact .record (ih hf)
  | emptyRow => exact .emptyRow
  | field _ _ iha ihb =>
    exact .field (iha fun inner hinner => hf inner (paired_mono hinLeft hinLeft hinner))
      (ihb fun inner hinner => hf inner (paired_mono hinRight hinRight hinner))

theorem bindHoles {f g : Nat → Ty} (halike : Alike known locs holes [] a b)
    (hf : ∀ i j, holes i j → Alike known locs holes' [] (f i) (g j)) :
    Alike known locs holes' [] (a.bindHoles f) (b.bindHoles g) := by
  refine halike.bindHoles_below fun inner hinner i j hij => ?_
  rw [append_nil]
  exact (hf i j hij).append fun e he => (hinner e he).1

theorem replaceHole {i j : Nat} {u v : Ty} (hunique : Relator.BiUnique holes)
    (halike : Alike known locs holes [] a b) (hij : holes i j)
    (hreplacement : Alike known locs holes [] u v) :
    Alike known locs holes [] (a.replaceHole i u) (b.replaceHole j v) := by
  refine halike.bindHoles fun i' j' hij' => ?_
  by_cases hi : i' = i
  · subst hi
    rw [if_pos rfl, if_pos (hunique.2 hij' hij)]
    exact hreplacement
  · rw [if_neg hi, if_neg fun hj : j' = j => hi (hunique.1 hij' (hj ▸ hij))]
    exact .hole hij'

/-- The last binder does not count where another one hides it on either side. -/
theorem drop_last (hhidden : p ∈ outer.map Prod.fst ∨ q ∈ outer.map Prod.snd)
    (halike : Alike known locs holes (outer ++ [(p, q)]) a b) :
    Alike known locs holes outer a b := by
  generalize henv : outer ++ [(p, q)] = env at halike
  induction halike generalizing outer with
  | ident hname hloc =>
    subst henv
    obtain ⟨-, -, hp, hq⟩ | ⟨-, -, hname⟩ := hname.last
    · exact absurd hhidden (not_or.mpr ⟨hp, hq⟩)
    · exact .ident hname hloc
  | hole hij => exact .hole hij
  | arrow _ _ iha ihb => exact .arrow (iha hhidden henv) (ihb hhidden henv)
  | generic hpair _ ih =>
    refine .generic hpair (ih ?_ (congrArg (_ :: ·) henv))
    exact hhidden.imp (mem_cons_of_mem _) (mem_cons_of_mem _)
  | app _ _ hloc iha ihb => exact .app (iha hhidden henv) (ihb hhidden henv) hloc
  | record _ ih => exact .record (ih hhidden henv)
  | emptyRow => exact .emptyRow
  | field _ _ iha ihb => exact .field (iha hhidden henv) (ihb hhidden henv)

/-- Where another binder hides the last one on one side only, the other side does not
mention its parameter. -/
theorem not_mentionsName (hp : p ∈ outer.map Prod.fst) (hq : q ∉ outer.map Prod.snd)
    (halike : Alike known locs holes (outer ++ [(p, q)]) a b) : b.mentionsName q = false := by
  generalize henv : outer ++ [(p, q)] = env at halike
  induction halike generalizing outer with
  | @ident _ _ y _ _ hname _ =>
    subst henv
    rw [mentionsName, decide_eq_false_iff_not]
    rintro rfl
    obtain ⟨-, -, hp', -⟩ | ⟨-, hq', -⟩ := hname.last
    · exact hp' hp
    · exact hq (hq' rfl)
  | hole | emptyRow => rfl
  | arrow _ _ iha ihb | app _ _ _ iha ihb | field _ _ iha ihb =>
    rw [mentionsName, iha hp hq henv, ihb hp hq henv, Bool.or_false]
  | @generic _ r s _ _ _ _ ih =>
    rw [mentionsName]
    by_cases hs : s = q
    · simp [hs]
    · rw [@ih ((r, s) :: outer) (mem_cons_of_mem _ hp) ?_ (congrArg _ henv), Bool.and_false]
      rw [map_cons, mem_cons, not_or]
      exact ⟨Ne.symm hs, hq⟩
  | record _ ih => exact ih hp hq henv

end Alike

namespace Alike

variable {u v : Ty}

/-- Replacing the parameters of the outermost binders. -/
theorem replaceName_below (hp : p ∉ outer.map Prod.fst) (hq : q ∉ outer.map Prod.snd)
    (houter : ∀ e ∈ outer, Paired known e.1 e.2)
    (halike : Alike known locs holes (outer ++ [(p, q)]) a b)
    (hreplacement : Alike known locs holes [] u v) :
    Alike known locs holes outer (a.replaceName p u) (b.replaceName q v) := by
  generalize henv : outer ++ [(p, q)] = env at halike
  induction halike generalizing outer with
  | ident hname hloc =>
    subst henv
    rw [replaceName, replaceName]
    obtain ⟨rfl, rfl, -, -⟩ | ⟨hx, hy, hname⟩ := hname.last
    · rw [if_pos rfl, if_pos rfl]
      exact hreplacement.append houter
    · rw [if_neg fun h => hp (hx h), if_neg fun h => hq (hy h)]
      exact .ident hname hloc
  | hole hij => exact .hole hij
  | arrow _ _ iha ihb => exact .arrow (iha hp hq houter henv) (ihb hp hq houter henv)
  | @generic _ r s a b hpair h ih =>
    subst henv
    refine .generic hpair ?_
    have hbody : Alike known locs holes ((r, s) :: outer ++ [(p, q)]) a b := h
    by_cases hr : r = p
    · rw [if_pos hr]
      have hhidden : p ∈ ((r, s) :: outer).map Prod.fst := by simp [hr]
      by_cases hs : s = q
      · rw [if_pos hs]
        exact hbody.drop_last (.inl hhidden)
      · have hshown : q ∉ ((r, s) :: outer).map Prod.snd := by
          rw [map_cons, mem_cons, not_or]
          exact ⟨Ne.symm hs, hq⟩
        rw [if_neg hs, replaceName_of_not_mentionsName
          (not_mentionsName hhidden hshown hbody)]
        exact hbody.drop_last (.inl hhidden)
    · rw [if_neg hr]
      have hshown : p ∉ ((r, s) :: outer).map Prod.fst := by
        rw [map_cons, mem_cons, not_or]
        exact ⟨Ne.symm hr, hp⟩
      by_cases hs : s = q
      · have hhidden : q ∈ ((r, s) :: outer).map Prod.snd := by simp [hs]
        have hswapped := hbody.symm
        rw [map_append] at hswapped
        rw [if_pos hs, replaceName_of_not_mentionsName
          (not_mentionsName (by simpa using hhidden) (by simpa using hshown) hswapped)]
        exact hbody.drop_last (.inr hhidden)
      · rw [if_neg hs]
        refine ih hshown ?_ (forall_mem_cons.mpr ⟨hpair, houter⟩) rfl
        rw [map_cons, mem_cons, not_or]
        exact ⟨Ne.symm hs, hq⟩
  | app _ _ hloc iha ihb => exact .app (iha hp hq houter henv) (ihb hp hq houter henv) hloc
  | record _ ih => exact .record (ih hp hq houter henv)
  | emptyRow => exact .emptyRow
  | field _ _ iha ihb => exact .field (iha hp hq houter henv) (ihb hp hq houter henv)

theorem opened (halike : Alike known locs holes [(p, q)] a b)
    (hreplacement : Alike known locs holes [] u v) :
    Alike known locs holes [] (a.replaceName p u) (b.replaceName q v) :=
  replaceName_below (by simp) (by simp) (by simp) halike hreplacement

end Alike

end RowScript.Ty
