import RowScript.Proofs.AlikeAnswers
import RowScript.Proofs.PairedRuns
import RowScript.Proofs.Renumbering
import RowScript.Proofs.RowOrder
import RowScript.Proofs.TypeLookups

/-!
# Solving constraints that are alike

Two solvers that get constraints that are alike find answers that are alike, or fail in the same
way. An equation whose sides differ in the names of their type parameters only is *idle*: one solver
may be done with it at once while the other takes it apart.
-/

namespace RowScript

open Ty

namespace Ty

/-- Types that two runs have in the same place. -/
abbrev Like (known : String → Prop) (holes : Nat → Nat → Prop) (a b : Ty) : Prop :=
  Alike known (· = ·) holes [] a b

/-- Types of one run that differ in the names of type parameters only. -/
abbrev Idle (known : String → Prop) (a b : Ty) : Prop :=
  Alike known (fun _ _ => True) (· = ·) [] a b

variable {known : String → Prop} {locs locs' locs'' : Loc → Loc → Prop}
  {holes holes' holes'' : Nat → Nat → Prop} {a b c d : Ty}

theorem Alike.extend (halike : a.Alike known locs holes [] b)
    (hmore : ∀ i j, holes i j → holes' i j) : a.Alike known locs holes' [] b :=
  halike.mono (fun _ _ hloc => hloc) hmore

theorem Alike.compose (hlocs : ∀ l m k, locs l m → locs' m k → locs'' l k)
    (hholes : ∀ i j k, holes i j → holes' j k → holes'' i k) (hab : a.Alike known locs holes [] b)
    (hbc : b.Alike known locs' holes' [] c) : a.Alike known locs'' holes'' [] c := by
  have hchains : Alike known locs'' holes''
      (([] : List (String × String × String)).map fun e => (e.1, e.2.2)) a c :=
    Alike.trans hlocs hholes hab hbc
  exact hchains

theorem Like.closedOver (hlike : a.Like known holes b) : a.ClosedOver known :=
  (Alike.closedOver hlike).mono fun _ hname => hname.resolve_left List.not_mem_nil

/-- A closed type without placeholders is the same in both runs. -/
theorem like_self (hholes : a.holes = []) (hclosed : a.ClosedOver known) :
    a.Like known holes a := by
  have hself : Alike known (· = ·) holes (([] : List String).map fun name => (name, name)) a a :=
    alike_self (fun _ => rfl) (by simp [hholes]) (hclosed.mono fun _ => .inr)
  exact hself

theorem idle_self (hclosed : a.ClosedOver known) : a.Idle known a := by
  have hself : Alike known (fun _ _ => True) (· = ·)
      (([] : List String).map fun name => (name, name)) a a :=
    alike_self (fun _ => trivial) (fun _ _ => rfl) (hclosed.mono fun _ => .inr)
  exact hself

theorem idle_of_agrees (hclosed : a.ClosedOver known) (hagrees : a.agrees b) : a.Idle known b := by
  have hidle : Alike known (fun _ _ => True) (· = ·)
      (([] : List String).map fun name => (name, name)) a b :=
    alike_of_agrees (hclosed.mono fun _ => .inr) hagrees
  exact hidle

/-- An equation that is idle in one run is idle in the other. -/
theorem Idle.transfer (hunique : Relator.LeftUnique holes) (hidle : c.Idle known d)
    (hac : a.Like known holes c) (hbd : b.Like known holes d) : a.Idle known b := by
  have hforth : ∀ i j k, holes i j → j = k → holes i k := fun _ _ _ hij hjk => hjk ▸ hij
  have had : a.Alike known (fun _ _ => True) holes [] d :=
    hac.compose (fun _ _ _ _ _ => trivial) hforth hidle
  have hdb : d.Alike known (fun _ _ => True) (fun j i => holes i j) [] b :=
    hbd.symm.mono (fun _ _ _ => trivial) fun _ _ hij => hij
  have hback : ∀ i j k, holes i j → holes k j → i = k := fun _ _ _ hij hkj => hunique hij hkj
  have hab : a.Alike known (fun _ _ => True) (· = ·) [] b :=
    had.compose (fun _ _ _ _ _ => trivial) hback hdb
  exact hab

theorem Like.swap (hlike : a.Like known holes b) : b.Like known (fun j i => holes i j) a :=
  (Alike.symm hlike).mono (fun _ _ hloc => hloc.symm) fun _ _ hij => hij

theorem Idle.replaceHole (hidle : a.Idle known b) (hclosed : c.ClosedOver known) (id : Nat) :
    (a.replaceHole id c).Idle known (b.replaceHole id c) := by
  have hunique : Relator.BiUnique (fun i j : Nat => i = j) :=
    ⟨fun _ _ _ hij hkj => hij.trans hkj.symm, fun _ _ _ hij hik => hij.symm.trans hik⟩
  exact Alike.replaceHole hunique hidle rfl (idle_self hclosed)

/-- Types that are replaced by others before their forms are compared. -/
def isFlexible : Ty → Bool
  | .hole _ | .generic .. | .app .. => true
  | _ => false

theorem size_replaceName (a : Ty) (name : String) (id : Nat) :
    (a.replaceName name (.hole id)).size = a.size := by
  induction a with
  | ident other => by_cases hother : other = name <;> simp [replaceName, size, hother]
  | hole | emptyRow => rfl
  | generic param _ ih => by_cases hparam : param = name <;> simp [replaceName, size, hparam, ih]
  | record _ _ ih => simp [replaceName, size, ih]
  | arrow _ _ iha ihb | app _ _ _ iha ihb | field _ _ _ iha ihb =>
    simp [replaceName, size, iha, ihb]

end Ty

/-- Stacks of equations that are alike up to idle ones. -/
inductive Equations (known : String → Prop) (holes : Nat → Nat → Prop) :
    List Equation → List Equation → Prop
  | nil : Equations known holes [] []
  | both {equal equal' rest rest'} : equal.lhs.Like known holes equal'.lhs →
    equal.rhs.Like known holes equal'.rhs → Equations known holes rest rest' →
    Equations known holes (equal :: rest) (equal' :: rest')
  | left {equal rest rest'} : equal.lhs.Idle known equal.rhs → Equations known holes rest rest' →
    Equations known holes (equal :: rest) rest'
  | right {equal' rest rest'} : equal'.lhs.Idle known equal'.rhs →
    Equations known holes rest rest' → Equations known holes rest (equal' :: rest')

namespace Equations

variable {known : String → Prop} {holes more : Nat → Nat → Prop}
  {pending pending' idle : List Equation}

theorem extend (hpending : Equations known holes pending pending')
    (hmore : ∀ i j, holes i j → more i j) : Equations known more pending pending' := by
  induction hpending with
  | nil => exact .nil
  | both hlhs hrhs _ ih => exact .both (hlhs.extend hmore) (hrhs.extend hmore) ih
  | left hidle _ ih => exact .left hidle ih
  | right hidle _ ih => exact .right hidle ih

theorem replaceHole {i j : Nat} {a b : Ty} (hunique : Relator.BiUnique holes)
    (hpending : Equations known holes pending pending') (hij : holes i j)
    (hlike : a.Like known holes b) :
    Equations known holes (pending.map (·.replaceHole i a)) (pending'.map (·.replaceHole j b)) := by
  induction hpending with
  | nil => exact .nil
  | both hlhs hrhs _ ih =>
    exact .both (hlhs.replaceHole hunique hij hlike) (hrhs.replaceHole hunique hij hlike) ih
  | left hidle _ ih => exact .left (hidle.replaceHole hlike.closedOver i) ih
  | right hidle _ ih => exact .right (hidle.replaceHole hlike.swap.closedOver j) ih

section

variable (hidle : ∀ equal ∈ idle, equal.lhs.Idle known equal.rhs)
  (hpending : Equations known holes pending pending')

include hidle hpending

theorem append_left : Equations known holes (idle ++ pending) pending' := by
  induction idle with
  | nil => exact hpending
  | cons equal idle ih =>
    rw [List.forall_mem_cons] at hidle
    exact .left hidle.1 (ih hidle.2)

theorem append_right : Equations known holes pending (idle ++ pending') := by
  induction idle with
  | nil => exact hpending
  | cons equal idle ih =>
    rw [List.forall_mem_cons] at hidle
    exact .right hidle.1 (ih hidle.2)

end

theorem of_constraints {constraints others : List Constraint}
    (halike : ConstraintsAlike known (· = ·) holes constraints others) :
    Equations known holes (constraints.map fun equal => ⟨equal.1, equal.2, none⟩)
      (others.map fun equal => ⟨equal.1, equal.2, none⟩) := by
  induction halike with
  | nil => exact .nil
  | cons hequal _ ih => exact .both hequal.1 hequal.2 ih

end Equations

namespace Solver

/-- Two solvers that have found answers that are alike, with equations before them that are
alike up to idle ones. -/
structure Alike (known : String → Prop) (holes : Nat → Nat → Prop) (state state' : Solver) :
    Prop where
  pending : Equations known holes state.pending state'.pending
  solved : ConstraintsAlike known (· = ·) holes state.solved state'.solved

/-- The size of the left sides of equations. -/
def mass : List Equation → Nat
  | [] => 0
  | equal :: pending => equal.lhs.size + mass pending

theorem mass_append (idle pending : List Equation) :
    mass (idle ++ pending) = mass idle + mass pending := by
  induction idle with
  | nil => simp [mass]
  | cons equal idle ih => simp [mass, ih, Nat.add_assoc]

/-- A solver with more idle equations before it, up to a certain size. -/
def Idles (known : String → Prop) (limit : Nat) (state result : Solver) : Prop :=
  ∃ idle : List Equation, (∀ equal ∈ idle, equal.lhs.Idle known equal.rhs) ∧
    mass idle < limit ∧ result = ⟨idle ++ state.pending, state.solved⟩

variable {known : String → Prop} {holes more : Nat → Nat → Prop} {ctx ctx' : Context}
  {loc : Option Loc} {state state' : Solver} {lhs lhs' rhs rhs' a b : Ty}
  {records records' : Option Constraint} {fuel i j limit : Nat} {key name : String}
  {solved : List Constraint}

theorem Alike.extend (halike : Alike known holes state state')
    (hmore : ∀ i j, holes i j → more i j) : Alike known more state state' :=
  ⟨halike.pending.extend hmore, halike.solved.imp fun _ _ hequal =>
    ⟨hequal.1.extend hmore, hequal.2.extend hmore⟩⟩

theorem Alike.push (halike : Alike known holes state state') (hlhs : lhs.Like known holes lhs')
    (hrhs : rhs.Like known holes rhs') :
    Alike known holes (state.push lhs rhs records) (state'.push lhs' rhs' records') :=
  ⟨.both hlhs hrhs halike.pending, halike.solved⟩

theorem assign_accords (hunique : Relator.BiUnique holes) (halike : Alike known holes state state')
    (hij : holes i j) (hlike : a.Like known holes b) :
    ExceptAccords (Alike known holes) (state.assign loc i a) (state'.assign loc j b) := by
  unfold assign
  rw [Alike.occurs_eq hunique hlike hij]
  split
  · exact .inl ⟨rfl, rfl, by simp⟩
  · exact ⟨halike.pending.replaceHole hunique hij hlike, .cons ⟨.hole hij, hlike⟩ halike.solved⟩

theorem idles_nil (hlimit : 0 < limit) : state.Idles known limit state := ⟨[], by simp, hlimit, rfl⟩

theorem Idles.push {result : Solver} (hidles : state.Idles known limit result)
    (hidle : lhs.Idle known rhs) :
    state.Idles known (lhs.size + limit) (result.push lhs rhs records) := by
  obtain ⟨idle, hall, hlimit, rfl⟩ := hidles
  exact ⟨⟨lhs, rhs, records⟩ :: idle, List.forall_mem_cons.mpr ⟨hidle, hall⟩,
    by simpa [mass] using hlimit, rfl⟩

/-- Both sides of an idle equation have the same form, so it is taken apart at once. -/
theorem step_idle (hidle : lhs.Idle known rhs) :
    Alone (state.Idles known lhs.size) (step ctx loc · state ⟨lhs, rhs, records⟩) := by
  have hnil : state.Idles known 1 state := idles_nil Nat.one_pos
  by_cases hagrees : lhs.agrees rhs
  · simp only [step, hagrees, if_true]
    exact alone_pure (idles_nil (by cases lhs <;> simp [size]))
  · simp only [step, hagrees]
    cases hidle with
    | ident hname hloc =>
      obtain ⟨rfl, -⟩ := hname
      simp [agrees] at hagrees
    | hole hij => simp [agrees, hij] at hagrees
    | emptyRow => simp [agrees] at hagrees
    | arrow harg hret => exact alone_pure ((hnil.push hret).push harg)
    | app hcallee harg _ => exact alone_pure ((hnil.push harg).push hcallee)
    | @generic _ p q body body' hpair hbody =>
      intro start
      have hidle := hbody.opened (.hole rfl : Idle known (hole (start.counter + 1)) _)
      have hopened : state.Idles known _ (state.push _ _ records) := hnil.push hidle
      rw [size_replaceName] at hopened
      exact ⟨_, _, .const not_false, Nat.le_succ _, hopened⟩
    | @record _ row row' label hrow =>
      have hfit : labelsFit label label := by simp [labelsFit]
      show Alone _ fun _ => if labelsFit label label = true then pure (state.push row row' _) else _
      simp only [if_pos hfit]
      exact alone_pure (hnil.push hrow)
    | @field _ key type base type' base' htype hbase =>
      have hpull (fuel : Nat) (tail : Ty) : pullField ctx loc state key type tail records (fuel + 1)
          (.field key type' base') = pure ((type, type'), base') := by
        rw [pullField, if_pos rfl]
      refine Alone.succ ?_ fun _ => rfl
      show Alone _ fun fuel => (pullField ctx loc state key type _ records (fuel + 1)
        (.field key type' base') >>= fun _ => _ : CheckM Solver)
      simp only [hpull]
      exact alone_pure ((hnil.push hbase).push htype)

section Lookups

variable (huses : ctx.SameTypeUses known ctx') (hctx : (Ty.Convention.ofContext ctx).IsClosed)
  {callee callee' arg arg' : Ty}

include huses hctx

theorem declaredType_accords (hname : known name) (nameLoc : Loc) :
    ExceptAccords (fun a b => a = b ∧ a.Like known holes b) (declaredType ctx loc name nameLoc)
      (declaredType ctx' loc name nameLoc) := by
  unfold declaredType
  rcases Context.find?_cases (huses.same name hname) with ⟨hfind, hfind'⟩ |
    ⟨value, value', hfind, huse, hfind', huse'⟩ | ⟨type, _, _, _, _, hfind, hfind'⟩ |
    ⟨hfind, hfind'⟩
  · rw [hfind, hfind']
    exact .inl ⟨rfl, rfl, by simp⟩
  · rw [hfind, hfind']
    cases value with
    | typed | defined =>
      cases value' with
      | typed | defined => exact .inl ⟨rfl, rfl, by simp⟩
      | _ => cases huse'
    | _ => cases huse
  · rw [hfind, hfind']
    have halias := Context.alias?_of_find? hfind
    exact ⟨rfl, like_self (hctx name type halias) (huses.closed name type hname halias)⟩
  · rw [hfind, hfind']
    exact ⟨rfl, .ident ⟨rfl, hname⟩ rfl⟩

theorem unfolding?_accords (hlike : a.Like known holes b) :
    ExceptAccords (Option.Rel (Like known holes)) (unfolding? ctx loc a)
      (unfolding? ctx' loc b) := by
  cases hlike with
  | ident hname hloc =>
    obtain ⟨rfl, hknown⟩ := hname
    subst hloc
    have hdeclared := @declaredType_accords known holes ctx ctx' loc _ huses hctx hknown
    refine (hdeclared _).bind ?_
    rintro declared _ ⟨rfl, hlike⟩
    split
    · exact .none
    · exact .some hlike
  | _ => exact .none

theorem unfoldApplication_accords (appLoc : Loc) (hcallee : callee.Like known holes callee')
    (harg : arg.Like known holes arg') :
    ExceptAccords (Like known holes) (ctx.unfoldApplication loc callee arg appLoc)
      (ctx'.unfoldApplication loc callee' arg' appLoc) := by
  cases hcallee with
  | @ident _ name _ nameLoc _ hname hloc =>
    obtain ⟨rfl, hknown⟩ := hname
    subst hloc
    unfold Context.unfoldApplication
    rcases Context.find?_cases (huses.same _ hknown) with ⟨hfind, hfind'⟩ |
      ⟨value, value', hfind, huse, hfind', huse'⟩ | ⟨type, _, _, _, _, hfind, hfind'⟩ |
      ⟨hfind, hfind'⟩
    · simp only [hfind, hfind']
      exact .inl ⟨rfl, rfl, by simp⟩
    · simp only [hfind, hfind']
      cases value with
      | typed | defined =>
        cases value' with
        | typed | defined => exact .inl ⟨rfl, rfl, by simp⟩
        | _ => cases huse'
      | _ => cases huse
    · simp only [hfind, hfind']
      have halias := Context.alias?_of_find? hfind
      have hlike : type.Like known holes type :=
        like_self (hctx _ type halias) (huses.closed _ type hknown halias)
      cases type with
      | generic param body =>
        cases hlike with
        | generic hpair hbody => exact hbody.opened harg
      | _ => exact .inl ⟨rfl, rfl, by simp⟩
    · simp only [hfind, hfind']
      exact .inl ⟨rfl, rfl, by simp⟩
  | generic hpair hbody => exact hbody.opened harg
  | _ => exact .inl ⟨rfl, rfl, by simp⟩

theorem expandApplication_accords (appLoc : Loc) (hcallee : callee.Like known holes callee')
    (harg : arg.Like known holes arg') :
    ExceptAccords (Like known holes) (ctx.expandApplication loc callee arg appLoc)
      (ctx'.expandApplication loc callee' arg' appLoc) := by
  induction callee generalizing callee' arg arg' appLoc with
  | app inner last innerLoc ih _ =>
    cases hcallee with
    | app hinner hlast hloc =>
      subst hloc
      refine (ih innerLoc hinner hlast).bind fun _ _ hexpanded => ?_
      exact unfoldApplication_accords huses hctx appLoc hexpanded harg
  | _ =>
    have hunfold := @unfoldApplication_accords known holes ctx ctx' loc huses hctx _ _ _ _ appLoc
      hcallee harg
    cases hcallee
    exact hunfold

end Lookups

theorem generalize_letters {stamp : Nat} {fault : Fault}
    (hrun : generalize solved a ctx loc stamp = .error fault) :
    fault.cause = .outOfTypeVariables := by
  rw [generalize_eq_error hrun]

theorem displayed_accords {solved' : List Constraint} :
    ExceptAccords (fun _ _ => True) (a.displayed solved) (b.displayed solved') := by
  have hclosed : ExceptAccords (fun _ _ => True) (generalize solved a [] none 0)
      (generalize solved' b [] none 0) :=
    exceptAccords_of_letters (fun _ => generalize_letters) (fun _ => generalize_letters)
      fun _ _ _ _ => trivial
  exact hclosed.bind fun _ _ _ => trivial

theorem display_accords : ExceptAccords (fun _ _ => True) (state.display a) (state'.display b) := by
  unfold display
  split <;> split <;> exact displayed_accords

theorem incompatible_accords {P : (Nat → Nat → Prop) → Solver → Solver → Prop} :
    Accord holes P (CheckM.ofExcept (decompose.incompatible loc lhs rhs state)) fun _ =>
      CheckM.ofExcept (decompose.incompatible loc lhs' rhs' state') :=
  accord_ofExcept (display_accords.bind fun _ _ _ =>
    display_accords.bind fun _ _ _ => .inl ⟨rfl, rfl, by simp⟩)

theorem notContained_accords {α β : Type} {P : (Nat → Nat → Prop) → α → β → Prop} :
    Accord holes P (do throw (← CheckM.ofExcept (notContained loc state records a key))) fun _ =>
      (do throw (← CheckM.ofExcept (notContained loc state' records' b key))) := by
  have hfault : ExceptAccords Fault.Matches (notContained loc state records a key)
      (notContained loc state' records' b key) :=
    display_accords.bind fun _ _ _ => ⟨rfl, rfl, by simp⟩
  exact accord_ofExcept_bind hfault fun _ _ hmatches => accord_throw hmatches

/-- What two solvers pull out of their rows: two equations and two rests of rows. -/
def PulledAlike (known : String → Prop) (holes : Nat → Nat → Prop)
    (pulled pulled' : Constraint × Ty) : Prop :=
  pulled.1.1.Like known holes pulled'.1.1 ∧ pulled.1.2.Like known holes pulled'.1.2 ∧
    pulled.2.Like known holes pulled'.2

section Steps

variable (huses : ctx.SameTypeUses known ctx') (hctx : (Ty.Convention.ofContext ctx).IsClosed)

include huses hctx

theorem pullField_accords {type type' tail tail' row row' : Ty}
    (hunique : Relator.BiUnique holes) (htype : type.Like known holes type')
    (htail : tail.Like known holes tail') (hrow : row.Like known holes row') :
    Accord holes (PulledAlike known) (pullField ctx loc state key type tail records fuel row)
      (pullField ctx' loc state' key type' tail' records' · row') := by
  induction fuel generalizing row row' with
  | zero => exact fun _ _ _ => .inl (.inl rfl)
  | succ fuel ih =>
    refine Accord.succ ?_ fun _ => rfl
    unfold pullField
    cases hrow with
    | @field _ k _ _ _ _ hfield hbase =>
      by_cases hk : k = key
      · simp only [hk, if_true]
        exact accord_pure ⟨htype, hfield, hbase⟩
      · simp only [hk, if_false]
        refine (ih hbase).bind fun more hmore _ pulled pulled' hpulled => ?_
        exact accord_pure
          ⟨hpulled.1, hpulled.2.1, .field (hfield.extend hmore) hpulled.2.2⟩
    | hole hij =>
      simp only [Alike.eq_hole_iff hunique htail hij]
      split
      · exact accord_throw ⟨rfl, rfl, by simp⟩
      · refine accord_freshHole.bind fun more hmore _ rest rest' hrest => ?_
        exact accord_pure ⟨.hole (hmore _ _ hij),
          .field (htype.extend hmore) (.hole hrest), .hole hrest⟩
    | ident hname hloc =>
      obtain ⟨rfl, hknown⟩ := hname
      subst hloc
      have hdeclared := @declaredType_accords known holes ctx ctx' loc _ huses hctx hknown
      refine accord_ofExcept_bind (hdeclared _) ?_
      rintro declared _ ⟨rfl, hlike⟩
      cases hlike with
      | record hrow => exact ih hrow
      | _ => exact notContained_accords
    | emptyRow => exact notContained_accords
    | _ =>
      exact accord_ofExcept_bind display_accords fun _ _ _ => accord_throw ⟨rfl, rfl, by simp⟩

omit huses hctx in
theorem openGeneric_accords {param param' : String} {body body' : Ty}
    (hbody : body.Alike known (· = ·) holes [(param, param')] body') :
    Accord holes (fun more a b => a.Like known more b) (openGeneric param body) fun _ =>
      openGeneric param' body' :=
  accord_freshHole.bind fun _ hmore _ _ _ hij =>
    accord_pure ((hbody.mono (fun _ _ hloc => hloc) hmore).opened (.hole hij))

variable (hunique : Relator.BiUnique holes) (halike : Alike known holes state state')

include hunique halike

omit huses hctx in
theorem accord_assign (loc : Option Loc) (hij : holes i j) (hlike : a.Like known holes b) :
    Accord holes (Alike known) (CheckM.ofExcept (state.assign loc i a)) fun _ =>
      CheckM.ofExcept (state'.assign loc j b) :=
  accord_ofExcept (assign_accords hunique halike hij hlike)

/-- What can be replaced stands on the left of a type that is taken as it is. -/
theorem decompose_accords_of_isFlexible (hlhs : lhs.Like known holes lhs')
    (hrhs : rhs.Like known holes rhs') (hleft : lhs.isFlexible) (hright : rhs.isFlexible = false) :
    Accord holes (Alike known) (decompose ctx loc fuel state lhs rhs records)
      (decompose ctx' loc · state' lhs' rhs' records') := by
  have hlike := hrhs
  cases hlhs with
  | hole hij =>
    cases hrhs with
    | hole | generic | app => cases hright
    | _ => exact accord_assign hunique halike loc hij hlike
  | generic hpair hbody =>
    cases hrhs with
    | hole | generic | app => cases hright
    | _ =>
      exact (openGeneric_accords hbody).bind fun _ hmore _ _ _ hopened =>
        accord_pure ((halike.extend hmore).push hopened (hlike.extend hmore))
  | app hcallee harg hloc =>
    subst hloc
    cases hrhs with
    | hole | generic | app => cases hright
    | _ =>
      exact accord_ofExcept_bind (expandApplication_accords huses hctx _ hcallee harg)
        fun _ _ hexpanded => accord_pure (halike.push hexpanded hlike)
  | _ => cases hleft

theorem decompose_accords (hlhs : lhs.Like known holes lhs') (hrhs : rhs.Like known holes rhs') :
    Accord holes (Alike known) (decompose ctx loc fuel state lhs rhs records)
      (decompose ctx' loc · state' lhs' rhs' records') := by
  have hflexible := @decompose_accords_of_isFlexible known holes ctx ctx' loc state state' lhs lhs'
    rhs rhs' records records' fuel huses hctx hunique halike hlhs hrhs
  -- a placeholder on the right comes before anything on the left
  have hleft := hlhs
  have hright := hrhs
  cases hrhs with
  | hole hij => exact accord_assign hunique halike loc hij hlhs
  | generic hpair hbody =>
    cases hlhs with
    | hole hij => exact accord_assign hunique halike loc hij hright
    | generic hpair' hbody' =>
      refine accord_freshHole.bind fun more hmore _ i j hij => accord_pure ?_
      exact (halike.extend hmore).push
        ((hbody'.mono (fun _ _ hloc => hloc) hmore).opened (.hole hij))
        ((hbody.mono (fun _ _ hloc => hloc) hmore).opened (.hole hij))
    | _ =>
      refine (openGeneric_accords hbody).bind fun more hmore _ _ _ hopened => accord_pure ?_
      exact (halike.extend hmore).push (hleft.extend hmore) hopened
  | app hcallee harg hloc =>
    subst hloc
    cases hlhs with
    | hole hij => exact accord_assign hunique halike loc hij hright
    | generic hpair hbody =>
      refine (openGeneric_accords hbody).bind fun more hmore _ _ _ hopened => accord_pure ?_
      exact (halike.extend hmore).push hopened (hright.extend hmore)
    | app hcallee' harg' _ => exact accord_pure ((halike.push harg' harg).push hcallee' hcallee)
    | _ =>
      exact accord_ofExcept_bind (expandApplication_accords huses hctx _ hcallee harg)
        fun _ _ hexpanded => accord_pure (halike.push hleft hexpanded)
  | arrow harg hret =>
    cases hlhs with
    | hole | generic | app => exact hflexible rfl rfl
    | arrow harg' hret' => exact accord_pure ((halike.push hret' hret).push harg' harg)
    | _ => exact incompatible_accords
  | record hrow =>
    cases hlhs with
    | hole | generic | app => exact hflexible rfl rfl
    | record hrow' =>
      simp only [decompose]
      split
      · exact accord_pure (halike.push hrow' hrow)
      · exact incompatible_accords
    | _ => exact incompatible_accords
  | field htype hbase =>
    cases hlhs with
    | hole | generic | app => exact hflexible rfl rfl
    | field htype' hbase' =>
      refine (pullField_accords huses hctx hunique htype' (Alike.rowTail hleft) hright).bind
        fun more hmore _ pulled pulled' hpulled => accord_pure ?_
      exact ((halike.extend hmore).push (hbase'.extend hmore) hpulled.2.2).push hpulled.1
        hpulled.2.1
    | emptyRow =>
      exact accord_ofExcept (display_accords.bind fun _ _ _ =>
        displayed_accords.bind fun _ _ _ => .inl ⟨rfl, rfl, by simp⟩)
    | _ => exact incompatible_accords
  | emptyRow =>
    cases hlhs with
    | hole | generic | app => exact hflexible rfl rfl
    | field htype hbase =>
      exact accord_ofExcept (displayed_accords.bind fun _ _ _ =>
        display_accords.bind fun _ _ _ => .inl ⟨rfl, rfl, by simp⟩)
    | _ => exact incompatible_accords
  | ident hname hloc =>
    cases hlhs with
    | hole | generic | app => exact hflexible rfl rfl
    | _ => exact incompatible_accords

theorem step_accords (hlhs : lhs.Like known holes lhs') (hrhs : rhs.Like known holes rhs')
    (hagrees : lhs.agrees rhs = false) (hagrees' : lhs'.agrees rhs' = false) :
    Accord holes (Alike known) (step ctx loc fuel state ⟨lhs, rhs, records⟩)
      (step ctx' loc · state' ⟨lhs', rhs', records'⟩) := by
  simp only [step, hagrees, hagrees', Bool.false_eq_true, if_false]
  refine accord_ofExcept_bind (unfolding?_accords huses hctx hrhs) fun _ _ hdeclared => ?_
  cases hdeclared with
  | some hdeclared => exact accord_pure (halike.push hlhs hdeclared)
  | none =>
    refine accord_ofExcept_bind (unfolding?_accords huses hctx hlhs) fun _ _ hdeclared => ?_
    cases hdeclared with
    | some hdeclared => exact accord_pure (halike.push hdeclared hrhs)
    | none => exact decompose_accords huses hctx hunique halike hlhs hrhs

/-- Two solvers that are alike find answers that are alike. Every round takes fuel from the first
one or makes the equations of the second one smaller. -/
theorem run_accords :
    Accord holes (fun more => ConstraintsAlike known (· = ·) more) (run ctx loc fuel state)
      (run ctx' loc · state') := by
  induction fuel generalizing holes state state' with
  | zero => exact fun _ _ _ => .inl (.inl rfl)
  | succ fuel ih =>
    obtain ⟨pending, solved⟩ := state
    induction hmass : mass state'.pending using Nat.strongRecOn generalizing state' with
    | ind total ihmass =>
      obtain ⟨pending', solved'⟩ := state'
      obtain ⟨hpending, hsolved⟩ := halike
      cases hpending with
      | nil => exact (accord_pure hsolved).succ fun _ => rfl
      | left hidle hrest =>
        refine Accord.bind_left (step_idle hidle) fuel ?_
        rintro _ ⟨idle, hall, -, rfl⟩
        exact ih hunique ⟨hrest.append_left hall, hsolved⟩
      | right hidle hrest =>
        refine Accord.succ (Accord.bind_right (step_idle hidle) ?_) fun _ => rfl
        rintro _ ⟨idle, hall, hlt, rfl⟩
        refine ihmass _ ?_ ⟨hrest.append_right hall, hsolved⟩ rfl
        subst hmass
        simpa [mass, mass_append] using hlt
      | @both equal equal' rest rest' hlhs hrhs hrest =>
        refine Accord.succ ?_ fun _ => rfl
        by_cases hidle : equal.lhs.Idle known equal.rhs
        · -- Both solvers work the equation off without assigning anything.
          have hback : Relator.LeftUnique fun j i => holes i j :=
            fun _ _ _ hij hkj => hunique.2 hij hkj
          have hidle' : equal'.lhs.Idle known equal'.rhs :=
            Idle.transfer hback hidle hlhs.swap hrhs.swap
          refine Accord.bind_left (step_idle hidle) fuel ?_
          rintro _ ⟨idle, hall, -, rfl⟩
          refine Accord.bind_right (step_idle hidle') ?_
          rintro _ ⟨idle', hall', -, rfl⟩
          exact ih hunique ⟨(hrest.append_left hall).append_right hall', hsolved⟩
        · have hagrees : equal.lhs.agrees equal.rhs = false :=
            Bool.eq_false_iff.mpr fun hagrees =>
              hidle (idle_of_agrees hlhs.closedOver hagrees)
          have hagrees' : equal'.lhs.agrees equal'.rhs = false :=
            Bool.eq_false_iff.mpr fun hagrees => hidle (Idle.transfer hunique.1
              (idle_of_agrees hlhs.swap.closedOver hagrees) hlhs hrhs)
          have halike : Alike known holes ⟨rest, solved⟩ ⟨rest', solved'⟩ :=
            ⟨hrest, hsolved⟩
          exact (step_accords huses hctx hunique halike hlhs hrhs hagrees hagrees').bind
            fun more _ hunique _ _ halike => ih hunique halike

end Steps

end Solver

theorem unify_accords {known : String → Prop} {holes : Nat → Nat → Prop} {ctx ctx' : Context}
    {loc : Option Loc} {fuel : Nat} {constraints constraints' : List Constraint}
    (huses : ctx.SameTypeUses known ctx') (hctx : (Convention.ofContext ctx).IsClosed)
    (hunique : Relator.BiUnique holes)
    (halike : ConstraintsAlike known (· = ·) holes constraints constraints') :
    Accord holes (fun more => ConstraintsAlike known (· = ·) more) (unify fuel ctx loc constraints)
      (unify · ctx' loc constraints') :=
  Solver.run_accords huses hctx hunique ⟨Equations.of_constraints halike, .nil⟩

end RowScript
