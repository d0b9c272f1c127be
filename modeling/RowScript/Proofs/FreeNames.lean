import RowScript.Proofs.InferenceSoundness
import RowScript.Proofs.TypeInvariants

/-!
# Free names of types

Replacing names and placeholders can capture a name, since parameters are never renamed, but it
cannot set one free. So everything that is made out of closed types is closed again.
-/

namespace RowScript

open Ty

namespace Ty

variable {known other : String → Prop} {a b : Ty} {name param : String} {loc : Loc}

/-- Every name that is free in a type is known. -/
def ClosedOver (known : String → Prop) (ty : Ty) : Prop :=
  ∀ name, ty.mentionsName name = true → known name

theorem ClosedOver.mono (hclosed : a.ClosedOver known) (hknown : ∀ name, known name → other name) :
    a.ClosedOver other :=
  fun name hname => hknown name (hclosed name hname)

theorem mem_names_of_mentionsName {ty : Ty} (hname : ty.mentionsName name) : name ∈ ty.names := by
  induction ty with
  | ident n loc => simpa [mentionsName, names, eq_comm] using hname
  | hole | emptyRow => cases hname
  | arrow a b iha ihb | app a b _ iha ihb | field _ a b iha ihb =>
    simp only [mentionsName, Bool.or_eq_true] at hname
    simp only [names, List.mem_append]
    exact hname.imp iha ihb
  | generic param a ih =>
    simp only [mentionsName, Bool.and_eq_true] at hname
    exact List.mem_cons_of_mem _ (ih hname.2)
  | record a label ih => exact ih hname

theorem closedOver_of_names (hnames : ∀ name ∈ a.names, known name) : a.ClosedOver known :=
  fun name hname => hnames name (mem_names_of_mentionsName hname)

@[simp]
theorem closedOver_hole {id : Nat} : (hole id).ClosedOver known := nofun

@[simp]
theorem closedOver_emptyRow : emptyRow.ClosedOver known := nofun

@[simp]
theorem closedOver_ident : (ident name loc).ClosedOver known ↔ known name := by
  show (∀ n, decide (name = n) = true → known n) ↔ known name
  simp

@[simp]
theorem closedOver_named : (named name).ClosedOver known ↔ known name :=
  closedOver_ident

theorem closedOver_parts {whole : Ty}
    (hwhole : ∀ name, whole.mentionsName name = (a.mentionsName name || b.mentionsName name)) :
    whole.ClosedOver known ↔ a.ClosedOver known ∧ b.ClosedOver known := by
  simp [ClosedOver, hwhole, or_imp, forall_and]

@[simp]
theorem closedOver_arrow : (arrow a b).ClosedOver known ↔ a.ClosedOver known ∧ b.ClosedOver known :=
  closedOver_parts fun _ => rfl

@[simp]
theorem closedOver_app : (app a b loc).ClosedOver known ↔ a.ClosedOver known ∧ b.ClosedOver known :=
  closedOver_parts fun _ => rfl

@[simp]
theorem closedOver_field {key : String} :
    (field key a b).ClosedOver known ↔ a.ClosedOver known ∧ b.ClosedOver known :=
  closedOver_parts fun _ => rfl

@[simp]
theorem closedOver_record {label : Option String} :
    (record a label).ClosedOver known ↔ a.ClosedOver known := Iff.rfl

@[simp]
theorem closedOver_generic :
    (generic param a).ClosedOver known ↔ a.ClosedOver fun name => name = param ∨ known name := by
  show (∀ name, (decide (param ≠ name) && a.mentionsName name) = true → known name) ↔ _
  simp only [Bool.and_eq_true, decide_eq_true_eq]
  constructor
  · intro hclosed name hname
    by_cases hparam : name = param
    · exact .inl hparam
    · exact .inr (hclosed name ⟨Ne.symm hparam, hname⟩)
  · intro hclosed name hname
    exact (hclosed name hname.2).resolve_left (Ne.symm hname.1)

theorem ClosedOver.bindHoles {f : Nat → Ty} (hclosed : a.ClosedOver known)
    (hf : ∀ i ∈ a.holes, (f i).ClosedOver known) : (a.bindHoles f).ClosedOver known := by
  induction a generalizing known with
  | ident | emptyRow => exact hclosed
  | hole i => exact hf i (by simp [holes])
  | arrow a b iha ihb | app a b _ iha ihb | field _ a b iha ihb =>
    simp only [holes, List.mem_append] at hf
    simp only [closedOver_arrow, closedOver_app, closedOver_field, bindHoles] at hclosed ⊢
    exact ⟨iha hclosed.1 fun i hi => hf i (.inl hi), ihb hclosed.2 fun i hi => hf i (.inr hi)⟩
  | generic param a ih =>
    simp only [closedOver_generic, bindHoles] at hclosed ⊢
    apply ih hclosed
    intro i hi
    exact (hf i hi).mono fun name => .inr
  | record a label ih =>
    exact ih hclosed hf

theorem ClosedOver.replaceHole {id : Nat} (hclosed : a.ClosedOver known)
    (hreplacement : b.ClosedOver known) : (a.replaceHole id b).ClosedOver known := by
  apply hclosed.bindHoles
  intro i _
  by_cases hi : i = id
  · rwa [if_pos hi]
  · simp [if_neg hi]

theorem replaceName_of_not_mentionsName (hname : a.mentionsName name = false) (replacement : Ty) :
    a.replaceName name replacement = a := by
  induction a with
  | ident y loc => rw [replaceName, if_neg (by simpa [mentionsName] using hname)]
  | hole | emptyRow => rfl
  | arrow a b iha ihb | app a b _ iha ihb | field _ a b iha ihb =>
    rw [mentionsName, Bool.or_eq_false_iff] at hname
    rw [replaceName, iha hname.1, ihb hname.2]
  | generic param a ih =>
    rw [replaceName]
    split
    · rfl
    · rename_i hparam
      rw [mentionsName, decide_eq_true hparam, Bool.true_and] at hname
      rw [ih hname]
  | record a label ih => rw [replaceName, ih hname]

/-- A name that is replaced need not be known. -/
theorem ClosedOver.replaceName {name : String} (hclosed : a.ClosedOver fun n => n = name ∨ known n)
    (hreplacement : b.ClosedOver known) : (a.replaceName name b).ClosedOver known := by
  induction a generalizing known with
  | ident n loc =>
    rw [replaceName]
    by_cases hname : n = name
    · rwa [if_pos hname]
    · rw [if_neg hname]
      exact closedOver_ident.mpr ((closedOver_ident.mp hclosed).resolve_left hname)
  | hole => exact closedOver_hole
  | emptyRow => exact closedOver_emptyRow
  | arrow a b iha ihb | app a b _ iha ihb | field _ a b iha ihb =>
    simp only [closedOver_arrow, closedOver_app, closedOver_field, replaceName] at hclosed ⊢
    exact ⟨iha hclosed.1 hreplacement, ihb hclosed.2 hreplacement⟩
  | generic param a ih =>
    simp only [closedOver_generic, replaceName] at hclosed ⊢
    by_cases hparam : param = name
    · -- the parameter hides the name, and nothing is replaced
      rw [if_pos hparam]
      refine hclosed.mono ?_
      rintro n (hn | hn | hn)
      · exact .inl hn
      · exact .inl (hn.trans hparam.symm)
      · exact .inr hn
    · rw [if_neg hparam]
      refine ih (hclosed.mono ?_) (hreplacement.mono fun _ => Or.inr)
      rintro n (hn | hn | hn)
      · exact .inr (.inl hn)
      · exact .inl hn
      · exact .inr (.inr hn)
  | record a label ih =>
    exact ih hclosed hreplacement

theorem ClosedOver.opened (hclosed : (generic param a).ClosedOver known)
    (hreplacement : b.ClosedOver known) : (a.replaceName param b).ClosedOver known :=
  (closedOver_generic.mp hclosed).replaceName hreplacement

theorem ClosedOver.functionTo (harg : a.ClosedOver known) (hret : b.ClosedOver known) :
    (a.functionTo b).ClosedOver known := by
  induction b generalizing known with
  | generic param inner ih =>
    simp only [closedOver_generic, functionTo] at hret ⊢
    exact ih (harg.mono fun _ => .inr) hret
  | _ => exact closedOver_arrow.mpr ⟨harg, hret⟩

end Ty

/-- Both sides of every constraint are closed. -/
def ConstraintsClosedOver (known : String → Prop) (constraints : List Constraint) : Prop :=
  ∀ c ∈ constraints, c.1.ClosedOver known ∧ c.2.ClosedOver known

section Constraints

variable {known : String → Prop} {c : Constraint} {constraints others : List Constraint} {ty : Ty}

@[simp]
theorem constraintsClosedOver_nil : ConstraintsClosedOver known [] := by
  simp [ConstraintsClosedOver]

@[simp]
theorem constraintsClosedOver_cons :
    ConstraintsClosedOver known (c :: constraints) ↔
      (c.1.ClosedOver known ∧ c.2.ClosedOver known) ∧
        ConstraintsClosedOver known constraints := by
  simp [ConstraintsClosedOver]

/-- Being closed does not depend on the placeholders that were handed out. -/
def TypeInvariant.closedOver (known : String → Prop) : TypeInvariant where
  OfType _ ty := ty.ClosedOver known
  start := 0
  mono hty _ := hty
  hole _ _ := closedOver_hole
  hole_of_mem _ _ := closedOver_hole
  bindHoles := ClosedOver.bindHoles
  opened := ClosedOver.opened

theorem Ty.ClosedOver.applying (hty : ty.ClosedOver known)
    (hclosed : ConstraintsClosedOver known constraints) :
    (ty.applying constraints).ClosedOver known := by
  have hconstraints : (TypeInvariant.closedOver known).OfConstraints 0 constraints := hclosed
  exact (TypeInvariant.closedOver known).applying hty hconstraints

end Constraints

/-- What the known names are declared as is closed too. -/
def Context.DeclaresClosed (known : String → Prop) (ctx : Context) : Prop :=
  ∀ name type, known name → ctx.alias? name = some type → type.ClosedOver known

namespace Context

variable {known : String → Prop} {ctx : Context} {loc : Option Loc}

variable (hctx : ctx.DeclaresClosed known)

include hctx

theorem DeclaresClosed.withTypeParameter (param : String) :
    (ctx.withTypeParameter param).DeclaresClosed fun name => name = param ∨ known name := by
  intro name type hname halias
  obtain ⟨hparam, halias⟩ := alias?_withTypeParameter halias
  exact (hctx name type (hname.resolve_left hparam) halias).mono fun _ => Or.inr

theorem closedOver_spreadRow {name : String} {nameLoc : Loc} {row : Ty} (hname : known name)
    (hrun : ctx.spreadRow name nameLoc loc = .ok row) : row.ClosedOver known := by
  unfold spreadRow at hrun
  split at hrun <;> cases hrun
  · exact closedOver_ident.mpr hname
  · rename_i hfind
    exact closedOver_record.mp (hctx name _ hname (alias?_of_find? hfind))

theorem closedOver_applyType {callee arg applied : Ty} {appLoc : Loc}
    (hcallee : callee.ClosedOver known) (harg : arg.ClosedOver known)
    (hrun : ctx.applyType callee arg appLoc loc = .ok applied) : applied.ClosedOver known := by
  obtain ⟨param, body, hopens, rfl⟩ | ⟨-, rfl⟩ := applyType_eq_ok hrun
  · obtain rfl | ⟨name, nameLoc, rfl, halias⟩ := opens?_eq_some hopens
    · exact hcallee.opened harg
    · exact (hctx name _ (closedOver_ident.mp hcallee) halias).opened harg
  · exact closedOver_app.mpr ⟨hcallee, harg⟩

theorem closedOver_normalize {ty normalized : Ty} (hty : ty.ClosedOver known)
    (hrun : ctx.normalize loc ty = .ok normalized) : normalized.ClosedOver known := by
  replace hrun := normalizes_of_ok hrun
  induction hrun generalizing known with
  | ident | hole | emptyRow => exact hty
  | arrow _ _ iha ihb =>
    rw [closedOver_arrow] at hty ⊢
    exact ⟨iha hctx hty.1, ihb hctx hty.2⟩
  | record _ _ ih =>
    exact ih hctx hty
  | spread _ _ hrow ih =>
    rw [closedOver_field] at hty ⊢
    exact ⟨ih hctx hty.1, closedOver_spreadRow hctx (closedOver_ident.mp hty.2) hrow⟩
  | field _ _ _ _ ihtype ihbase =>
    rw [closedOver_field] at hty ⊢
    exact ⟨ihtype hctx hty.1, ihbase hctx hty.2⟩
  | generic _ _ ih =>
    rw [closedOver_generic] at hty ⊢
    exact ih (hctx.withTypeParameter _) hty
  | app _ _ happly ihcallee iharg =>
    rw [closedOver_app] at hty
    exact closedOver_applyType hctx (ihcallee hctx hty.1) (iharg hctx hty.2) happly

end Context

namespace Solver

variable {known : String → Prop} {ctx : Context} {n m : Nat}

theorem Kept.closedOver (hctx : ctx.DeclaresClosed known) :
    Kept ctx fun _ ty => ty.ClosedOver known where
  mono hty _ := hty
  fresh _ := closedOver_hole
  arrow := closedOver_arrow.mp
  app := closedOver_app.mp
  field := closedOver_field
  record := closedOver_record.mp
  opened := ClosedOver.opened
  declared hty hname := hctx _ _ (closedOver_ident.mp hty) hname

/-- Solving closed equations gives closed types to placeholders. -/
theorem Solves.closedOver {pending solved answer : List Constraint}
    (hsolves : Solves ctx n pending solved m answer) (hctx : ctx.DeclaresClosed known)
    (hpending : ConstraintsClosedOver known pending)
    (hsolved : ConstraintsClosedOver known solved) : ConstraintsClosedOver known answer :=
  (Kept.closedOver hctx).solves (fun hty hu => hu.replaceHole hty) hsolves hpending hsolved

end Solver

end RowScript
