import Mathlib.Data.Set.Finite.Basic
import Mathlib.Logic.Relation
import RowScript.Proofs.NormalForms

/-!
# Names that are declared as names

A declaration may only use names that are bound already, or predefined ones. So following names ends
unless a predefined name leads back to itself through another name.
-/

namespace RowScript

open Context

open Relation (ReflTransGen TransGen)

namespace Solver

/-- The solver replaces one type by the other because it is a declared name. -/
def Unfolds (ctx : Context) (loc : Option Loc) (ty declared : Ty) : Prop :=
  unfolding? ctx loc ty = .ok (some declared)

/-- After finitely many replacements there is nothing left to replace. -/
def UnfoldingEnds (ctx : Context) (loc : Option Loc) (ty : Ty) : Prop :=
  ∃ last, ReflTransGen (Unfolds ctx loc) ty last ∧ ∀ next, ¬Unfolds ctx loc last next

variable {ctx : Context} {loc : Option Loc} {declared ty : Ty}

theorem unfolds_ident_iff {name : String} {nameLoc : Loc} :
    Unfolds ctx loc (.ident name nameLoc) declared ↔
      ctx.alias? name = some declared ∧ declared ≠ .ident name nameLoc := by
  unfold Unfolds unfolding? alias?
  simp only [Except.bind_eq_ok, declaredType]
  cases ctx.find? name with
  | none => simp [throw, throwThe, MonadExceptOf.throw]
  | some binding =>
    cases binding with
    | typeAlias type =>
      by_cases hself : type = .ident name nameLoc
      · simpa [hself, pure, Except.pure] using Eq.symm
      · have hne (hdeclared : type = declared) : declared ≠ .ident name nameLoc :=
          hdeclared ▸ hself
        simpa [hself, pure, Except.pure] using hne
    | typeParameter => simp [pure, Except.pure]
    | typed | defined => simp [throw, throwThe, MonadExceptOf.throw]

theorem exists_ident_of_unfolds (hunfolds : Unfolds ctx loc ty declared) :
    ∃ name nameLoc, ty = .ident name nameLoc := by
  obtain ⟨name, nameLoc, rfl, -⟩ := alias?_of_unfolding? hunfolds
  exact ⟨name, nameLoc, rfl⟩

theorem UnfoldingEnds.of_unfolds (hunfolds : Unfolds ctx loc ty declared)
    (hends : UnfoldingEnds ctx loc declared) : UnfoldingEnds ctx loc ty := by
  obtain ⟨last, hsteps, hlast⟩ := hends
  exact ⟨last, hsteps.head hunfolds, hlast⟩

end Solver

namespace Context

open Solver

variable {ctx : Context} {loc : Option Loc} {name other : String}

/-- A name is declared as another name. -/
def DeclaredAs (ctx : Context) (name other : String) : Prop :=
  name ≠ other ∧ ∃ loc, ctx.alias? name = some (.ident other loc)

/-- A name that is declared as itself is replaced once at most, so only steps from a name to
another one count. -/
theorem unfoldingEnds_iff_acc {nameLoc : Loc} :
    UnfoldingEnds ctx loc (.ident name nameLoc) ↔ Acc (Function.swap ctx.DeclaredAs) name := by
  constructor
  · rintro ⟨last, hsteps, hlast⟩
    generalize hty : Ty.ident name nameLoc = ty at hsteps
    induction hsteps using ReflTransGen.head_induction_on generalizing name nameLoc with
    | refl =>
      subst hty
      refine ⟨_, fun other hother => ?_⟩
      obtain ⟨hne, otherLoc, halias⟩ := hother
      have hself : Ty.ident other otherLoc ≠ .ident name nameLoc :=
        fun h => hne (Ty.ident.inj h).1.symm
      exact absurd (unfolds_ident_iff.mpr ⟨halias, hself⟩) (hlast _)
    | head hfirst _ ih =>
      subst hty
      refine ⟨_, fun other hother => ?_⟩
      obtain ⟨-, otherLoc, halias⟩ := hother
      have hdeclared := (unfolds_ident_iff.mp hfirst).1
      exact ih (Option.some.inj (halias.symm.trans hdeclared))
  · intro hacc
    induction hacc generalizing nameLoc with
    | intro name _ ih =>
      by_cases hstep : ∃ declared, Unfolds ctx loc (.ident name nameLoc) declared
      · obtain ⟨declared, hunfolds⟩ := hstep
        have halias := (unfolds_ident_iff.mp hunfolds).1
        refine .of_unfolds hunfolds ?_
        by_cases hname : ∃ other otherLoc, declared = .ident other otherLoc
        · obtain ⟨other, otherLoc, rfl⟩ := hname
          by_cases hself : name = other
          · subst hself
            refine ⟨_, .refl, fun next hnext => ?_⟩
            obtain ⟨hagain, hne⟩ := unfolds_ident_iff.mp hnext
            exact hne (Option.some.inj (hagain.symm.trans halias))
          · exact ih other ⟨hself, otherLoc, halias⟩
        · exact ⟨declared, .refl, fun next hnext => hname (exists_ident_of_unfolds hnext)⟩
      · exact ⟨_, .refl, not_exists.1 hstep⟩

/-- Every name is bound once, and a declared type only uses older names and predefined ones. -/
def DeclaresInOrder : Context → Prop
  | [] => True
  | entry :: older =>
    find? older entry.name = none ∧
      (∀ type nameLoc isGlobal, entry.binding = .typeAlias type nameLoc isGlobal →
        type.ClosedOver (Knows older)) ∧
      DeclaresInOrder older

theorem knows_cons {entry : Entry Binding} {older : Context} (hknows : older.Knows name) :
    Knows (entry :: older) name := by
  refine hknows.imp_right fun hbinds => ?_
  rw [binds, find?_cons]
  split
  · rfl
  · exact hbinds

theorem DeclaresInOrder.closedOver (hctx : ctx.DeclaresInOrder) {type : Ty}
    (halias : ctx.alias? name = some type) : type.ClosedOver ctx.Knows := by
  induction ctx with
  | nil => cases halias
  | cons entry older ih =>
    obtain ⟨-, htype, holder⟩ := hctx
    obtain ⟨_, _, hfind⟩ := exists_find?_of_alias? halias
    rw [find?_cons] at hfind
    split at hfind
    · exact (htype _ _ _ (Option.some.inj hfind)).mono fun _ => knows_cons
    · exact (ih holder (alias?_of_find? hfind)).mono fun _ => knows_cons

/-- How many entries there are from the binding of a name on. -/
def position : Context → String → Nat
  | [], _ => 0
  | entry :: older, name => if entry.name = name then older.length + 1 else position older name

theorem position_le_length (ctx : Context) (name : String) : ctx.position name ≤ ctx.length := by
  induction ctx with
  | nil => exact Nat.le_refl 0
  | cons entry older ih =>
    rw [position, List.length_cons]
    split
    · exact Nat.le_refl _
    · exact Nat.le_succ_of_le ih

section

variable (hctx : ctx.DeclaresInOrder)

include hctx

/-- A name is declared as a predefined name or as one that is bound before it. -/
theorem DeclaresInOrder.step (hstep : ctx.DeclaredAs name other) :
    other ∈ predefinedTypes ∨
      ctx.binds other ∧ ctx.position other < ctx.position name := by
  obtain ⟨hne, otherLoc, halias⟩ := hstep
  induction ctx with
  | nil => cases halias
  | cons entry older ih =>
    obtain ⟨hfresh, htype, holder⟩ := hctx
    refine or_iff_not_imp_left.2 fun hpredefined => ?_
    obtain ⟨nameLoc, isGlobal, hfind⟩ := exists_find?_of_alias? halias
    -- what is bound in the older entries has another name than the newest one
    have hother (hbinds : binds older other) : entry.name ≠ other := by
      rintro rfl
      rw [binds, hfresh] at hbinds
      cases hbinds
    rw [find?_cons] at hfind
    split at hfind
    · rename_i hname
      have hknows := htype _ _ _ (Option.some.inj hfind)
      rw [Ty.closedOver_ident] at hknows
      have hbinds : binds older other := hknows.resolve_left hpredefined
      refine ⟨(knows_cons (.inr hbinds)).resolve_left hpredefined, ?_⟩
      rw [position, position, if_neg (hother hbinds), if_pos hname.symm]
      exact Nat.lt_succ_of_le (position_le_length older other)
    · rename_i hname
      obtain ⟨hbinds, hlt⟩ := (ih holder (alias?_of_find? hfind)).resolve_left hpredefined
      refine ⟨(knows_cons (.inr hbinds)).resolve_left hpredefined, ?_⟩
      rwa [position, position, if_neg (hother hbinds), if_neg (Ne.symm hname)]

/-- A chain of names leads through a predefined name or to an older entry. -/
theorem DeclaresInOrder.chain (hchain : TransGen ctx.DeclaredAs name other) :
    (∃ p ∈ predefinedTypes, ReflTransGen ctx.DeclaredAs name p ∧
      ReflTransGen ctx.DeclaredAs p other) ∨ ctx.position other < ctx.position name := by
  induction hchain with
  | single hstep =>
    refine (hctx.step hstep).imp (fun hpredefined => ?_) And.right
    exact ⟨_, hpredefined, .single hstep, .refl⟩
  | tail hchain hstep ih =>
    obtain hpredefined | ⟨-, hlt⟩ := hctx.step hstep
    · exact .inl ⟨_, hpredefined, hchain.to_reflTransGen.tail hstep, .refl⟩
    · refine ih.imp (fun hmeets => ?_) hlt.trans
      obtain ⟨p, hp, hbefore, hafter⟩ := hmeets
      exact ⟨p, hp, hbefore, hafter.tail hstep⟩

/-- A cycle of names goes through a predefined name and another name. -/
theorem DeclaresInOrder.cycle (hcycle : TransGen ctx.DeclaredAs name name) :
    ∃ p ∈ predefinedTypes, ReflTransGen ctx.DeclaredAs name p ∧
      ∃ q, q ≠ p ∧ ReflTransGen ctx.DeclaredAs p q ∧ ReflTransGen ctx.DeclaredAs q p := by
  obtain ⟨p, hp, hbefore, hafter⟩ := (hctx.chain hcycle).resolve_right (Nat.lt_irrefl _)
  have hround : TransGen ctx.DeclaredAs p p := (hcycle.trans_right hafter).trans_left hbefore
  obtain ⟨q, hstep, hback⟩ := TransGen.head'_iff.mp hround
  exact ⟨p, hp, hbefore, q, hstep.1.symm, .single hstep, hback⟩

/-- Only finitely many names can be reached. -/
theorem DeclaresInOrder.mem_of_reaches (hreaches : ReflTransGen ctx.DeclaredAs name other) :
    other ∈ name :: (predefinedTypes ++ ctx.map (·.name)) := by
  cases hreaches with
  | refl => exact List.mem_cons_self
  | tail _ hstep =>
    refine List.mem_cons_of_mem _ (List.mem_append.2 ((hctx.step hstep).imp_right fun h => ?_))
    obtain ⟨binding, hfind⟩ := Option.isSome_iff_exists.1 h.1
    obtain ⟨entry, hentry, -⟩ := Option.map_eq_some_iff.1 hfind
    refine List.mem_map.2 ⟨entry, List.mem_of_find?_eq_some hentry, ?_⟩
    simpa using List.find?_some hentry

theorem DeclaresInOrder.acc_of_no_cycle
    (hcycle : ∀ other, ReflTransGen ctx.DeclaredAs name other →
      ¬TransGen ctx.DeclaredAs other other) : Acc (Function.swap ctx.DeclaredAs) name := by
  let Reached := { other // ReflTransGen ctx.DeclaredAs name other }
  let Below (a b : Reached) : Prop := TransGen ctx.DeclaredAs b.1 a.1
  have : Finite Reached := by
    have hnames := List.finite_toSet (name :: (predefinedTypes ++ ctx.map (·.name)))
    exact (hnames.subset fun other hother => hctx.mem_of_reaches hother).to_subtype
  have : IsTrans Reached Below := ⟨fun _ _ _ hab hbc => hbc.trans hab⟩
  have : Std.Irrefl Below := ⟨fun a => hcycle a.1 a.2⟩
  have hwf : WellFounded Below := Finite.wellFounded_of_trans_of_irrefl Below
  have hreached (a : Reached) : Acc (Function.swap ctx.DeclaredAs) a.1 := by
    induction a using hwf.induction with
    | _ a ih =>
      refine ⟨_, fun other hstep => ?_⟩
      exact ih ⟨other, a.2.tail hstep⟩ (.single hstep)
  exact hreached ⟨name, .refl⟩

end

theorem not_acc_of_cycle (hreaches : ReflTransGen ctx.DeclaredAs name other)
    (hcycle : TransGen ctx.DeclaredAs other other) : ¬Acc (Function.swap ctx.DeclaredAs) name := by
  intro hacc
  induction hacc generalizing other with
  | intro name _ ih =>
    have hround : TransGen ctx.DeclaredAs name other := hcycle.trans_right hreaches
    obtain ⟨next, hstep, hrest⟩ := TransGen.head'_iff.mp hround
    exact ih next hstep hrest hcycle

end Context

section Commands

variable {fuel : Nat} {ctx ctx' : Context} {checker final : Checker}

theorem checkCommand_inOrder {command : Command} (hctx : ctx.DeclaresInOrder)
    (hrun : checkCommand fuel ctx command checker = .ok ctx' final) : ctx'.DeclaresInOrder := by
  cases checkedCommand_of_ok hrun with
  | evaluate => exact hctx
  | bind hbinding hname =>
    refine ⟨hname, fun type nameLoc isGlobal hnew => ?_, hctx⟩
    cases checkedBinding_of_ok hbinding with
    | typeAlias htype =>
      cases hnew
      exact closedOver_normalize (fun _ _ _ => hctx.closedOver)
        (closedOver_of_normalize htype) htype
    | defined | typed | typeParameter => cases hnew

theorem checkCommands_inOrder {commands : List Command} (hctx : ctx.DeclaresInOrder)
    (hrun : checkCommands fuel ctx commands checker = .ok ctx' final) : ctx'.DeclaresInOrder :=
  checkCommands_induction (P := fun ctx _ => ctx.DeclaresInOrder)
    (fun _ _ _ _ _ _ hctx hfirst => checkCommand_inOrder hctx hfirst) hctx hrun

end Commands

/-- Which names can be replaced by their declared types only finitely often, for all commands
that are accepted from the beginning: all but those that lead to a predefined name from which
another name leads back to it. -/
theorem checkCommands_unfolding_ends_iff {fuel : Nat} {commands : List Command} {ctx : Context}
    {checker final : Checker} (hrun : checkCommands fuel [] commands checker = .ok ctx final)
    (loc : Option Loc) (name : String) (nameLoc : Loc) :
    Solver.UnfoldingEnds ctx loc (.ident name nameLoc) ↔
      ∀ p ∈ predefinedTypes, ReflTransGen ctx.DeclaredAs name p →
        ∀ q, q ≠ p → ReflTransGen ctx.DeclaredAs p q → ¬ReflTransGen ctx.DeclaredAs q p := by
  have hstart : Context.DeclaresInOrder [] := trivial
  have hctx : ctx.DeclaresInOrder := checkCommands_inOrder hstart hrun
  rw [unfoldingEnds_iff_acc]
  constructor
  · intro hacc p _ hreaches q hne hthere hback
    have hround : TransGen ctx.DeclaredAs p q :=
      (Relation.reflTransGen_iff_eq_or_transGen.mp hthere).resolve_left hne
    exact not_acc_of_cycle hreaches (hround.trans_left hback) hacc
  · intro hnone
    refine hctx.acc_of_no_cycle fun other hreaches hcycle => ?_
    obtain ⟨p, hp, hmeets, q, hne, hthere, hback⟩ := hctx.cycle hcycle
    exact hnone p hp (hreaches.trans hmeets) q hne hthere hback

/-- A declared number type and two more names for it, one for the other. -/
def countDeclarations : List Command :=
  [.bind "Number" (.typeAlias (.record .emptyRow (some "Number")) .synthetic true) .synthetic,
    .bind "Count" (.typeAlias (.named "Number") .synthetic false) .synthetic,
    .bind "Total" (.typeAlias (.named "Count") .synthetic false) .synthetic]

/-- What the declarations leave behind. -/
def countContext : Context :=
  [⟨2, "Total", .typeAlias (.named "Count") .synthetic false⟩,
    ⟨1, "Count", .typeAlias (.named "Number") .synthetic false⟩,
    ⟨0, "Number", .typeAlias (.record .emptyRow (some "Number")) .synthetic true⟩]

theorem checkCommands_unfolding_ends_iff_count :
    checkCommands 0 [] countDeclarations {} = .ok countContext { stamp := 3 } ∧
      (Solver.UnfoldingEnds countContext none (.named "Total") ↔
        ∀ p ∈ predefinedTypes, ReflTransGen countContext.DeclaredAs "Total" p →
          ∀ q, q ≠ p → ReflTransGen countContext.DeclaredAs p q →
            ¬ReflTransGen countContext.DeclaredAs q p) :=
  have hrun : checkCommands 0 [] countDeclarations {} = .ok countContext { stamp := 3 } := by rfl
  ⟨hrun, checkCommands_unfolding_ends_iff hrun none "Total" .synthetic⟩

/-- Two predefined names that are declared as each other. -/
def mutualDeclarations : List Command :=
  [.bind "String" (.typeAlias (.named "Number") .synthetic false) .synthetic,
    .bind "Number" (.typeAlias (.named "String") .synthetic false) .synthetic]

/-- Declarations can be accepted although a name leads back to itself. -/
theorem checkCommands_mutual_names :
    ∃ ctx final, checkCommands 0 [] mutualDeclarations {} = .ok ctx final ∧
      ¬Solver.UnfoldingEnds ctx none (.named "String") := by
  refine ⟨[⟨1, "Number", .typeAlias (.named "String") .synthetic false⟩,
    ⟨0, "String", .typeAlias (.named "Number") .synthetic false⟩], { stamp := 2 }, rfl, ?_⟩
  rw [Ty.named, unfoldingEnds_iff_acc]
  refine not_acc_of_cycle .refl (.tail (.single (b := "Number") ?_) ?_)
  · exact ⟨by decide, _, rfl⟩
  · exact ⟨by decide, _, rfl⟩

end RowScript
