import Mathlib.Data.Set.Card
import RowScript.Proofs.AlikeAnswers
import RowScript.Proofs.Renumbering

/-!
# Names for what is left open

Generalization gives a letter of its own to every placeholder that solving leaves open, and fails
exactly when there are more placeholders than letters.
-/

namespace RowScript

open List

namespace Context

variable {ctx : Context} {ty : Ty}

/-- The chains of entries that a pass over a context comes to. -/
inductive Visits : Context → Context → Prop where
  | here (ctx : Context) : Visits ctx ctx
  | inner {entry : Entry Binding} {older inner chain : Context}
      (hlocal : entry.binding.isGlobal = false) (hinner : entry.binding.inner? = some inner)
      (hvisits : Visits inner chain) : Visits (entry :: older) chain
  | older {entry : Entry Binding} {older chain : Context} (hvisits : Visits older chain) :
      Visits (entry :: older) chain

/-- Two entries with one stamp are the same entry, and so are all entries behind them. -/
def StampsIdentify (ctx : Context) : Prop :=
  ∀ entry older entry' older', ctx.Visits (entry :: older) → ctx.Visits (entry' :: older') →
    entry.stamp = entry'.stamp → entry :: older = entry' :: older'

theorem Visits.trans {middle chain : Context} (hfirst : ctx.Visits middle)
    (hsecond : middle.Visits chain) : ctx.Visits chain := by
  induction hfirst with
  | here => exact hsecond
  | inner hlocal hinner _ ih => exact .inner hlocal hinner (ih hsecond)
  | older _ ih => exact .older (ih hsecond)

theorem StampsIdentify.collectable (hstamps : ctx.StampsIdentify) (ok : Ty → Prop) :
    Collectable ctx.Visits ok where
  older hchain := hchain.trans (.older (.here _))
  inner hchain hlocal hinner := hchain.trans (.inner hlocal hinner (.here _))
  again hchain hchain' hstamp hmeets ty hmeets' :=
    hmeets ty (hstamps _ _ _ _ hchain' hchain hstamp ▸ hmeets')

/-- A pass finds all types of a context whose stamps tell its entries apart. -/
theorem StampsIdentify.mem_reachableTypes (hstamps : ctx.StampsIdentify) :
    ty ∈ ctx.reachableTypes ↔ Meets ctx ty :=
  ⟨meets_of_mem_chainTypes ctx [],
    (hstamps.collectable (· ∈ ctx.reachableTypes)).of_reachableTypes (.here ctx)
      (fun _ hfound => hfound) ty⟩

end Context

/-- Puts the placeholders back in the place of their names. -/
def Ty.withoutNames (naming : Naming) (ty : Ty) : Ty :=
  naming.foldl (fun ty named => ty.replaceName named.2 (.hole named.1)) ty

/-- The names can be told apart from each other and from the names of a type, and so can the
placeholders that they stand for. -/
structure Naming.Distinct (naming : Naming) (ty : Ty) : Prop where
  ids : (naming.map Prod.fst).Nodup
  names : (naming.map Prod.snd).Nodup
  fresh : ∀ name ∈ naming.map Prod.snd, name ∉ ty.names

section Naming

variable {naming : Naming} {ty a b : Ty} {id : Nat} {name : String}

theorem Naming.lookup_eq_none (hid : id ∉ naming.map Prod.fst) : naming.lookup id = none := by
  refine lookup_eq_none_iff.mpr fun named hnamed => ?_
  rw [bne_iff_ne]
  rintro rfl
  exact hid (mem_map_of_mem hnamed)

theorem Naming.mem_of_lookup (hname : naming.lookup id = some name) :
    name ∈ naming.map Prod.snd := by
  obtain ⟨newer, older, rfl, -⟩ := lookup_eq_some_iff.mp hname
  simp

/-- Putting the first placeholder back leaves the other names. -/
theorem Ty.replaceName_withNames (hid : id ∉ naming.map Prod.fst)
    (hname : name ∉ naming.map Prod.snd) (hfresh : name ∉ ty.names) :
    (ty.withNames ((id, name) :: naming)).replaceName name (.hole id) = ty.withNames naming := by
  unfold Ty.withNames
  induction ty with
  | ident n loc =>
    have hne : n ≠ name := by simpa [names, eq_comm] using hfresh
    simp only [bindHoles, replaceName, if_neg hne]
  | hole i =>
    simp only [bindHoles, lookup_cons]
    by_cases hi : i = id
    · subst hi
      rw [Naming.lookup_eq_none hid]
      simp [named, replaceName]
    · rw [beq_false_of_ne hi]
      cases hlookup : naming.lookup i with
      | none => rfl
      | some other =>
        have hne : other ≠ name := fun h => hname (h ▸ Naming.mem_of_lookup hlookup)
        simp only [named, replaceName, if_neg hne]
  | arrow a b iha ihb | app a b _ iha ihb | field _ a b iha ihb =>
    simp only [names, mem_append, not_or] at hfresh
    simp only [bindHoles, replaceName, iha hfresh.1, ihb hfresh.2]
  | generic param a ih =>
    simp only [names, mem_cons, not_or] at hfresh
    simp only [bindHoles, replaceName, if_neg (Ne.symm hfresh.1), ih hfresh.2]
  | record a label ih => simp only [bindHoles, replaceName, ih hfresh]
  | emptyRow => rfl

/-- Names that can be told apart can be taken back. -/
theorem Ty.withoutNames_withNames (hdistinct : naming.Distinct ty) :
    (ty.withNames naming).withoutNames naming = ty := by
  induction naming with
  | nil =>
    exact Ty.bindHoles_hole ty
  | cons first rest ih =>
    obtain ⟨hids, hnames, hfresh⟩ := hdistinct
    simp only [map_cons, nodup_cons, forall_mem_cons] at hids hnames hfresh
    have hfirst : (ty.withNames (first :: rest)).replaceName first.2 (.hole first.1) =
        ty.withNames rest := Ty.replaceName_withNames hids.1 hnames.1 hfresh.1
    calc
      _ = ((ty.withNames (first :: rest)).replaceName first.2 (.hole first.1)).withoutNames rest :=
        rfl
      _ = (ty.withNames rest).withoutNames rest := by rw [hfirst]
      _ = ty := ih ⟨hids.2, hnames.2, hfresh.2⟩

end Naming

section Ids

variable {ids more : List Nat} {letters : List String}

theorem nodup_eraseDups (ids : List Nat) : ids.eraseDups.Nodup := by
  induction hlength : ids.length using Nat.strongRecOn generalizing ids with
  | ind n ih =>
    cases ids with
    | nil => exact nodup_nil
    | cons id rest =>
      rw [eraseDups_cons, nodup_cons]
      refine ⟨?_, ih _ ?_ _ rfl⟩
      · simp [mem_eraseDups]
      · rw [← hlength, length_cons]
        exact Nat.lt_succ_of_le (length_filter_le _ _)

theorem map_snd_zip_sublist (ids : List Nat) (letters : List String) :
    ((ids.zip letters).map Prod.snd).Sublist letters := by
  induction ids generalizing letters with
  | nil => exact nil_sublist _
  | cons id rest ih =>
    cases letters with
    | nil => exact Sublist.refl _
    | cons letter letters => exact (ih letters).cons_cons letter

/-- A set that a list without repetitions enumerates has as many elements as the list. -/
theorem ncard_eq_length {α : Type} [DecidableEq α] {elements : List α} {set : Set α}
    (hnodup : elements.Nodup) (hset : ∀ x, x ∈ set ↔ x ∈ elements) :
    set.ncard = elements.length := by
  have heq : set = (elements.toFinset : Set α) := by
    ext x
    simp [hset]
  rw [heq, Set.ncard_coe_finset, toFinset_card_of_nodup hnodup]

end Ids

section Generalize

variable {solved : List Constraint} {ty : Ty} {ctx : Context} {loc : Option Loc}
  {stamp stamp' : Nat} {result : Generalized}

/-- The placeholders that solved constraints leave open, in a type or in the types of the local
bindings of a context. -/
def leftOpen (solved : List Constraint) (ty : Ty) (ctx : Context) : Set Nat :=
  { id | id ∈ (ty.applying solved).holes ∨
    ∃ found, ctx.Meets found ∧ id ∈ (found.applying solved).holes }

/-- The letters that a type does not mention and that are no type parameters in a context. -/
def spareLetters (ty : Ty) (ctx : Context) : Set String :=
  { letter | letter ∈ typeVariableNames ∧ letter ∉ ty.names ∧
    ctx.find? letter ≠ some .typeParameter }

/-- The placeholders that get names, in the order in which they get them. -/
def leftovers (solved : List Constraint) (ty : Ty) (ctx : Context) : List Nat :=
  (((ty.applying solved) :: ctx.reachableTypes.map (·.applying solved)).flatMap Ty.holes).eraseDups

theorem mem_leftovers (hstamps : ctx.StampsIdentify) {id : Nat} :
    id ∈ leftovers solved ty ctx ↔ id ∈ leftOpen solved ty ctx := by
  simp only [leftovers, mem_eraseDups, mem_flatMap, mem_cons, mem_map,
    leftOpen, Set.mem_ofPred_eq, hstamps.mem_reachableTypes]
  grind

theorem ncard_leftOpen (hstamps : ctx.StampsIdentify) :
    (leftOpen solved ty ctx).ncard = (leftovers solved ty ctx).length :=
  ncard_eq_length (nodup_eraseDups _) fun _ => (mem_leftovers hstamps).symm

theorem mem_freeTypeVariables_iff {taken : Ty} {letter : String} :
    letter ∈ ctx.freeTypeVariables taken.names ↔ letter ∈ spareLetters taken ctx := by
  rw [Context.freeTypeVariables, mem_filter, Bool.and_eq_true]
  refine and_congr_right fun _ => and_congr (by simp) ?_
  rw [Context.hasTypeParameter]
  split <;> simp_all

theorem ncard_spareLetters :
    (spareLetters ty ctx).ncard = (ctx.freeTypeVariables ty.names).length :=
  ncard_eq_length (freeTypeVariables_nodup ctx _) fun _ => mem_freeTypeVariables_iff.symm

/-- Generalization fails if there are too few letters. Otherwise the placeholders get letters in
turn, and those of the type become its parameters. -/
theorem generalize_eq (solved : List Constraint) (ty : Ty) (ctx : Context) (loc : Option Loc)
    (stamp : Nat) :
    let letters := ctx.freeTypeVariables (ty.applying solved).names
    let naming : Naming := (leftovers solved ty ctx).zip letters
    generalize solved ty ctx loc stamp =
      if letters.length < (leftovers solved ty ctx).length then
        .error ⟨.outOfTypeVariables, loc⟩
      else .ok (naming.close (Assignment.ofConstraints solved) (ty.applying solved) ctx stamp) := by
  intro letters naming
  rw [generalize_eq_bind, Naming.ofTypes]
  split
  · rename_i hshort
    exact (if_pos hshort).symm
  · rename_i henough
    exact (if_neg henough).symm

/-- The letters that are given out are distinct and new to the type. -/
theorem distinct_leftovers (solved : List Constraint) (ty : Ty) (ctx : Context)
    (hlength : (leftovers solved ty ctx).length ≤
      (ctx.freeTypeVariables (ty.applying solved).names).length) :
    Naming.Distinct ((leftovers solved ty ctx).zip
      (ctx.freeTypeVariables (ty.applying solved).names)) (ty.applying solved) where
  ids := by
    rw [map_fst_zip hlength]
    exact nodup_eraseDups _
  names := (freeTypeVariables_nodup ctx _).sublist (map_snd_zip_sublist _ _)
  fresh name hname := (mem_freeTypeVariables ((map_snd_zip_sublist _ _).subset hname)).2

end Generalize

/-- Generalization names what is left open, one to one, and fails exactly when the letters run
out. The letters are those that neither occur in the type nor are type parameters in scope. The
type has one quantifier for each of its own placeholders, the first one innermost, around a
type without placeholders, which is the type that was generalized when the placeholders are put
back. -/
theorem generalize_names_leftovers {ctx : Context} (hstamps : ctx.StampsIdentify)
    (solved : List Constraint) (ty : Ty) (loc : Option Loc) (stamp : Nat) :
    (generalize solved ty ctx loc stamp = .error ⟨.outOfTypeVariables, loc⟩ ↔
      (spareLetters (ty.applying solved) ctx).ncard < (leftOpen solved ty ctx).ncard) ∧
    ((leftOpen solved ty ctx).ncard ≤ (spareLetters (ty.applying solved) ctx).ncard →
      ∃ result next, generalize solved ty ctx loc stamp = .ok (result, next) ∧
        (result.naming.map Prod.fst).Nodup ∧ (result.naming.map Prod.snd).Nodup ∧
        (∀ id, id ∈ result.naming.map Prod.fst ↔ id ∈ leftOpen solved ty ctx) ∧
        (∀ name ∈ result.naming.map Prod.snd, name ∈ spareLetters (ty.applying solved) ctx) ∧
        ∃ (own : Naming) (body : Ty), (∀ named ∈ own, named ∈ result.naming) ∧
          own.map Prod.fst = (ty.applying solved).holes.eraseDups ∧
          result.type = body.quantify own ∧ body.holes = [] ∧
          body.withoutNames result.naming = ty.applying solved) := by
  rw [ncard_leftOpen hstamps, ncard_spareLetters, generalize_eq]
  constructor
  · split
    · simpa
    · rename_i henough
      simpa using henough
  · intro hlength
    have hdistinct := distinct_leftovers solved ty ctx hlength
    have hids := map_fst_zip hlength
    rw [if_neg (Nat.not_lt_of_le hlength)]
    refine ⟨_, _, rfl, hdistinct.ids, hdistinct.names, fun id => ?_, fun name hname => ?_,
      _, _, fun named hnamed => mem_of_mem_filter hnamed, ?_, rfl, ?_,
      Ty.withoutNames_withNames hdistinct⟩
    · refine Iff.trans ?_ (mem_leftovers hstamps)
      show id ∈ map Prod.fst (zip _ _) ↔ _
      rw [hids]
    · exact mem_freeTypeVariables_iff.mp ((map_snd_zip_sublist _ _).subset hname)
    · rw [leftovers, flatMap_cons] at hlength ⊢
      rw [(filter_zip_eraseDups ..).1, map_fst_zip]
      rw [eraseDups_append, length_append] at hlength
      omega
    · have hnaming : Naming.ofTypes
          (ty.applying solved :: ctx.reachableTypes.map (·.applying solved))
          (ctx.freeTypeVariables (ty.applying solved).names) loc = .ok _ :=
        if_neg (Nat.not_lt_of_le hlength)
      exact Ty.holes_withNames fun id hid =>
        Naming.exists_name_of_ofTypes hnaming mem_cons_self hid

/-- A parameter, and a value in whose context it is seen again. -/
def sharedContext : Context :=
  [⟨2, "pair", .defined (.number .synthetic) (some (.arrow (.hole 3) (.hole 4))) .synthetic
    (some [⟨1, "x", .typed (.hole 3) .synthetic false⟩]) false⟩,
    ⟨1, "x", .typed (.hole 3) .synthetic false⟩]

/-- The placeholders of the shared parameter count once, and three of them get letters. -/
theorem generalize_names_leftovers_shared :
    sharedContext.StampsIdentify ∧
      (generalize [] (.arrow (.hole 3) (.hole 1)) sharedContext none 3 =
          .error ⟨.outOfTypeVariables, none⟩ ↔
        (spareLetters (Ty.applying [] (.arrow (.hole 3) (.hole 1))) sharedContext).ncard <
          (leftOpen [] (.arrow (.hole 3) (.hole 1)) sharedContext).ncard) ∧
      (leftOpen [] (.arrow (.hole 3) (.hole 1)) sharedContext).ncard = 3 ∧
      ∃ result next, generalize [] (.arrow (.hole 3) (.hole 1)) sharedContext none 3 =
          .ok (result, next) ∧ (result.naming.map Prod.snd).Nodup ∧
        ∃ (own : Naming) (body : Ty), own.map Prod.fst = [3, 1] ∧
          result.type = body.quantify own ∧ body.holes = [] ∧
          body.withoutNames result.naming = .arrow (.hole 3) (.hole 1) := by
  have hstamps : sharedContext.StampsIdentify := by
    have hparameter : ∀ {chain},
        Context.Visits [⟨1, "x", .typed (.hole 3) .synthetic false⟩] chain →
        chain = [⟨1, "x", .typed (.hole 3) .synthetic false⟩] ∨ chain = [] := by
      rintro chain (_ | ⟨_, hinner, _⟩ | ⟨⟨⟩⟩)
      · exact .inl rfl
      · cases hinner
      · exact .inr rfl
    have hchains : ∀ {chain}, sharedContext.Visits chain → chain = sharedContext ∨
        chain = [⟨1, "x", .typed (.hole 3) .synthetic false⟩] ∨ chain = [] := by
      rintro chain (_ | ⟨_, hinner, hvisits⟩ | hvisits)
      · exact .inl rfl
      · cases hinner
        exact .inr (hparameter hvisits)
      · exact .inr (hparameter hvisits)
    intro entry older entry' older' hchain hchain' hstamp
    obtain heq | heq | heq := hchains hchain <;> obtain heq' | heq' | heq' := hchains hchain' <;>
      cases heq <;> cases heq'
    · rfl
    · cases hstamp
    · cases hstamp
    · rfl
  obtain ⟨hfails, hnames⟩ :=
    generalize_names_leftovers hstamps [] (.arrow (.hole 3) (.hole 1)) none 3
  have hcount : (leftOpen [] (.arrow (.hole 3) (.hole 1)) sharedContext).ncard = 3 := by
    rw [ncard_leftOpen hstamps]
    decide
  rw [hcount, ncard_spareLetters] at hnames
  obtain ⟨result, next, hrun, -, hdistinct, -, -, own, body, -, hown, htype, hbody, hback⟩ :=
    hnames (by decide)
  exact ⟨hstamps, hfails, hcount, result, next, hrun, hdistinct, own, body, hown, htype, hbody,
    hback⟩

end RowScript
