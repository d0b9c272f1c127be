import RowScript.Generalization

/-!
# Names that are given in turn

Generalization names placeholders one at a time, each with the first free letter, which is a type
parameter in the context of the steps that follow. A whole pass gives the free letters in turn and
fails exactly when there are too few (`Minter.foldlM_mint`).
-/

namespace RowScript

open List Assignment

section

variable {ctx : Context} {taken : List String} {loc : Option Loc} {stamp : Nat} {name : String}
  {others : List String}

theorem freeTypeVariables_nodup (ctx : Context) (taken : List String) :
    (ctx.freeTypeVariables taken).Nodup :=
  Pairwise.filter _ (show typeVariableNames.Nodup by decide)

/-- A letter that is a type parameter is no longer free. -/
theorem freeTypeVariables_cons :
    Context.freeTypeVariables (⟨stamp, name, .typeParameter⟩ :: ctx) taken =
      (ctx.freeTypeVariables taken).filter (· ≠ name) := by
  rw [Context.freeTypeVariables, Context.freeTypeVariables, filter_filter]
  refine filter_congr fun other _ => ?_
  by_cases hother : name = other
  · simp [Context.hasTypeParameter, Context.find?, hother]
  · simp [Context.hasTypeParameter, Context.find?, hother, Ne.symm hother]

/-- When the first free letter is given, the others stay free. -/
theorem freeTypeVariables_extend (hfree : ctx.freeTypeVariables taken = name :: others) :
    Context.freeTypeVariables (⟨stamp, name, .typeParameter⟩ :: ctx) taken = others := by
  have hnodup := freeTypeVariables_nodup ctx taken
  rw [hfree, nodup_cons] at hnodup
  rw [freeTypeVariables_cons, hfree, filter_cons_of_neg (by simp), filter_eq_self]
  intro other hother
  simpa using ne_of_mem_of_not_mem hother hnodup.1

namespace Minter

variable {minter : Minter} {id : Nat} {ids : List Nat}

/-- A placeholder that has no name gets the first free letter. -/
theorem mint_eq_ok (hid : id ∉ minter.naming.map Prod.fst)
    (hfree : minter.ctx.freeTypeVariables taken = name :: others) :
    mint taken loc minter id stamp = .ok (⟨minter.naming ++ [(id, name)],
      ⟨stamp, name, .typeParameter⟩ :: minter.ctx⟩, stamp + 1) := by
  rw [mint, if_neg (by simpa using hid), Context.nextTypeVariable, hfree]
  rfl

theorem mint_eq_error (hid : id ∉ minter.naming.map Prod.fst)
    (hfree : minter.ctx.freeTypeVariables taken = []) :
    mint taken loc minter id stamp = .error ⟨.outOfTypeVariables, loc⟩ := by
  rw [mint, if_neg (by simpa using hid), Context.nextTypeVariable, hfree]
  rfl

/-- The placeholders that have no name yet, in the order in which they get one. -/
def unnamed (minter : Minter) (ids : List Nat) : List Nat :=
  (ids.removeAll (minter.naming.map Prod.fst)).eraseDups

theorem unnamed_cons_of_mem (hid : id ∈ minter.naming.map Prod.fst) :
    minter.unnamed (id :: ids) = minter.unnamed ids := by
  rw [unnamed, cons_removeAll, if_neg (by simpa using hid), unnamed]

theorem unnamed_cons_of_notMem (hid : id ∉ minter.naming.map Prod.fst) (name : String)
    (ctx : Context) : minter.unnamed (id :: ids) =
      id :: unnamed ⟨minter.naming ++ [(id, name)], ctx⟩ ids := by
  rw [unnamed, cons_removeAll, if_pos (by simpa using hid), eraseDups_cons, removeAll,
    filter_filter]
  refine congrArg (id :: eraseDups ·) (filter_congr fun other _ => ?_)
  rw [Bool.eq_iff_iff]
  simp [and_comm]

/-- The minter behind a pass that gave some names. -/
def giving (minter : Minter) (given : Naming) (stamp : Nat) : Minter × Nat :=
  (⟨minter.naming ++ given, (given.declare minter.ctx stamp).1⟩,
    (given.declare minter.ctx stamp).2)

/-- A pass gives the free letters in turn, and fails if there are too few. -/
theorem foldlM_mint (ids : List Nat) (minter : Minter) (stamp : Nat) :
    ids.foldlM (mint taken loc) minter stamp =
      if (minter.ctx.freeTypeVariables taken).length < (minter.unnamed ids).length then
        .error ⟨.outOfTypeVariables, loc⟩
      else .ok (minter.giving
        ((minter.unnamed ids).zip (minter.ctx.freeTypeVariables taken)) stamp) := by
  induction ids generalizing minter stamp with
  | nil =>
    have hnone : minter.unnamed [] = [] := rfl
    rw [hnone, zip_nil_left, giving, append_nil]
    rfl
  | cons id ids ih =>
    rw [foldlM_cons]
    change (mint taken loc minter id stamp >>= fun next =>
      ids.foldlM (mint taken loc) next.1 next.2) = _
    by_cases hid : id ∈ minter.naming.map Prod.fst
    · rw [mint, if_pos (by simpa using hid), unnamed_cons_of_mem hid, ← ih]
      rfl
    · cases hfree : minter.ctx.freeTypeVariables taken with
      | nil =>
        rw [mint_eq_error hid hfree, unnamed_cons_of_notMem hid "" [], if_pos (by simp)]
        rfl
      | cons name others =>
        rw [mint_eq_ok hid hfree]
        refine (ih ..).trans ?_
        rw [freeTypeVariables_extend hfree, unnamed_cons_of_notMem hid]
        simp only [length_cons, Nat.add_lt_add_iff_right, zip_cons_cons, giving, append_assoc]
        rfl

end Minter

theorem zip_append_eq (mine more : List Nat) (letters : List String) :
    (mine ++ more).zip letters = mine.zip letters ++ more.zip (letters.drop mine.length) := by
  induction mine generalizing letters with
  | nil => rfl
  | cons id mine ih =>
    cases letters with
    | nil => simp
    | cons letter letters => simp [ih]

/-- The closed form of a naming pass: the placeholders of some types get the free letters
in turn, in the order of their first occurrence. -/
def Naming.ofTypes (types : List Ty) (free : List String) (loc : Option Loc) :
    Except Fault Naming :=
  let ids := (types.flatMap Ty.holes).eraseDups
  if free.length < ids.length then throw ⟨.outOfTypeVariables, loc⟩ else pure (ids.zip free)

/-- Some names are declared, the types of the context get their names, and the other
names are declared. -/
def Naming.nameContext (own others naming : Naming) (assignment : Assignment) (ctx : Context) :
    Stamped Context := do
  let ctx ← own.declare ctx
  let ctx ← ctx.mapTypes (naming.rename? assignment)
  others.declare ctx

/-- What generalization does once the open placeholders have their names. -/
def Naming.close (names : Naming) (assigned : Assignment) (resolved : Ty) (ctx : Context)
    (stamp : Nat) : Generalized × Nat :=
  let own := names.filter fun given => resolved.occurs given.1
  let others := names.filter fun given => !resolved.occurs given.1
  let named := nameContext own others names assigned ctx stamp
  (⟨(resolved.withNames names).quantify own, named.1, names⟩, named.2)

/-- The placeholders of a type get their names before those that only its context has. -/
theorem filter_zip_eraseDups (ty : Ty) (ids : List Nat) (letters : List String) :
    (((ty.holes ++ ids).eraseDups.zip letters).filter fun given => ty.occurs given.1) =
        ty.holes.eraseDups.zip letters ∧
      (((ty.holes ++ ids).eraseDups.zip letters).filter fun given => !ty.occurs given.1) =
        ((ty.holes ++ ids).eraseDups.zip letters).drop
          (ty.holes.eraseDups.zip letters).length := by
  have hmine : ∀ given ∈ ty.holes.eraseDups.zip letters, ty.occurs given.1 := by
    intro given hgiven
    simpa [Ty.occurs] using mem_eraseDups.mp (of_mem_zip hgiven).1
  have hmore : ∀ given ∈ (ids.removeAll ty.holes).eraseDups.zip
      (letters.drop ty.holes.eraseDups.length), ty.occurs given.1 = false := by
    intro given hgiven
    have hid := mem_eraseDups.mp (of_mem_zip hgiven).1
    rw [removeAll, mem_filter] at hid
    simpa [Ty.occurs] using hid.2
  rw [eraseDups_append, zip_append_eq, filter_append, filter_append, drop_left,
    filter_eq_self.mpr hmine, filter_eq_nil_iff.mpr (by simpa using hmore),
    filter_eq_nil_iff.mpr (by simpa using hmine), filter_eq_self.mpr (by simpa using hmore)]
  exact ⟨append_nil _, rfl⟩

theorem Minter.mintTypes_append {minter : Minter} (first second : List Ty) :
    minter.mintTypes taken loc (first ++ second) stamp =
      minter.mintTypes taken loc first stamp >>= fun own =>
        own.1.mintTypes taken loc second own.2 := by
  rw [mintTypes, flatMap_append, foldlM_append]
  rfl

/-- A whole pass gives the names of the closed form. -/
theorem Minter.mintTypes_eq (types : List Ty) :
    mintTypes taken loc ⟨[], ctx⟩ types stamp =
      Naming.ofTypes types (ctx.freeTypeVariables taken) loc >>= fun given =>
        .ok (giving ⟨[], ctx⟩ given stamp) := by
  have hnew : unnamed ⟨[], ctx⟩ (types.flatMap Ty.holes) = (types.flatMap Ty.holes).eraseDups :=
    congrArg eraseDups (filter_eq_self.mpr fun _ _ => rfl)
  rw [mintTypes, foldlM_mint, hnew, Naming.ofTypes]
  split
  · rfl
  · rfl

theorem Naming.eq_of_ofTypes_eq_ok {types : List Ty} {free : List String} {naming : Naming}
    (hrun : ofTypes types free loc = .ok naming) :
    naming = (types.flatMap Ty.holes).eraseDups.zip free := by
  rw [ofTypes] at hrun
  split at hrun
  · cases hrun
  · exact (Except.ok.inj hrun).symm

variable {solved : List Constraint} {ty : Ty}

/-- Generalization in closed form: all names are given first. -/
theorem generalize_eq_bind : generalize solved ty ctx loc stamp =
    (Naming.ofTypes ((ofConstraints solved).resolve ty ::
        ctx.reachableTypes.map (ofConstraints solved).resolve)
      (ctx.freeTypeVariables ((ofConstraints solved).resolve ty).names) loc >>=
      fun names => .ok (names.close (ofConstraints solved)
        ((ofConstraints solved).resolve ty) ctx stamp)) := by
  rw [generalize]
  generalize ofConstraints solved = assigned
  generalize assigned.resolve ty = resolved
  generalize ctx.reachableTypes.map assigned.resolve = types
  -- the two passes together are one pass over all types
  have hpass : Minter.mintTypes resolved.names loc ⟨[], ctx⟩ (resolved :: types) stamp = _ :=
    Minter.mintTypes_append [resolved] types
  rw [Minter.mintTypes_eq, Minter.mintTypes_eq] at hpass
  rw [Minter.mintTypes_eq]
  cases hown : Naming.ofTypes [resolved] (ctx.freeTypeVariables resolved.names) loc with
  | error fault =>
    rw [hown] at hpass
    cases hall : Naming.ofTypes (resolved :: types) (ctx.freeTypeVariables resolved.names) loc with
    | error fault' =>
      rw [hall] at hpass
      cases hpass
      rfl
    | ok names =>
      rw [hall] at hpass
      cases hpass
  | ok own =>
    rw [hown] at hpass
    have hrest : Minter.mintTypes resolved.names loc ⟨own, (own.declare ctx stamp).1⟩ types
        (own.declare ctx stamp).2 = _ := hpass.symm
    change (Minter.mintTypes resolved.names loc ⟨own, (own.declare ctx stamp).1⟩ types
      (own.declare ctx stamp).2 >>= _) = _
    rw [hrest]
    cases hall : Naming.ofTypes (resolved :: types) (ctx.freeTypeVariables resolved.names) loc with
    | error fault' => rfl
    | ok names =>
      obtain rfl := Naming.eq_of_ofTypes_eq_ok hown
      obtain rfl := Naming.eq_of_ofTypes_eq_ok hall
      obtain ⟨hmine, hmore⟩ := filter_zip_eraseDups resolved (types.flatMap Ty.holes)
        (ctx.freeTypeVariables resolved.names)
      change _ = Except.ok _
      rw [flatMap_cons, Naming.close, hmine, hmore, flatMap_singleton]
      rfl

theorem generalize_eq_error {found : Fault}
    (hrun : generalize solved ty ctx loc stamp = .error found) :
    found = ⟨.outOfTypeVariables, loc⟩ := by
  rw [generalize_eq_bind, Naming.ofTypes] at hrun
  split at hrun
  · cases hrun
    rfl
  · cases hrun

end

end RowScript
