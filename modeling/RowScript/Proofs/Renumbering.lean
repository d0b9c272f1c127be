import RowScript.Proofs.SettledCommands

/-!
# Renumbered placeholders

A renumbering moves the numbers of all placeholders up by a constant. It may also give a type to
defined values that have none, which passes over a context do not notice.
-/

namespace RowScript

open Context Ty Assignment Naming List

section

variable {solved : List Constraint} {type : Ty} {ctx : Context} {loc : Option Loc} {stamp : Nat}

/-- The type that comes out of generalization has no placeholders. -/
theorem holes_generalize {result : Generalized} {stamp' : Nat}
    (hrun : generalize solved type ctx loc stamp = .ok (result, stamp')) :
    result.type.holes = [] := by
  obtain ⟨own, others, hnaming, htype, -⟩ := generalize_eq_ok hrun
  rw [htype, holes_quantify]
  exact holes_withNames fun id hid =>
    exists_name_of_ofTypes hnaming mem_cons_self hid

theorem Assignment.resolve_of_holes_eq_nil {assigned : Assignment} (hclosed : type.holes = []) :
    assigned.resolve type = type := by
  rw [resolve_eq_bindHoles, bindHoles_of_holes_eq_nil hclosed]

end

/-- What turns one run into another: the placeholders move up by `shift`, and a defined
value that has no type gets the type `fill`, if there is one. -/
structure Renumbering where
  shift : Nat
  fill : Option Ty
  holes_fill : ∀ ty ∈ fill, ty.holes = []

namespace Renumbering

variable (ρ : Renumbering)

/-- A type with renumbered placeholders. -/
def ty (type : Ty) : Ty := type.bindHoles fun id => .hole (id + ρ.shift)

section Types

variable {a b type replacement : Ty} {id : Nat} {name key : String}

@[simp] theorem ty_ident (loc : Loc) : ρ.ty (.ident name loc) = .ident name loc := rfl

@[simp] theorem ty_hole : ρ.ty (.hole id) = .hole (id + ρ.shift) := rfl

@[simp] theorem ty_arrow : ρ.ty (.arrow a b) = .arrow (ρ.ty a) (ρ.ty b) := rfl

@[simp] theorem ty_generic : ρ.ty (.generic name a) = .generic name (ρ.ty a) := rfl

@[simp] theorem ty_app (loc : Loc) : ρ.ty (.app a b loc) = .app (ρ.ty a) (ρ.ty b) loc := rfl

@[simp] theorem ty_record (label : Option String) :
    ρ.ty (.record a label) = .record (ρ.ty a) label := rfl

@[simp] theorem ty_emptyRow : ρ.ty .emptyRow = .emptyRow := rfl

@[simp] theorem ty_field : ρ.ty (.field key a b) = .field key (ρ.ty a) (ρ.ty b) := rfl

@[simp] theorem ty_named : ρ.ty (.named name) = .named name := rfl

theorem ty_of_holes_eq_nil (hclosed : type.holes = []) : ρ.ty type = type :=
  bindHoles_of_holes_eq_nil hclosed _

theorem holes_ty : (ρ.ty type).holes = type.holes.map (· + ρ.shift) := by
  induction type with
  | ident | hole | emptyRow => rfl
  | arrow a b iha ihb | app a b _ iha ihb | field _ a b iha ihb =>
    simp [holes, iha, ihb]
  | generic _ a ih | record a _ ih => simpa [holes] using ih

@[simp]
theorem isEmpty_holes_ty : (ρ.ty type).holes.isEmpty = type.holes.isEmpty := by
  rw [holes_ty]
  cases type.holes with
  | nil => rfl
  | cons => rfl

@[simp]
theorem occurs_ty : (ρ.ty type).occurs (id + ρ.shift) = type.occurs id := by
  rw [Bool.eq_iff_iff, mem_holes_of_occurs, mem_holes_of_occurs, holes_ty]
  simp

theorem ty_injective : Function.Injective ρ.ty := by
  intro a b hab
  -- moving the placeholders down again gives the type back
  have hback : ∀ type : Ty, (ρ.ty type).bindHoles (fun id => .hole (id - ρ.shift)) = type := by
    intro type
    rw [ty, bindHoles_bindHoles]
    simp [bindHoles]
  rw [← hback a, hab, hback b]

@[simp] theorem ty_inj : ρ.ty a = ρ.ty b ↔ a = b := ρ.ty_injective.eq_iff

@[simp]
theorem ty_eq_hole : ρ.ty a = .hole (id + ρ.shift) ↔ a = .hole id := by
  rw [← ρ.ty_hole, ty_inj]

/-- A substitution of renumbered placeholders by renumbered types. -/
theorem bindHoles_ty {f g : Nat → Ty} (hsame : ∀ i ∈ type.holes, g (i + ρ.shift) = ρ.ty (f i)) :
    (ρ.ty type).bindHoles g = ρ.ty (type.bindHoles f) := by
  rw [ty, ty, bindHoles_bindHoles, bindHoles_bindHoles]
  exact bindHoles_congr hsame

@[simp]
theorem replaceHole_ty :
    (ρ.ty type).replaceHole (id + ρ.shift) (ρ.ty replacement) =
      ρ.ty (type.replaceHole id replacement) := by
  refine ρ.bindHoles_ty fun i _ => ?_
  by_cases hi : i = id
  · simp [hi]
  · simp [hi]

@[simp]
theorem replaceName_ty :
    (ρ.ty type).replaceName name (ρ.ty replacement) = ρ.ty (type.replaceName name replacement) := by
  induction type with
  | ident n loc => simp only [ty_ident, replaceName, apply_ite ρ.ty]
  | hole | emptyRow => rfl
  | arrow a b iha ihb | app a b _ iha ihb | field _ a b iha ihb =>
    simp [replaceName, iha, ihb]
  | generic param a ih => simp only [ty_generic, replaceName, ih, apply_ite ρ.ty]
  | record a _ ih => simp [replaceName, ih]

@[simp]
theorem names_ty : (ρ.ty type).names = type.names := by
  induction type with
  | ident | hole | emptyRow => rfl
  | arrow a b iha ihb | app a b _ iha ihb | field _ a b iha ihb => simp [names, iha, ihb]
  | generic _ a ih | record a _ ih => simp [names, ih]

@[simp]
theorem agrees_ty : (ρ.ty a).agrees (ρ.ty b) = a.agrees b := by
  induction a generalizing b with
  | ident | hole | emptyRow => cases b <;> simp [agrees]
  | arrow _ _ iha ihb | app _ _ _ iha ihb | field _ _ _ iha ihb =>
    cases b <;> simp [agrees, iha, ihb]
  | generic _ _ ih | record _ _ ih => cases b <;> simp [agrees, ih]

@[simp]
theorem rowTail_ty : (ρ.ty type).rowTail = ρ.ty type.rowTail := by
  induction type with
  | field _ _ base _ ih => exact ih
  | _ => rfl

theorem rowHasKey_ty : (ρ.ty type).rowHasKey key = type.rowHasKey key := by
  induction type with
  | field _ _ base _ ih => simp only [ty_field, rowHasKey, ih]
  | _ => rfl

@[simp]
theorem hasField_ty : (ρ.ty type).hasField key = type.hasField key := by
  cases type with
  | record row label => exact ρ.rowHasKey_ty
  | _ => rfl

@[simp]
theorem functionTo_ty : (ρ.ty a).functionTo (ρ.ty b) = ρ.ty (a.functionTo b) := by
  induction b with
  | generic _ b ih => simp [functionTo, ih]
  | _ => rfl

@[simp]
theorem params_ty : (ρ.ty type).params = type.params := by
  induction type with
  | generic _ a ih => simp [params, ih]
  | _ => rfl

theorem replace?_ty :
    (ρ.ty type).replace? (.hole (id + ρ.shift)) (ρ.ty replacement) =
      (type.replace? (.hole id) replacement).map ρ.ty := by
  by_cases hoccurs : type.occurs id = true
  · simp [Ty.replace?, Ty.mentions, Ty.replace, hoccurs]
  · simp [replace?, mentions, hoccurs]

end Types

/-- An assignment with renumbered placeholders. -/
def assignment (assigned : Assignment) : Assignment :=
  assigned.map fun entry => (entry.1 + ρ.shift, ρ.ty entry.2)

/-- Constraints with renumbered placeholders. -/
def constraints (solved : List Constraint) : List Constraint :=
  solved.map fun equal => (ρ.ty equal.1, ρ.ty equal.2)

section Assignments

variable {assigned : Assignment} {solved : List Constraint} {type : Ty} {id : Nat}

theorem without_assignment :
    (ρ.assignment assigned).without (id + ρ.shift) = ρ.assignment (assigned.without id) := by
  simp only [without, assignment, filter_map]
  congr 2
  funext entry
  simp

/-- A table with other keys in the place of the old ones has the same entries. -/
theorem lookup_map {ν ν' : Type} {φ : Nat → Nat} (hφ : φ.Injective) (ψ : ν → ν')
    (table : List (Nat × ν)) (key : Nat) :
    (table.map fun entry => (φ entry.1, ψ entry.2)).lookup (φ key) = (table.lookup key).map ψ := by
  induction table with
  | nil => rfl
  | cons entry rest ih =>
    obtain ⟨other, value⟩ := entry
    simp only [map_cons, List.lookup_cons, ih]
    by_cases hkey : key = other
    · simp [hkey]
    · simp [beq_false_of_ne hkey, beq_false_of_ne (hφ.ne hkey)]

theorem lookup_assignment :
    (ρ.assignment assigned).lookup (id + ρ.shift) = (assigned.lookup id).map ρ.ty :=
  lookup_map (φ := (· + ρ.shift)) (fun _ _ => Nat.add_right_cancel) ρ.ty assigned id

@[simp]
theorem ofConstraints_constraints :
    ofConstraints (ρ.constraints solved) =
      ρ.assignment (ofConstraints solved) := by
  induction solved with
  | nil => rfl
  | cons first rest ih =>
    obtain ⟨lhs, rhs⟩ := first
    simp only [constraints, map_cons] at ih ⊢
    cases lhs with
    | hole id =>
      simp only [ty_hole, ofConstraints, ih, without_assignment]
      rfl
    | _ =>
      cases rhs with
      | hole id =>
        simp only [ty_hole, ty_ident, ty_arrow, ty_generic, ty_app, ty_record, ty_emptyRow,
          ty_field, ofConstraints, ih, without_assignment]
        rfl
      | _ => rfl

theorem resolveUpTo_assignment (n : Nat) :
    resolveUpTo n (ρ.assignment assigned) (ρ.ty type) =
      ρ.ty (resolveUpTo n assigned type) := by
  induction n generalizing assigned type with
  | zero => rfl
  | succ n ih =>
    refine ρ.bindHoles_ty fun i _ => ?_
    rw [lookup_assignment]
    cases assigned.lookup i with
    | none => rfl
    | some found =>
      simp only [Option.map_some, without_assignment]
      exact ih

@[simp]
theorem resolve_assignment :
    (ρ.assignment assigned).resolve (ρ.ty type) = ρ.ty (assigned.resolve type) := by
  have hlength : (ρ.assignment assigned).length = assigned.length := length_map ..
  rw [resolve, hlength, resolveUpTo_assignment, resolve]

@[simp]
theorem applying_constraints :
    (ρ.ty type).applying (ρ.constraints solved) = ρ.ty (type.applying solved) := by
  rw [applying, ofConstraints_constraints, resolve_assignment, applying]

theorem findSome?_constraints {α β : Type} (solved : List Constraint) {f : Constraint → Option α}
    {g : Constraint → Option β} {φ : α → β}
    (hsame : ∀ equal, g (ρ.ty equal.1, ρ.ty equal.2) = (f equal).map φ) :
    (ρ.constraints solved).findSome? g = (solved.findSome? f).map φ := by
  induction solved with
  | nil => rfl
  | cons first rest ih =>
    rw [constraints, map_cons, findSome?_cons, findSome?_cons, hsame]
    cases f first with
    | none => exact ih
    | some => rfl

theorem solutionFor_constraints :
    solutionFor (id + ρ.shift) (ρ.constraints solved) = (solutionFor id solved).map ρ.ty := by
  have hassigned := ρ.findSome?_constraints solved (φ := ρ.ty)
    (f := fun equal => if equal.1 = .hole id then some equal.2
      else if equal.2 = .hole id then some equal.1 else none)
    (g := fun equal => if equal.1 = .hole (id + ρ.shift) then some equal.2
      else if equal.2 = .hole (id + ρ.shift) then some equal.1 else none)
    fun equal => by
      simp only [ty_eq_hole, apply_ite (Option.map ρ.ty), Option.map_some, Option.map_none]
  have hoccurs : ((ρ.constraints solved).any fun equal =>
      equal.1.occurs (id + ρ.shift) || equal.2.occurs (id + ρ.shift)) =
      solved.any fun equal => equal.1.occurs id || equal.2.occurs id := by
    simp [constraints, any_map, Function.comp_def]
  unfold solutionFor
  rw [hassigned, hoccurs]
  cases solved.findSome? fun equal => if equal.1 = .hole id then some equal.2
      else if equal.2 = .hole id then some equal.1 else none with
  | some found => rfl
  | none =>
    simp only [Option.map_none, apply_ite (Option.map ρ.ty), Option.map_some, ty_hole]

end Assignments

/-- The type of a defined value, renumbered or filled in. -/
def valueTy (type : Option Ty) : Option Ty := (type.map ρ.ty).or ρ.fill

mutual

/-- A context with renumbered placeholders, in which the missing types are filled in. -/
def context : List (Entry Binding) → Context
  | [] => []
  | first :: older => entry first :: context older

def entry : Entry Binding → Entry Binding
  | ⟨stamp, name, old⟩ => ⟨stamp, name, binding old⟩

def binding : Binding → Binding
  | .typed type nameLoc isGlobal => .typed (ρ.ty type) nameLoc isGlobal
  | .defined term type nameLoc none isGlobal =>
    .defined term (ρ.valueTy type) nameLoc none isGlobal
  | .defined term type nameLoc (some inner) isGlobal =>
    .defined term (ρ.valueTy type) nameLoc (some (context inner)) isGlobal
  | .typeAlias type nameLoc isGlobal => .typeAlias (ρ.ty type) nameLoc isGlobal
  | .typeParameter => .typeParameter

end

section Contexts

variable {ctx other : Context} {name : String} {stamp : Nat} {old : Binding}

@[simp] theorem context_nil : ρ.context [] = [] := rfl

@[simp] theorem context_cons {first : Entry Binding} {older : Context} :
    ρ.context (first :: older) = ρ.entry first :: ρ.context older := rfl

theorem context_eq_map : ρ.context ctx = ctx.map ρ.entry := by
  induction ctx with
  | nil => rfl
  | cons first older ih => rw [context_cons, ih, map_cons]

@[simp] theorem entry_stamp (first : Entry Binding) : (ρ.entry first).stamp = first.stamp := by
  obtain ⟨stamp, name, old⟩ := first
  rfl

@[simp] theorem entry_name (first : Entry Binding) : (ρ.entry first).name = first.name := by
  obtain ⟨stamp, name, old⟩ := first
  rfl

@[simp] theorem entry_binding (first : Entry Binding) :
    (ρ.entry first).binding = ρ.binding first.binding := by
  obtain ⟨stamp, name, old⟩ := first
  rfl

theorem find?_context : (ρ.context ctx).find? name = (ctx.find? name).map ρ.binding := by
  induction ctx with
  | nil => rfl
  | cons first older ih =>
    obtain ⟨stamp, key, old⟩ := first
    by_cases hname : key = name
    · simp [Context.find?, hname, entry]
    · simpa [Context.find?, hname, entry] using ih

@[simp]
theorem binds_context : (ρ.context ctx).binds name = ctx.binds name := by
  rw [binds, find?_context, Option.isSome_map, binds]

@[simp]
theorem hasTypeParameter_context :
    (ρ.context ctx).hasTypeParameter name = ctx.hasTypeParameter name := by
  rw [hasTypeParameter, find?_context, hasTypeParameter]
  cases ctx.find? name with
  | none => rfl
  | some old =>
    cases old with
    | defined term type nameLoc inner isGlobal => cases inner <;> rfl
    | _ => rfl

@[simp]
theorem checkBindable_context (loc : Option Loc) :
    (ρ.context ctx).checkBindable name loc = ctx.checkBindable name loc := by
  rw [checkBindable, binds_context, checkBindable]

@[simp]
theorem freeTypeVariables_context (taken : List String) :
    (ρ.context ctx).freeTypeVariables taken = ctx.freeTypeVariables taken := by
  simp only [freeTypeVariables, hasTypeParameter_context]

@[simp]
theorem nextTypeVariable_context (loc : Option Loc) (taken : List String) :
    (ρ.context ctx).nextTypeVariable loc taken = ctx.nextTypeVariable loc taken := by
  rw [nextTypeVariable, freeTypeVariables_context, nextTypeVariable]

@[simp]
theorem same_context : Context.same (ρ.context ctx) (ρ.context other) = ctx.same other := by
  cases ctx with
  | nil => cases other <;> rfl
  | cons first older => cases other <;> simp [same]

/-- A computation of contexts with its result renumbered. -/
def stamped (x : Stamped Context) : Stamped Context := fun stamp =>
  (ρ.context (x stamp).1, (x stamp).2)

theorem extend_context :
    (ρ.context ctx).extend name (ρ.binding old) = ρ.stamped (ctx.extend name old) := rfl

/-- A loop over contexts, one step of which can be renumbered. -/
theorem foldlM_stamped {α β : Type} {f : Context → α → Stamped Context}
    {g : Context → β → Stamped Context} {φ : α → β}
    (hstep : ∀ ctx item, g (ρ.context ctx) (φ item) = ρ.stamped (f ctx item)) (items : List α) :
    (items.map φ).foldlM g (ρ.context ctx) = ρ.stamped (items.foldlM f ctx) := by
  induction items generalizing ctx with
  | nil => rfl
  | cons item rest ih =>
    rw [map_cons, foldlM_cons, hstep]
    funext stamp
    exact congrFun (@ih (f ctx item stamp).1) (f ctx item stamp).2

theorem merge_context : (ρ.context ctx).merge (ρ.context other) = ρ.stamped (ctx.merge other) := by
  have hadded : (ρ.context other).takeWhile
      (fun first => !(ρ.context ctx).any (·.stamp = first.stamp)) =
      (other.takeWhile fun first => !ctx.any (·.stamp = first.stamp)).map ρ.entry := by
    rw [ρ.context_eq_map, ρ.context_eq_map, takeWhile_map]
    simp [Function.comp_def, any_map]
  simp only [Context.merge]
  rw [hadded, ← map_reverse]
  refine ρ.foldlM_stamped (fun ctx first => ?_) _
  rw [entry_name, binds_context]
  split
  · rfl
  · rw [entry_binding, extend_context]

end Contexts

/-- What a pass knows, renumbered. -/
def pass (known : Pass) : Pass :=
  ⟨known.stamp, known.images.map fun image => (image.1, ρ.context image.2)⟩

section Passes

open Context (mapChain mapEntry mapBinding)

variable {f g : Ty → Option Ty}

theorem lookup_images (known : Pass) (stamp : Nat) :
    (ρ.pass known).images.lookup stamp = (known.images.lookup stamp).map ρ.context :=
  lookup_map (φ := fun stamp => stamp) (fun _ _ heq => heq) ρ.context known.images stamp

theorem imageOf_context (first : Entry Binding) (older base : Context) (new : Option Binding)
    (known : Pass) :
    imageOf (ρ.entry first) (ρ.context older) (ρ.context base) (new.map ρ.binding)
        (ρ.pass known) =
      (ρ.context (imageOf first older base new known).1,
        ρ.pass (imageOf first older base new known).2) := by
  cases new with
  | some new =>
    rw [Option.map_some, imageOf, entry_name]
    rfl
  | none =>
    rw [Option.map_none, imageOf, same_context, entry_name, entry_binding,
      imageOf]
    split
    · rfl
    · rfl

section Mapping

variable (hsame : ∀ type, g (ρ.ty type) = (f type).map ρ.ty)
  (hfill : ∀ type ∈ ρ.fill, g type = none)

include hsame hfill

theorem bind_valueTy (type : Option Ty) : (ρ.valueTy type).bind g = (type.bind f).map ρ.ty := by
  cases type with
  | some type => exact hsame type
  | none => exact Option.bind_eq_none_iff.mpr hfill

theorem mapBinding_context (old : Binding) (known : Pass)
    (hinner : ∀ inner, old.inner? = some inner → mapChain g (ρ.context inner) (ρ.pass known) =
      (ρ.context (mapChain f inner known).1, ρ.pass (mapChain f inner known).2)) :
    mapBinding g (ρ.binding old) (ρ.pass known) =
      ((mapBinding f old known).1.map ρ.binding, ρ.pass (mapBinding f old known).2) := by
  cases old with
  | typed type nameLoc isGlobal | typeAlias type nameLoc isGlobal =>
    cases isGlobal with
    | true => rfl
    | false =>
      simp only [binding, mapBinding, hsame, pure_apply, Option.map_map]
      rfl
  | defined term type nameLoc inner isGlobal =>
    have htype := ρ.bind_valueTy hsame hfill type
    cases isGlobal with
    | true => cases inner <;> rfl
    | false =>
      cases inner with
      | none =>
        simp only [binding, mapBinding, htype, pure_apply]
        cases type.bind f <;> rfl
      | some inner =>
        simp only [binding, mapBinding, bind_apply, hinner inner rfl, htype, same_context]
        cases type.bind f with
        | some new => rfl
        | none =>
          simp only [Option.map_none]
          split <;> rfl
  | typeParameter => rfl

/-- A pass over a renumbered context gives the renumbered image. -/
theorem mapChain_context (chain : Context) (known : Pass) :
    mapChain g (ρ.context chain) (ρ.pass known) =
      (ρ.context (mapChain f chain known).1, ρ.pass (mapChain f chain known).2) := by
  induction chain using induct generalizing known with
  | nil => rfl
  | cons first older ihinner ih =>
    have hlookup := ρ.lookup_images known first.stamp
    cases hvisited : known.images.lookup first.stamp with
    | some image =>
      rw [hvisited] at hlookup
      rw [mapChain_of_visited hvisited, context_cons,
        mapChain_of_visited (by rw [entry_stamp]; exact hlookup)]
    | none =>
      rw [hvisited] at hlookup
      rw [mapChain_of_unvisited hvisited, context_cons,
        mapChain_of_unvisited (by rw [entry_stamp]; exact hlookup)]
      simp only [ih, entry_binding, ρ.mapBinding_context hsame hfill first.binding _
        fun inner hinner => ihinner inner hinner _, imageOf_context, entry_stamp]
      rfl

theorem mapTypes_context (ctx : Context) :
    (ρ.context ctx).mapTypes g = ρ.stamped (ctx.mapTypes f) := by
  funext stamp
  have hchain := ρ.mapChain_context hsame hfill ctx ⟨stamp, []⟩
  simp only [mapTypes, stamped]
  rw [show (⟨stamp, []⟩ : Pass) = ρ.pass ⟨stamp, []⟩ from rfl, hchain]
  rfl

end Mapping

variable {α β : Type} {l : Ty → List α} {m : Ty → List β} {φ : α → β}

section Listing

variable (hsame : ∀ type, m (ρ.ty type) = (l type).map φ) (hfill : ∀ type ∈ ρ.fill, m type = [])

include hsame hfill

theorem flatMap_valueTy (type : Option Ty) :
    (ρ.valueTy type).toList.flatMap m = (type.toList.flatMap l).map φ := by
  cases type with
  | some type => simpa [valueTy] using hsame type
  | none =>
    cases hnone : ρ.fill with
    | none => simp [valueTy, hnone]
    | some filled => simpa [valueTy, hnone] using hfill filled hnone

/-- What is listed of the types along a renumbered chain is renumbered. Types that were
filled in add nothing to the list. -/
theorem chainTypes_context (chain : Context) (seen : List Nat) :
    (chainTypes (ρ.context chain) seen).1.flatMap m =
        ((chainTypes chain seen).1.flatMap l).map φ ∧
      (chainTypes (ρ.context chain) seen).2 = (chainTypes chain seen).2 := by
  induction chain using induct generalizing seen with
  | nil => exact ⟨rfl, rfl⟩
  | cons first older ihinner ih =>
    have hstamp := ρ.entry_stamp first
    by_cases hseen : first.stamp ∈ seen
    · rw [chainTypes_of_seen hseen, context_cons, chainTypes_of_seen (by rwa [hstamp])]
      exact ⟨rfl, rfl⟩
    · rw [chainTypes_of_unseen hseen, context_cons, chainTypes_of_unseen (by rwa [hstamp])]
      obtain ⟨holder, hseen'⟩ := ih seen
      have hown : (bindingTypes (ρ.binding first.binding) (chainTypes older seen).2).1.flatMap m =
          ((bindingTypes first.binding (chainTypes older seen).2).1.flatMap l).map φ ∧
          (bindingTypes (ρ.binding first.binding) (chainTypes older seen).2).2 =
            (bindingTypes first.binding (chainTypes older seen).2).2 := by
        cases hold : first.binding with
        | typed type _ isGlobal | typeAlias type _ isGlobal =>
          cases isGlobal <;> simp [binding, bindingTypes, pure_apply, hsame]
        | defined _ type _ inner isGlobal =>
          have htype := ρ.flatMap_valueTy hsame hfill type
          cases isGlobal with
          | true => cases inner <;> exact ⟨rfl, rfl⟩
          | false =>
            cases inner with
            | none => exact ⟨htype, rfl⟩
            | some inner =>
              have hinner := ihinner inner (by rw [hold]; rfl) (chainTypes older seen).2
              simp only [binding, bindingTypes, bind_apply, pure_apply, flatMap_append,
                map_append, htype, hinner, and_self]
        | typeParameter => exact ⟨rfl, rfl⟩
      simp only [hseen', flatMap_append, map_append, holder, entry_binding, hown, hstamp,
        and_self]

end Listing

end Passes

/-- A fault with a renumbered placeholder. Types in faults have no placeholders. -/
def fault : Fault → Fault
  | ⟨.circular id, loc⟩ => ⟨.circular (id + ρ.shift), loc⟩
  | other => other

/-- The outcome of a computation that can only fail, renumbered. -/
def except {α β : Type} (φ : α → β) : Except Fault α → Except Fault β
  | .ok value => .ok (φ value)
  | .error found => .error (ρ.fault found)

/-- Names of renumbered placeholders. -/
def naming (names : Naming) : Naming := names.map fun given => (given.1 + ρ.shift, given.2)

/-- What generalization gives, renumbered. -/
def generalized (result : Generalized) : Generalized :=
  ⟨ρ.ty result.type, ρ.context result.ctx, ρ.naming result.naming⟩

theorem except_bind {α β γ δ : Type} {φ : α → β} {ψ : γ → δ} {x : Except Fault α}
    {y : Except Fault β} {f : α → Except Fault γ} {g : β → Except Fault δ} (hx : y = ρ.except φ x)
    (hf : ∀ a, x = .ok a → g (φ a) = ρ.except ψ (f a)) : (y >>= g) = ρ.except ψ (x >>= f) := by
  subst hx
  cases x with
  | error found => rfl
  | ok a => exact hf a rfl

section Generalization

variable {names : Naming} {type : Ty}

theorem eraseDups_map_add (n : Nat) (ids : List Nat) :
    (ids.map (· + n)).eraseDups = ids.eraseDups.map (· + n) := by
  match ids with
  | [] => rfl
  | id :: rest =>
    have hrest := eraseDups_map_add n (rest.filter fun other => !other == id)
    have hequal : ∀ other, (other + n == id + n) = (other == id) := by
      intro other
      rw [Bool.eq_iff_iff]
      simp
    rw [map_cons, eraseDups_cons, eraseDups_cons, map_cons, ← hrest,
      filter_map]
    simp only [Function.comp_def, hequal]
termination_by ids.length
decreasing_by exact Nat.lt_succ_of_le (List.length_filter_le ..)

theorem ofTypes_except {types types' : List Ty} (free : List String) (loc : Option Loc)
    (hholes : types'.flatMap holes = (types.flatMap holes).map (· + ρ.shift)) :
    ofTypes types' free loc = ρ.except ρ.naming (ofTypes types free loc) := by
  simp only [ofTypes, hholes, eraseDups_map_add, length_map]
  split
  · rfl
  · rw [zip_map_left]
    rfl

theorem lookup_naming {id : Nat} : (ρ.naming names).lookup (id + ρ.shift) = names.lookup id :=
  (lookup_map (φ := (· + ρ.shift)) (fun _ _ => Nat.add_right_cancel) (fun name => name) names
    id).trans Option.map_id'

@[simp]
theorem withNames_naming :
    (ρ.ty type).withNames (ρ.naming names) = ρ.ty (type.withNames names) := by
  refine ρ.bindHoles_ty fun i _ => ?_
  rw [lookup_naming]
  cases names.lookup i with
  | none => rfl
  | some name => rfl

@[simp]
theorem quantify_naming : (ρ.ty type).quantify (ρ.naming names) = ρ.ty (type.quantify names) := by
  induction names generalizing type with
  | nil => rfl
  | cons given rest ih => exact @ih (.generic given.2 type)

theorem filter_naming (names : Naming) {p q : Nat × String → Bool}
    (hsame : ∀ given, q (given.1 + ρ.shift, given.2) = p given) :
    (ρ.naming names).filter q = ρ.naming (names.filter p) := by
  rw [naming, filter_map, naming]
  congr 2
  funext given
  exact hsame given

theorem declare_naming (ctx : Context) :
    (ρ.naming names).declare (ρ.context ctx) = ρ.stamped (names.declare ctx) :=
  ρ.foldlM_stamped (fun _ _ => rfl) names

theorem rename?_naming (assigned : Assignment) :
    (ρ.naming names).rename? (ρ.assignment assigned) (ρ.ty type) =
      (names.rename? assigned type).map ρ.ty := by
  simp only [rename?, isEmpty_holes_ty, resolve_assignment, withNames_naming]
  split
  · rfl
  · rfl

theorem rename?_fill (assigned : Assignment) (htype : type ∈ ρ.fill) :
    names.rename? assigned type = none := by
  simp [rename?, ρ.holes_fill type htype]

theorem nameContext_context (own others : Naming) (assigned : Assignment) (ctx : Context) :
    nameContext (ρ.naming own) (ρ.naming others) (ρ.naming names) (ρ.assignment assigned)
        (ρ.context ctx) =
      ρ.stamped (nameContext own others names assigned ctx) := by
  funext stamp
  simp only [nameContext, bind_apply, stamped, declare_naming,
    ρ.mapTypes_context (fun _ => ρ.rename?_naming assigned)
      (fun _ htype => ρ.rename?_fill (ρ.assignment assigned) htype)]

theorem close_naming (assigned : Assignment) (resolved : Ty) (ctx : Context) (stamp : Nat) :
    (ρ.naming names).close (ρ.assignment assigned) (ρ.ty resolved) (ρ.context ctx) stamp =
      (ρ.generalized (names.close assigned resolved ctx stamp).1,
        (names.close assigned resolved ctx stamp).2) := by
  have hown := ρ.filter_naming names (p := fun given => resolved.occurs given.1)
    (q := fun given => (ρ.ty resolved).occurs given.1) fun _ => ρ.occurs_ty
  have hothers := ρ.filter_naming names (p := fun given => !resolved.occurs given.1)
    (q := fun given => !(ρ.ty resolved).occurs given.1) fun _ => congrArg _ ρ.occurs_ty
  simp only [close, hown, hothers, nameContext_context, withNames_naming, quantify_naming]
  rfl

theorem holes_reachableTypes (assigned : Assignment) (resolved : Ty) (ctx : Context) :
    (ρ.ty resolved :: (ρ.context ctx).reachableTypes.map
        (ρ.assignment assigned).resolve).flatMap holes =
      ((resolved :: ctx.reachableTypes.map assigned.resolve).flatMap holes).map
        (· + ρ.shift) := by
  have hlisted := ρ.chainTypes_context
    (l := fun type => (assigned.resolve type).holes)
    (m := fun type => ((ρ.assignment assigned).resolve type).holes)
    (φ := (· + ρ.shift)) (fun type => by simp only [resolve_assignment, holes_ty])
    (fun type htype => by rw [resolve_of_holes_eq_nil (ρ.holes_fill type htype),
      ρ.holes_fill type htype]) ctx []
  rw [flatMap_cons, flatMap_cons, map_append, ← holes_ty, flatMap_map,
    flatMap_map]
  exact congrArg _ hlisted.1

/-- Generalizing renumbered types gives the renumbered result. -/
theorem generalize_context (solved : List Constraint) (type : Ty) (ctx : Context)
    (loc : Option Loc) (stamp : Nat) :
    generalize (ρ.constraints solved) (ρ.ty type) (ρ.context ctx) loc stamp =
      ρ.except (fun result => (ρ.generalized result.1, result.2))
        (generalize solved type ctx loc stamp) := by
  rw [generalize_eq_bind, generalize_eq_bind, ofConstraints_constraints, resolve_assignment,
    names_ty, freeTypeVariables_context]
  refine ρ.except_bind (ρ.ofTypes_except _ _ (ρ.holes_reachableTypes ..)) fun names _ => ?_
  rw [close_naming]
  rfl

theorem displayed_constraints (solved : List Constraint) (type : Ty) :
    (ρ.ty type).displayed (ρ.constraints solved) = type.displayed solved := by
  have hgeneralize := ρ.generalize_context solved type [] none 0
  rw [context_nil] at hgeneralize
  rw [displayed, hgeneralize, displayed]
  cases hrun : generalize solved type [] none 0 with
  | ok outcome =>
    exact congrArg Except.ok (ρ.ty_of_holes_eq_nil (holes_generalize hrun))
  | error found => rw [generalize_eq_error hrun]; rfl

end Generalization

end Renumbering

end RowScript
