import RowScript.Proofs.Settled

/-!
# Passes over contexts that share entries

A pass visits an entry once and then goes by its stamp. Under a heap, mapping the types of a context
leads to a larger heap, and collecting them misses none of those that have placeholders.
-/

namespace RowScript.Context

open List Option Binding

variable {binding : Binding} {next : Nat}

section State

variable {σ α β : Type}

theorem bind_apply (x : StateM σ α) (g : α → StateM σ β) (s : σ) :
    (x >>= g) s = g (x s).1 (x s).2 := rfl

theorem pure_apply (a : α) (s : σ) : (pure a : StateM σ α) s = (a, s) := rfl

theorem get_apply (s : σ) : (get : StateM σ σ) s = (s, s) := rfl

end State

variable {f : Ty → Option Ty} {entry : Entry Binding} {older : List (Entry Binding)} {pass : Pass}
  {ty : Ty} {ctx : Context} {type : Option Ty} {new : Option Binding} {inner : Option Context}

/-! ## What a mapping pass does -/

/-- The chain that starts at an entry after what is older was mapped to `base` and its
binding to `new`. -/
def imageOf (entry : Entry Binding) (older base : Context) (new : Option Binding) :
    StateM Pass Context :=
  match new with
  | some binding => Pass.push entry.name binding base
  | none =>
    if same base older then pure (entry :: older) else Pass.push entry.name entry.binding base

theorem mapEntry_eq (entry : Entry Binding) : mapEntry f entry = mapBinding f entry.binding := by
  cases entry
  rfl

theorem mapChain_of_visited {image : Context}
    (hvisited : pass.images.lookup entry.stamp = some image) :
    mapChain f (entry :: older) pass = (image, pass) := by
  simp only [mapChain, bind_apply, get_apply, hvisited, pure_apply]

theorem mapChain_of_unvisited (hunvisited : pass.images.lookup entry.stamp = none) :
    mapChain f (entry :: older) pass =
      let base := mapChain f older pass
      let binding := mapBinding f entry.binding base.2
      let image := imageOf entry older base.1 binding.1 binding.2
      (image.1, { image.2 with images := (entry.stamp, image.1) :: image.2.images }) := by
  simp only [mapChain, bind_apply, get_apply, hunvisited, mapEntry_eq]
  cases (mapBinding f entry.binding (mapChain f older pass).2).1 with
  | some new => rfl
  | none =>
    simp only [imageOf]
    cases same (mapChain f older pass).1 older with
    | true => rfl
    | false => rfl

theorem same_refl (ctx : Context) : same ctx ctx := by
  cases ctx with
  | nil => rfl
  | cons => exact decide_eq_true rfl

/-- What a mapping makes of a type. -/
abbrev mapped (f : Ty → Option Ty) (ty : Ty) : Ty := (f ty).getD ty

/-- The binding with its type mapped and another context inside, if it has one. -/
def rebuilt (f : Ty → Option Ty) (inner : Option Context) : Binding → Binding
  | .typed type nameLoc isGlobal => .typed (mapped f type) nameLoc isGlobal
  | .typeAlias type nameLoc isGlobal => .typeAlias (mapped f type) nameLoc isGlobal
  | .defined term type nameLoc _ isGlobal =>
    .defined term (type.map (mapped f)) nameLoc inner isGlobal
  | .typeParameter => .typeParameter

theorem map_mapped_of_bind (hnone : type.bind f = none) : type.map (mapped f) = type := by
  cases type with
  | none => rfl
  | some type =>
    rw [bind_some] at hnone
    simp [mapped, hnone]

theorem rebuilt_eq_self (hnone : binding.type?.bind f = none) :
    rebuilt f binding.inner? binding = binding := by
  cases binding with
  | typed type | typeAlias type => simp_all [rebuilt, type?, mapped]
  | defined term type nameLoc inner isGlobal =>
    have htype : type.map (mapped f) = type := map_mapped_of_bind hnone
    rw [rebuilt, htype]
    rfl
  | typeParameter => rfl

theorem mapBinding_global (hglobal : binding.isGlobal) :
    mapBinding f binding pass = (none, pass) := by
  cases binding with
  | defined term type nameLoc inner isGlobal =>
    cases hglobal
    cases inner with
    | none | some inner => rfl
  | typeParameter => rfl
  | _ =>
    cases hglobal
    rfl

theorem mapBinding_leaf (hlocal : binding.isGlobal = false) (hinner : binding.inner? = none) :
    mapBinding f binding pass =
      (if binding.type?.bind f = none then none else some (rebuilt f none binding), pass) := by
  cases binding with
  | typed type | typeAlias type =>
    cases hlocal
    cases htype : f type with
    | _ => simp [mapBinding, rebuilt, type?, mapped, htype, pure_apply]
  | defined term type nameLoc inner isGlobal =>
    cases hlocal
    cases hinner
    cases type with
    | none => rfl
    | some type =>
      cases htype : f type with
      | _ => simp [mapBinding, rebuilt, type?, mapped, htype, pure_apply]
  | typeParameter => rfl

theorem mapBinding_defined (term : Term) (type : Option Ty) (nameLoc : Loc) (inner : Context) :
    mapBinding f (.defined term type nameLoc (some inner) false) pass =
      let image := mapChain f inner pass
      (if type.bind f = none ∧ same image.1 inner = true then none
        else some (.defined term (type.map (mapped f)) nameLoc (some image.1) false), image.2) := by
  simp only [mapBinding, bind_apply]
  cases htype : type.bind f with
  | some new =>
    obtain ⟨ty, rfl, hty⟩ := bind_eq_some_iff.mp htype
    simp [mapped, hty, pure_apply]
  | none =>
    rw [map_mapped_of_bind htype]
    cases same (mapChain f inner pass).1 inner with
    | true => rfl
    | false => rfl

/-- The types that a pass meets in a context: those of bindings that are not global,
also in the contexts kept inside such bindings. -/
inductive Meets : Context → Ty → Prop where
  | here {entry : Entry Binding} {older : Context} {ty : Ty}
      (hlocal : entry.binding.isGlobal = false) (htype : entry.binding.type? = some ty) :
      Meets (entry :: older) ty
  | inner {entry : Entry Binding} {older inner : Context} {ty : Ty}
      (hlocal : entry.binding.isGlobal = false) (hinner : entry.binding.inner? = some inner)
      (hmeets : Meets inner ty) : Meets (entry :: older) ty
  | older {entry : Entry Binding} {older : Context} {ty : Ty} (hmeets : Meets older ty) :
      Meets (entry :: older) ty

/-- The types that a pass meets in a binding. -/
def MeetsIn (binding : Binding) (ty : Ty) : Prop :=
  binding.isGlobal = false ∧
    (binding.type? = some ty ∨ ∃ inner, binding.inner? = some inner ∧ Meets inner ty)

theorem meets_cons : Meets (entry :: older) ty ↔ MeetsIn entry.binding ty ∨ Meets older ty := by
  constructor
  · intro hmeets
    cases hmeets with
    | here hlocal htype => exact .inl ⟨hlocal, .inl htype⟩
    | inner hlocal hinner hmeets => exact .inl ⟨hlocal, .inr ⟨_, hinner, hmeets⟩⟩
    | older hmeets => exact .inr hmeets
  · rintro (⟨hlocal, htype | ⟨inner, hinner, hmeets⟩⟩ | hmeets)
    · exact .here hlocal htype
    · exact .inner hlocal hinner hmeets
    · exact .older hmeets

/-- A mapping leaves alone every type that a pass meets. -/
def Spares (f : Ty → Option Ty) (ctx : Context) : Prop := ∀ ty, Meets ctx ty → f ty = none

def SparesIn (f : Ty → Option Ty) (binding : Binding) : Prop :=
  ∀ ty, MeetsIn binding ty → f ty = none

theorem spares_cons : Spares f (entry :: older) ↔ SparesIn f entry.binding ∧ Spares f older := by
  simp only [Spares, SparesIn, meets_cons, or_imp, forall_and]

mutual

/-- A context and its image under a mapping of types. An entry of the image is the entry
itself if the mapping leaves alone all types in it and in what is older. -/
inductive Mapped (f : Ty → Option Ty) : List (Entry Binding) → List (Entry Binding) → Prop where
  | nil : Mapped f [] []
  | cons {entry image : Entry Binding} {older base : List (Entry Binding)}
      (hname : image.name = entry.name) (hbinding : MappedBinding f entry.binding image.binding)
      (holder : Mapped f older base)
      (hsame : image :: base = entry :: older ↔ Spares f (entry :: older)) :
      Mapped f (entry :: older) (image :: base)

/-- A binding and its image, which for a global binding is the binding itself. -/
inductive MappedBinding (f : Ty → Option Ty) : Binding → Binding → Prop where
  | global {binding : Binding} (hglobal : binding.isGlobal = true) : MappedBinding f binding binding
  | leaf {binding : Binding} (hlocal : binding.isGlobal = false) (hinner : binding.inner? = none) :
      MappedBinding f binding (rebuilt f none binding)
  | defined (term : Term) (type : Option Ty) (nameLoc : Loc) {inner image : List (Entry Binding)}
      (hinner : Mapped f inner image) :
      MappedBinding f (.defined term type nameLoc (some inner) false)
        (.defined term (type.map (mapped f)) nameLoc (some image) false)

end

theorem Mapped.eq_iff {image : Context} (hmapped : Mapped f ctx image) :
    image = ctx ↔ Spares f ctx := by
  cases hmapped with
  | nil => exact iff_of_true rfl fun ty hmeets => by cases hmeets
  | cons _ _ _ hsame => exact hsame

/-- A mapping leaves no placeholder in a type. -/
def Settles (f : Ty → Option Ty) (ty : Ty) : Prop := (mapped f ty).holes = []

/-- What is known of the image of a chain. The goal is that everything is settled in the
end; without a start, the image is described exactly. -/
structure IsImage (f : Ty → Option Ty) (goal : Prop) (start : Option Nat) (S : Context → Prop)
    (chain image : Context) : Prop where
  mem : S image
  settled : goal → isSettled image
  mapped : start = none → Mapped f chain image

/-- The invariant of a mapping pass: an image that was recorded is the image of the chain
with that stamp. -/
structure PassInv (f : Ty → Option Ty) (goal : Prop) (start : Option Nat) (S : Context → Prop)
    (pass : Pass) : Prop where
  strict : goal → start.isSome
  heap : Heap start pass.stamp S
  images : ∀ recorded ∈ pass.images, ∃ entry older, S (entry :: older) ∧
    entry.stamp = recorded.1 ∧ IsImage f goal start S (entry :: older) recorded.2

/-- The result of mapping a chain. -/
def Kept (f : Ty → Option Ty) (goal : Prop) (start : Option Nat) (S : Context → Prop)
    (chain : Context) (result : Context × Pass) : Prop :=
  ∃ T, PassInv f goal start T result.2 ∧ (∀ c, S c → T c) ∧ IsImage f goal start T chain result.1

/-- The result of mapping a binding, `none` if it stays as it is. -/
structure Replaced (f : Ty → Option Ty) (goal : Prop) (start : Option Nat) (S : Context → Prop)
    (binding : Binding) (new : Option Binding) : Prop where
  fits : Fits start S (new.getD binding)
  settled : goal → SettledInside (new.getD binding)
  mapped : start = none → MappedBinding f binding (new.getD binding)
  same : start = none → (new = none ↔ SparesIn f binding)

variable {goal : Prop} {start : Option Nat} {S T : Context → Prop} {chain base image : Context}
  {binding : Binding}

theorem IsImage.mono (himage : IsImage f goal start S chain image) (hle : ∀ c, S c → T c) :
    IsImage f goal start T chain image :=
  ⟨hle _ himage.mem, himage.settled, himage.mapped⟩

section

variable (hinv : PassInv f goal start S pass)

include hinv

theorem PassInv.mono_stamp (hheap : Heap start next T) (hle : ∀ c, S c → T c) :
    PassInv f goal start T { pass with stamp := next } := by
  refine ⟨hinv.strict, hheap, fun recorded hrecorded => ?_⟩
  obtain ⟨entry, older, hchain, hstamp, himage⟩ := hinv.images recorded hrecorded
  exact ⟨entry, older, hle _ hchain, hstamp, himage.mono hle⟩

theorem PassInv.of_visited (hchain : S (entry :: older))
    (hvisited : pass.images.lookup entry.stamp = some image) :
    IsImage f goal start S (entry :: older) image := by
  obtain ⟨newer, others, himages, -⟩ := lookup_eq_some_iff.mp hvisited
  obtain ⟨entry', older', hchain', hstamp, himage⟩ := hinv.images (entry.stamp, image)
    (himages ▸ mem_append_right _ mem_cons_self)
  refine ⟨himage.mem, himage.settled, fun hstart => ?_⟩
  subst hstart
  rw [hinv.heap.unique hchain hchain' hstamp.symm nofun]
  exact himage.mapped rfl

/-- An entry that is made anew, because its binding or what is older has changed. -/
theorem PassInv.push (hchain : S (entry :: older)) (hbase : IsImage f goal start S older base)
    (hnew : Replaced f goal start S entry.binding new) (hchanged : new ≠ none ∨ base ≠ older) :
    Kept f goal start S (entry :: older)
      (Pass.push entry.name (new.getD entry.binding) base pass) := by
  obtain ⟨T, hheap, hle, htop⟩ := hinv.heap.push entry.name hbase.mem hnew.fits
  refine ⟨T, hinv.mono_stamp hheap hle, hle, htop, fun hgoal =>
    isSettled_cons.mpr ⟨hnew.settled hgoal, hbase.settled hgoal⟩, fun hstart => ?_⟩
  refine .cons rfl (hnew.mapped hstart) (hbase.mapped hstart) (iff_of_false ?_ ?_)
  · intro heq
    have hstamp : pass.stamp = entry.stamp := congrArg Entry.stamp (cons.inj heq).1
    exact absurd hstamp (Nat.ne_of_gt (hinv.heap.below hchain))
  · rw [spares_cons, ← hnew.same hstart, ← (hbase.mapped hstart).eq_iff]
    exact fun hspared => hchanged.elim (· hspared.1) (· hspared.2)

/-- Putting an entry on top of what its older entries were mapped to. -/
theorem PassInv.imageOf (hchain : S (entry :: older)) (hbase : IsImage f goal start S older base)
    (hnew : Replaced f goal start S entry.binding new) :
    Kept f goal start S (entry :: older) (Context.imageOf entry older base new pass) := by
  cases new with
  | some new => exact hinv.push hchain hbase hnew (.inl nofun)
  | none =>
    simp only [imageOf]
    split
    case isTrue hsame =>
      -- what is older was kept or is settled anyway, if only its stamp was met again
      refine ⟨S, hinv, fun _ hc => hc, hchain, fun hgoal => ?_, fun hstart => ?_⟩
      · have holder := hinv.heap.settled_of_same hbase.mem (hinv.heap.older hchain) hsame
          (hbase.settled hgoal)
        exact isSettled_cons.mpr ⟨hnew.settled hgoal, holder⟩
      · subst hstart
        obtain rfl := hinv.heap.eq_of_same hbase.mem (hinv.heap.older hchain) hsame
        have hspared := spares_cons.mpr
          ⟨(hnew.same rfl).mp rfl, (hbase.mapped rfl).eq_iff.mp rfl⟩
        exact .cons rfl (hnew.mapped rfl) (hbase.mapped rfl) (iff_of_true rfl hspared)
    case isFalse hsame =>
      refine hinv.push hchain hbase hnew (.inr ?_)
      rintro rfl
      exact hsame (same_refl base)

end

theorem Kept.remember {result : Context × Pass} (hchain : S (entry :: older))
    (hkept : Kept f goal start S (entry :: older) result) :
    Kept f goal start S (entry :: older)
      (result.1, { result.2 with images := (entry.stamp, result.1) :: result.2.images }) := by
  obtain ⟨T, hinv, hle, himage⟩ := hkept
  refine ⟨T, ⟨hinv.strict, hinv.heap, fun recorded hmem => ?_⟩, hle, himage⟩
  rcases mem_cons.mp hmem with rfl | hmem
  · exact ⟨entry, older, hle _ hchain, rfl, himage⟩
  · exact hinv.images recorded hmem

/-- The result of mapping a binding together with what is inside it. -/
def KeptBinding (f : Ty → Option Ty) (goal : Prop) (start : Option Nat) (S : Context → Prop)
    (binding : Binding) (result : Option Binding × Pass) : Prop :=
  ∃ T, PassInv f goal start T result.2 ∧ (∀ c, S c → T c) ∧
    Replaced f goal start T binding result.1

/-- The binding with its type mapped, around the image of what is inside. -/
theorem Fits.rebuilt (hfits : Fits start S binding) (hlocal : binding.isGlobal = false)
    (hinner : ∀ c, inner = some c → S c) : Fits start S (Context.rebuilt f inner binding) := by
  cases binding with
  | defined term type nameLoc own isGlobal =>
    cases hlocal
    refine ⟨hinner, fun hstart => ?_, fun _ hglobal => by cases hglobal⟩
    simpa [rebuilt, isComplete] using hfits.complete hstart
  | _ =>
    cases hlocal
    exact fits_leaf rfl rfl rfl

theorem settledInside_rebuilt (hcomplete : binding.isComplete)
    (htype : ∀ ty, binding.type? = some ty → Settles f ty)
    (hinner : ∀ c, inner = some c → isSettled c) :
    SettledInside (Context.rebuilt f inner binding) := by
  cases binding with
  | defined term type nameLoc own isGlobal =>
    refine settledInside_iff.mpr ⟨?_, fun ty hty => ?_, hinner⟩
    · simpa [rebuilt, isComplete] using hcomplete
    · obtain ⟨old, hold, rfl⟩ := map_eq_some_iff.mp hty
      exact htype old hold
  | typed type => exact settledInside_typed (htype type rfl)
  | typeAlias type => exact settledInside_typeAlias (htype type rfl)
  | typeParameter => exact settledInside_typeParameter

section

variable (hinv : PassInv f goal start S pass)

include hinv

theorem PassInv.global (hfits : Fits start S binding) (hglobal : binding.isGlobal) :
    KeptBinding f goal start S binding (mapBinding f binding pass) := by
  rw [mapBinding_global hglobal]
  refine ⟨S, hinv, fun _ hc => hc, hfits, fun hgoal => hfits.global (hinv.strict hgoal) hglobal,
    fun _ => .global hglobal, fun _ => iff_of_true rfl fun ty hmeets => ?_⟩
  exact absurd hglobal (Bool.eq_false_iff.mp hmeets.1)

/-- A binding without a context inside: only its type is mapped. -/
theorem PassInv.leaf (hfits : Fits start S binding) (hinner : binding.inner? = none)
    (hsettles : goal → ∀ ty, MeetsIn binding ty → Settles f ty) :
    KeptBinding f goal start S binding (mapBinding f binding pass) := by
  cases hlocal : binding.isGlobal with
  | true => exact hinv.global hfits hlocal
  | false =>
    have hspares : binding.type?.bind f = none ↔ SparesIn f binding := by
      simp [SparesIn, MeetsIn, hlocal, hinner, bind_eq_none_iff]
    have hgetD : (if binding.type?.bind f = none then none
        else some (rebuilt f none binding)).getD binding =
          rebuilt f none binding := by
      split
      case isTrue hnone =>
        have hsame := rebuilt_eq_self hnone
        rw [hinner] at hsame
        exact hsame.symm
      case isFalse => rfl
    rw [mapBinding_leaf hlocal hinner]
    refine ⟨S, hinv, fun _ hc => hc, ?_, fun hgoal => ?_, fun _ => ?_, fun _ => ?_⟩
    · rw [hgetD]
      exact hfits.rebuilt hlocal nofun
    · rw [hgetD]
      exact settledInside_rebuilt (hfits.complete (hinv.strict hgoal))
        (fun ty hty => hsettles hgoal ty ⟨hlocal, .inl hty⟩) nofun
    · rw [hgetD]
      exact .leaf hlocal hinner
    · simpa using hspares

/-- A defined value, of which the context inside was mapped to `image`. -/
theorem PassInv.defined {term : Term} {nameLoc : Loc} {inner : Context}
    (hfits : Fits start S (.defined term type nameLoc (some inner) false))
    (himage : IsImage f goal start S inner image)
    (hsettles : goal → ∀ ty, type = some ty → Settles f ty) :
    Replaced f goal start S (.defined term type nameLoc (some inner) false)
      (if type.bind f = none ∧ same image inner = true then none
        else some (.defined term (type.map (mapped f)) nameLoc (some image) false)) := by
  have hinside : ∀ c, some image = some c → S c := fun _ heq => some.inj heq ▸ himage.mem
  have hspares (hstart : start = none) :
      (type.bind f = none ∧ same image inner = true) ↔
        SparesIn f (.defined term type nameLoc (some inner) false) := by
    subst hstart
    have hsame : same image inner ↔ Spares f inner := by
      rw [← (himage.mapped rfl).eq_iff]
      refine ⟨hinv.heap.eq_of_same himage.mem (hfits.inner inner rfl), ?_⟩
      rintro rfl
      exact same_refl image
    rw [hsame]
    simp [SparesIn, MeetsIn, isGlobal, type?, inner?, Spares, or_imp,
      forall_and, bind_eq_none_iff]
  split
  case isTrue hnone =>
    refine ⟨hfits, fun hgoal => ?_, fun hstart => ?_, fun hstart => iff_of_true rfl ?_⟩
    · have hinner := hinv.heap.settled_of_same himage.mem (hfits.inner _ rfl) hnone.2
        (himage.settled hgoal)
      have hsame : rebuilt f (some inner) (.defined term type nameLoc (some inner) false) =
          .defined term type nameLoc (some inner) false := by
        rw [rebuilt, map_mapped_of_bind hnone.1]
      rw [getD_none, ← hsame]
      exact settledInside_rebuilt (hfits.complete (hinv.strict hgoal)) (hsettles hgoal)
        fun _ heq => some.inj heq ▸ hinner
    · subst hstart
      obtain rfl := hinv.heap.eq_of_same himage.mem (hfits.inner inner rfl) hnone.2
      have hdefined := MappedBinding.defined term type nameLoc (himage.mapped rfl)
      rwa [map_mapped_of_bind hnone.1] at hdefined
    · exact (hspares hstart).mp hnone
  case isFalse hsome =>
    refine ⟨hfits.rebuilt rfl hinside, fun hgoal => ?_, fun hstart => ?_, fun hstart => ?_⟩
    · exact settledInside_rebuilt (hfits.complete (hinv.strict hgoal)) (hsettles hgoal)
        fun _ heq => some.inj heq ▸ himage.settled hgoal
    · exact .defined term type nameLoc (himage.mapped hstart)
    · refine iff_of_false (fun hnew => ?_) fun hspared => hsome ((hspares hstart).mpr hspared)
      cases hnew

/-- Mapping a binding keeps the heap, if mapping the context inside does. -/
theorem PassInv.mapBinding (hfits : Fits start S binding)
    (hsettles : goal → ∀ ty, MeetsIn binding ty → Settles f ty)
    (hkept : ∀ inner, binding.inner? = some inner →
      (goal → ∀ ty, Meets inner ty → Settles f ty) →
      Kept f goal start S inner (mapChain f inner pass)) :
    KeptBinding f goal start S binding (mapBinding f binding pass) := by
  cases hglobal : binding.isGlobal with
  | true => exact hinv.global hfits hglobal
  | false =>
    cases hinner : binding.inner? with
    | none => exact hinv.leaf hfits hinner hsettles
    | some inner =>
      cases binding with
      | defined term type nameLoc own isGlobal =>
        cases hglobal
        cases hinner
        obtain ⟨T, hinvT, hleT, himage⟩ := hkept inner rfl fun hgoal ty hmeets =>
          hsettles hgoal ty ⟨rfl, .inr ⟨inner, rfl, hmeets⟩⟩
        rw [mapBinding_defined]
        exact ⟨T, hinvT, hleT, hinvT.defined (hfits.mono hleT) himage
          fun hgoal ty hty => hsettles hgoal ty ⟨rfl, .inl hty⟩⟩
      | _ => cases hinner

/-- Mapping a chain keeps the heap and gives the image of the chain. The image is settled if
the mapping settles all types that it meets. -/
theorem PassInv.mapChain (hchain : S chain)
    (hsettles : goal → ∀ ty, Meets chain ty → Settles f ty) :
    Kept f goal start S chain (mapChain f chain pass) := by
  induction chain using induct generalizing S pass with
  | nil => exact ⟨S, hinv, fun _ hc => hc, hchain, fun _ => rfl, fun _ => .nil⟩
  | cons entry older ihinner ih =>
    cases hvisited : pass.images.lookup entry.stamp with
    | some image =>
      rw [mapChain_of_visited hvisited]
      exact ⟨S, hinv, fun _ hc => hc, hinv.of_visited hchain hvisited⟩
    | none =>
      -- the heap grows twice, for what is older and for what is inside the entry
      rw [mapChain_of_unvisited hvisited]
      obtain ⟨T, hinvT, hleT, hbase⟩ := ih hinv (hinv.heap.older hchain)
        fun hgoal ty hmeets => hsettles hgoal ty (.older hmeets)
      have hfits := hinvT.heap.fits (hleT _ hchain)
      obtain ⟨T', hinvT', hleT', hnew⟩ := hinvT.mapBinding hfits
        (fun hgoal ty hmeets => hsettles hgoal ty (meets_cons.mpr (.inl hmeets)))
        fun inner hinner => ihinner inner hinner hinvT (hfits.inner inner hinner)
      have hchain' := hleT' _ (hleT _ hchain)
      obtain ⟨U, hinvU, hleU, hU⟩ := Kept.remember hchain'
        (hinvT'.imageOf hchain' (hbase.mono hleT') hnew)
      exact ⟨U, hinvU, fun c hc => hleU c (hleT' c (hleT c hc)), hU⟩

end

/-- Mapping the types of a context leads to a larger heap. The result is settled if
the mapping settles every type that it meets. -/
theorem Heap.mapTypes (hheap : Heap start next S) (hctx : S ctx) (goal : Prop)
    (hstrict : goal → start.isSome) (hsettles : goal → ∀ ty, Meets ctx ty → Settles f ty) :
    Grown start S (ctx.mapTypes f next).2 fun T =>
      IsImage f goal start T ctx (ctx.mapTypes f next).1 := by
  have hinv : PassInv f goal start S ⟨next, []⟩ :=
    ⟨hstrict, hheap, fun _ himage => by cases himage⟩
  obtain ⟨T, hinvT, hle, hT⟩ := hinv.mapChain hctx hsettles
  exact ⟨T, hinvT.heap, hle, hT⟩

/-- Without a start, mapping the types of a context gives its image. -/
theorem Heap.mapped_mapTypes (hheap : Heap none next S) (hctx : S ctx) :
    Mapped f ctx (ctx.mapTypes f next).1 := by
  obtain ⟨T, -, -, himage⟩ := hheap.mapTypes hctx False False.elim False.elim
  exact himage.mapped rfl

/-! ## What a collecting pass finds -/

variable {seen : List Nat} {ok : Ty → Prop} {next : Nat}

theorem chainTypes_of_seen (hseen : entry.stamp ∈ seen) :
    chainTypes (entry :: older) seen = ([], seen) := by
  simp only [chainTypes, bind_apply, get_apply, contains_iff_mem.mpr hseen, if_true,
    pure_apply]

theorem chainTypes_of_unseen (hunseen : entry.stamp ∉ seen) :
    chainTypes (entry :: older) seen =
      let before := chainTypes older seen
      let own := bindingTypes entry.binding before.2
      (before.1 ++ own.1, entry.stamp :: own.2) := by
  have hcontains : seen.contains entry.stamp = false := by simpa using hunseen
  simp only [chainTypes, bind_apply, get_apply, hcontains]
  cases entry
  rfl

/-- Of a binding that is not global its own type is collected, and what is inside it. -/
theorem bindingTypes_eq (binding : Binding) (seen : List Nat) :
    bindingTypes binding seen =
      if binding.isGlobal then ([], seen)
      else binding.inner?.elim (binding.type?.toList, seen) fun inner =>
        (binding.type?.toList ++ (chainTypes inner seen).1, (chainTypes inner seen).2) := by
  cases binding with
  | typed _ _ isGlobal | typeAlias _ _ isGlobal => cases isGlobal <;> rfl
  | defined _ _ _ inner isGlobal => cases isGlobal <;> cases inner <;> rfl
  | typeParameter => rfl

theorem holes_of_meets (hmeets : Meets ctx ty) (hctx : isSettled ctx) : ty.holes = [] := by
  induction hmeets with
  | here _ htype => exact (isSettled_cons.mp hctx).1.holes_of_type htype
  | inner _ hinner _ ih => exact ih ((isSettled_cons.mp hctx).1.2 _ hinner)
  | older _ ih => exact ih (isSettled_cons.mp hctx).2

/-- All types met in the chains that start at entries seen so far are known. -/
def SeenKnown (S : Context → Prop) (seen : List Nat) (ok : Ty → Prop) : Prop :=
  ∀ (entry : Entry Binding) (older : Context), S (entry :: older) → entry.stamp ∈ seen →
    ∀ ty, Meets (entry :: older) ty → ok ty

/-- Contexts from which types can be collected by going by the stamps: once the types of a
chain are known, so are those of every chain that starts at an entry with its stamp. -/
structure Collectable (S : Context → Prop) (ok : Ty → Prop) : Prop where
  older : ∀ {entry older}, S (entry :: older) → S older
  inner : ∀ {entry : Entry Binding} {older inner}, S (entry :: older) →
    entry.binding.isGlobal = false → entry.binding.inner? = some inner → S inner
  again : ∀ {entry older entry' older'}, S (entry :: older) → S (entry' :: older') →
    entry'.stamp = entry.stamp → (∀ ty, Meets (entry :: older) ty → ok ty) →
    ∀ ty, Meets (entry' :: older') ty → ok ty

/-- In a heap, other entries with the stamp of an entry are settled, and have nothing to be
collected. -/
theorem Heap.collectable (hheap : Heap start next S) (hclosed : ∀ ty, ty.holes = [] → ok ty) :
    Collectable S ok where
  older := hheap.older
  inner hchain _ hinner := (hheap.fits hchain).inner _ hinner
  again hchain hchain' hstamp hmeets ty hmeets' := by
    rename_i entry older entry' older'
    by_cases hold : ∃ first ∈ start, entry'.stamp < first
    · obtain ⟨first, hfirst, hlt⟩ := hold
      exact hclosed ty (holes_of_meets hmeets' (hheap.settled hchain' first hfirst hlt))
    · rw [hheap.unique hchain' hchain hstamp fun first hfirst =>
        Nat.le_of_not_lt fun hlt => hold ⟨first, hfirst, hlt⟩] at hmeets'
      exact hmeets ty hmeets'

theorem SeenKnown.add (hcollect : Collectable S ok) (hknown : SeenKnown S seen ok)
    (hchain : S (entry :: older)) (hmeets : ∀ ty, Meets (entry :: older) ty → ok ty) :
    SeenKnown S (entry.stamp :: seen) ok := by
  intro entry' older' hchain' hseen ty hmeets'
  rcases mem_cons.mp hseen with hstamp | hseen
  · exact hcollect.again hchain hchain' hstamp hmeets ty hmeets'
  · exact hknown entry' older' hchain' hseen ty hmeets'

/-- Collecting from a chain leaves out only what was collected before. -/
theorem Collectable.chainTypes (hcollect : Collectable S ok) (hchain : S chain)
    (hknown : SeenKnown S seen ok) (htypes : ∀ ty ∈ (chainTypes chain seen).1, ok ty) :
    SeenKnown S (chainTypes chain seen).2 ok ∧ ∀ ty, Meets chain ty → ok ty := by
  induction chain using induct generalizing seen with
  | nil => exact ⟨hknown, fun _ hmeets => by cases hmeets⟩
  | cons entry older ihinner ih =>
    by_cases hseen : entry.stamp ∈ seen
    · rw [chainTypes_of_seen hseen]
      exact ⟨hknown, hknown entry older hchain hseen⟩
    · rw [chainTypes_of_unseen hseen] at htypes ⊢
      simp only [forall_mem_append] at htypes
      obtain ⟨hknownOlder, holder⟩ := ih (hcollect.older hchain) hknown htypes.1
      have hentry : SeenKnown S (bindingTypes entry.binding (chainTypes older seen).2).2 ok ∧
          ∀ ty, MeetsIn entry.binding ty → ok ty := by
        have hown := htypes.2
        rw [bindingTypes_eq] at hown ⊢
        cases hglobal : entry.binding.isGlobal with
        | true => exact ⟨hknownOlder, fun _ hmeets => by cases hglobal.symm.trans hmeets.1⟩
        | false =>
          cases hinside : entry.binding.inner? with
          | none =>
            refine ⟨hknownOlder, ?_⟩
            simpa [MeetsIn, hglobal, hinside] using hown
          | some inner =>
            simp only [hglobal, hinside, Bool.false_eq_true, if_false, elim_some,
              forall_mem_append] at hown
            obtain ⟨hknownInner, hinner⟩ := ihinner inner hinside
              (hcollect.inner hchain hglobal hinside) hknownOlder hown.2
            refine ⟨hknownInner, ?_⟩
            rintro ty ⟨-, htype | ⟨_, hsame, hmeets⟩⟩
            · exact hown.1 ty (mem_toList.mpr htype)
            · cases hinside.symm.trans hsame
              exact hinner ty hmeets
      have hmeets (ty : Ty) (hmeets : Meets (entry :: older) ty) : ok ty :=
        (meets_cons.mp hmeets).elim (hentry.2 ty) (holder ty)
      exact ⟨SeenKnown.add hcollect hentry.1 hchain hmeets, hmeets⟩

/-- What holds of the collected types holds of every type that a pass meets. -/
theorem Collectable.of_reachableTypes (hcollect : Collectable S ok) (hctx : S ctx)
    (hfound : ∀ ty ∈ ctx.reachableTypes, ok ty) : ∀ ty, Meets ctx ty → ok ty :=
  (hcollect.chainTypes hctx (fun _ _ _ hseen => by cases hseen) hfound).2

/-- What holds of types without placeholders and of the collected types holds of every
type that a pass meets. -/
theorem Heap.of_reachableTypes (hheap : Heap start next S) (hctx : S ctx)
    (hclosed : ∀ ty, ty.holes = [] → ok ty) (hfound : ∀ ty ∈ ctx.reachableTypes, ok ty) :
    ∀ ty, Meets ctx ty → ok ty :=
  (hheap.collectable hclosed).of_reachableTypes hctx hfound

theorem meets_of_mem_chainTypes (chain : Context) (seen : List Nat)
    (hty : ty ∈ (chainTypes chain seen).1) : Meets chain ty := by
  induction chain using induct generalizing seen with
  | nil => cases hty
  | cons entry older ihinner ih =>
    by_cases hseen : entry.stamp ∈ seen
    · rw [chainTypes_of_seen hseen] at hty
      cases hty
    · rw [chainTypes_of_unseen hseen] at hty
      rcases mem_append.mp hty with hty | hty
      · exact .older (ih seen hty)
      · rw [bindingTypes_eq] at hty
        cases hglobal : entry.binding.isGlobal with
        | true =>
          rw [hglobal] at hty
          cases hty
        | false =>
          cases hinside : entry.binding.inner? with
          | none => exact .here hglobal (by simpa [hglobal, hinside] using hty)
          | some inner =>
            simp only [hglobal, hinside, Bool.false_eq_true, if_false, elim_some, mem_append,
              mem_toList] at hty
            exact hty.elim (.here hglobal) fun hty =>
              .inner hglobal hinside (ihinner inner hinside _ hty)

end RowScript.Context
