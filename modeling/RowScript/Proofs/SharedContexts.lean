import RowScript.Proofs.InnerContexts

/-!
# Contexts that share entries

What the operations on contexts promise to those who go by the identity of entries:
`mapTypes_plain`, `merge_union` and `solve_retains_scope`.
-/

namespace RowScript

open List Context

namespace Context

variable {f : Ty → Option Ty} {next : Nat} {S : Context → Prop} {ctx a b image : Context}
  {binding : Binding}

/-- Contexts that were made one after the other, with one supply of stamps: a name is bound on
top of a context, types are mapped, contexts are merged, and the parts of a context are looked
at. To rebuild a chain with any other bindings is to bind its names again, one by one, on top of
the part that is kept. -/
inductive History : Nat → List Context → Prop where
  | empty : History 0 [[]]
  | extend {next : Nat} {made : List Context} {ctx : Context} (name : String) {binding : Binding}
      (hmade : History next made) (hctx : ctx ∈ made)
      (hinner : ∀ inner, binding.inner? = some inner → inner ∈ made) :
      History (ctx.extend name binding next).2 ((ctx.extend name binding next).1 :: made)
  | map {next : Nat} {made : List Context} {ctx : Context} (f : Ty → Option Ty)
      (hmade : History next made) (hctx : ctx ∈ made) :
      History (ctx.mapTypes f next).2 ((ctx.mapTypes f next).1 :: made)
  | merge {next : Nat} {made : List Context} {a b : Context}
      (hmade : History next made) (ha : a ∈ made) (hb : b ∈ made) :
      History (a.merge b next).2 ((a.merge b next).1 :: made)
  | older {next : Nat} {made : List Context} {entry : Entry Binding} {older : Context}
      (hmade : History next made) (hctx : entry :: older ∈ made) : History next (older :: made)
  | inner {next : Nat} {made : List Context} {entry : Entry Binding} {older inner : Context}
      (hmade : History next made) (hctx : entry :: older ∈ made)
      (hinner : entry.binding.inner? = some inner) : History next (inner :: made)

theorem History.heap {made : List Context} (hmade : History next made) :
    ∃ S, Heap none next S ∧ ∀ c ∈ made, S c := by
  induction hmade with
  | empty =>
    refine ⟨fun c => c = [], ⟨nofun, rfl, ?_, ?_, ?_, ?_, ?_⟩, by simp⟩
    all_goals
      intros
      contradiction
  | extend name _ hctx hinner ih =>
    obtain ⟨S, hheap, hmem⟩ := ih
    obtain ⟨T, hT, hle, hnew⟩ := hheap.extend name (hmem _ hctx)
      ⟨fun inner h => hmem _ (hinner inner h), nofun, nofun⟩
    exact ⟨T, hT, forall_mem_cons.mpr ⟨hnew, fun c hc => hle _ (hmem c hc)⟩⟩
  | map f _ hctx ih =>
    obtain ⟨S, hheap, hmem⟩ := ih
    obtain ⟨T, hT, hle, hnew⟩ :=
      hheap.mapTypes (f := f) (hmem _ hctx) False False.elim False.elim
    exact ⟨T, hT, forall_mem_cons.mpr ⟨hnew.mem, fun c hc => hle _ (hmem c hc)⟩⟩
  | merge _ ha hb ih =>
    obtain ⟨S, hheap, hmem⟩ := ih
    obtain ⟨T, hT, hle, hnew⟩ := hheap.merge (hmem _ ha) (hmem _ hb)
    exact ⟨T, hT, forall_mem_cons.mpr ⟨hnew, fun c hc => hle _ (hmem c hc)⟩⟩
  | older _ hctx ih =>
    obtain ⟨S, hheap, hmem⟩ := ih
    exact ⟨S, hheap, forall_mem_cons.mpr ⟨hheap.older (hmem _ hctx), hmem⟩⟩
  | inner _ hctx hinner ih =>
    obtain ⟨S, hheap, hmem⟩ := ih
    exact ⟨S, hheap, forall_mem_cons.mpr ⟨(hheap.fits (hmem _ hctx)).inner _ hinner, hmem⟩⟩

/-- A name whose type is not known yet. -/
def openScope : Context := [⟨0, "x", .typed (.hole 1) .synthetic false⟩]

theorem history_openScope : History 1 [openScope, []] := .extend "x" .empty mem_cons_self nofun

theorem eq_of_meets_openScope {ty : Ty} (hmeets : Meets openScope ty) : ty = .hole 1 := by
  obtain ⟨-, htype | ⟨inner, hinner, -⟩⟩ | hmeets := meets_cons.mp hmeets
  · exact (Option.some.inj htype).symm
  · cases hinner
  · cases hmeets

/-- A value on top of the name, which is in scope where the value was defined, too. -/
def sharedContext : Context :=
  ⟨1, "g", .defined (.unit .synthetic) (some (.hole 2)) .synthetic (some openScope) false⟩ ::
    openScope

theorem history_sharedContext : History 2 [sharedContext, openScope, []] :=
  .extend "g" history_openScope mem_cons_self fun _ hinner =>
    Option.some.inj hinner ▸ mem_cons_self

mutual

/-- The recursion over a context that maps its types, without a table of images. -/
def mapPlain (f : Ty → Option Ty) : List (Entry Binding) → Context
  | [] => []
  | entry :: older => mapEntryPlain f entry :: mapPlain f older

def mapEntryPlain (f : Ty → Option Ty) : Entry Binding → Entry Binding
  | ⟨stamp, name, binding⟩ => ⟨stamp, name, mapBindingPlain f binding⟩

def mapBindingPlain (f : Ty → Option Ty) : Binding → Binding
  | .typed type nameLoc false => .typed (mapped f type) nameLoc false
  | .typeAlias type nameLoc false => .typeAlias (mapped f type) nameLoc false
  | .defined term type nameLoc none false =>
    .defined term (type.map (mapped f)) nameLoc none false
  | .defined term type nameLoc (some inner) false =>
    .defined term (type.map (mapped f)) nameLoc (some (mapPlain f inner)) false
  | binding => binding

end

mutual

/-- The context with all stamps forgotten. -/
def unstamped : List (Entry Binding) → Context
  | [] => []
  | entry :: older => unstampedEntry entry :: unstamped older

def unstampedEntry : Entry Binding → Entry Binding
  | ⟨_, name, binding⟩ => ⟨0, name, unstampedBinding binding⟩

def unstampedBinding : Binding → Binding
  | .defined term type nameLoc (some inner) isGlobal =>
    .defined term type nameLoc (some (unstamped inner)) isGlobal
  | binding => binding

end

theorem mapBindingPlain_global (hglobal : binding.isGlobal) :
    mapBindingPlain f binding = binding := by
  cases binding with
  | defined term type nameLoc inner isGlobal =>
    cases hglobal
    cases inner with
    | none | some inner => rfl
  | typeParameter => rfl
  | _ =>
    cases hglobal
    rfl

theorem mapBindingPlain_leaf (hlocal : binding.isGlobal = false) (hinner : binding.inner? = none) :
    mapBindingPlain f binding = rebuilt f none binding := by
  cases binding with
  | defined term type nameLoc inner isGlobal =>
    cases hlocal
    cases hinner
    rfl
  | typeParameter => rfl
  | _ =>
    cases hlocal
    rfl

mutual

/-- An image has the contents that the plain recursion gives. -/
theorem Mapped.unstamped : ∀ {ctx image : List (Entry Binding)}, Mapped f ctx image →
    Context.unstamped image = Context.unstamped (mapPlain f ctx)
  | [], _, .nil => rfl
  | ⟨_, _, _⟩ :: _, ⟨_, _, _⟩ :: _, .cons hname hbinding holder _ => by
    cases hname
    rw [mapPlain, Context.unstamped, Context.unstamped, holder.unstamped, mapEntryPlain,
      unstampedEntry, unstampedEntry, hbinding.unstamped]

theorem MappedBinding.unstamped : ∀ {binding image : Binding}, MappedBinding f binding image →
    unstampedBinding image = unstampedBinding (mapBindingPlain f binding)
  | _, _, .global hglobal => by rw [mapBindingPlain_global hglobal]
  | _, _, .leaf hlocal hinner => by rw [mapBindingPlain_leaf hlocal hinner]
  | _, _, .defined term type nameLoc hinner => by
    rw [mapBindingPlain, unstampedBinding, unstampedBinding, hinner.unstamped]

end

theorem Mapped.names (hmapped : Mapped f ctx image) :
    image.map Entry.name = ctx.map Entry.name := by
  induction ctx generalizing image with
  | nil =>
    cases hmapped
    rfl
  | cons entry older ih =>
    cases hmapped with
    | cons hname _ holder => rw [map_cons, map_cons, hname, ih holder]

/-- What is left of an image behind its first entries is an image, too. -/
theorem Mapped.drop (hmapped : Mapped f ctx image) (i : Nat) :
    Mapped f (ctx.drop i) (image.drop i) := by
  induction i generalizing ctx image with
  | zero => exact hmapped
  | succ i ih =>
    cases hmapped with
    | nil => exact .nil
    | cons _ _ holder => exact ih holder

/-- In contexts that share entries in any way, the map with a table gives what the recursion
without one gives, under the names of the context in their order. From any entry on, image and
context are the same chain if and only if the mapping leaves alone all types that are met from
there on, and this holds for the contexts inside values as well. -/
theorem mapTypes_plain (hheap : Heap none next S) (hctx : S ctx) (f : Ty → Option Ty) :
    (ctx.mapTypes f next).1.map Entry.name = ctx.map Entry.name ∧
      unstamped (ctx.mapTypes f next).1 = unstamped (mapPlain f ctx) ∧
      (∀ i, same ((ctx.mapTypes f next).1.drop i) (ctx.drop i) = true ↔ Spares f (ctx.drop i)) ∧
      (∀ i, same ((ctx.mapTypes f next).1.drop i) (ctx.drop i) = true →
        (ctx.mapTypes f next).1.drop i = ctx.drop i) ∧
      Mapped f ctx (ctx.mapTypes f next).1 ∧
      ∃ T, Heap none (ctx.mapTypes f next).2 T ∧ (∀ c, S c → T c) ∧ T (ctx.mapTypes f next).1 := by
  obtain ⟨T, hT, hle, himage⟩ := hheap.mapTypes (f := f) hctx False False.elim False.elim
  have hmapped := himage.mapped rfl
  have hsame (i : Nat) (hsame : same ((ctx.mapTypes f next).1.drop i) (ctx.drop i) = true) :
      (ctx.mapTypes f next).1.drop i = ctx.drop i := by
    have hdrop {c : Context} (hc : T c) : T (c.drop i) :=
      hT.of_append (c.take i) ((take_append_drop i c).symm ▸ hc)
    exact hT.eq_of_same (hdrop himage.mem) (hdrop (hle _ hctx)) hsame
  refine ⟨hmapped.names, hmapped.unstamped, fun i => ?_, hsame, hmapped, T, hT, hle, himage.mem⟩
  rw [← (hmapped.drop i).eq_iff]
  exact ⟨hsame i, fun heq => heq ▸ same_refl _⟩

/-- Only the value is rebuilt when its placeholder is replaced. The name below it is kept. -/
theorem mapTypes_plain_sharedContext :
    ∃ S, Heap none 2 S ∧ S sharedContext ∧
      let image := (sharedContext.mapTypes (·.replace? (.hole 2) .number) 2).1
      unstamped image = unstamped (mapPlain (·.replace? (.hole 2) .number) sharedContext) ∧
        image.drop 1 = sharedContext.drop 1 ∧ same image sharedContext = false := by
  obtain ⟨S, hheap, hmem⟩ := history_sharedContext.heap
  have hctx := hmem _ mem_cons_self
  obtain ⟨-, hplain, hsame, heq, -⟩ := mapTypes_plain hheap hctx (·.replace? (.hole 2) .number)
  refine ⟨S, hheap, hctx, hplain, heq 1 ((hsame 1).mpr fun ty hmeets => ?_), rfl⟩
  rw [eq_of_meets_openScope hmeets]
  rfl

/-- Bindings whose names are all bound already add nothing. -/
theorem foldlM_of_binds {items : List (Entry Binding)}
    (hitems : ∀ item ∈ items, ctx.binds item.name) :
    items.foldlM (fun (ctx : Context) entry =>
      if ctx.binds entry.name then (pure ctx : Stamped Context)
      else ctx.extend entry.name entry.binding) ctx next = (ctx, next) := by
  induction items with
  | nil => rfl
  | cons item rest ih =>
    rw [forall_mem_cons] at hitems
    rw [foldlM_cons, bind_apply, if_pos hitems.1]
    exact ih hitems.2

/-- A merge is a union in which the first context has the say. Of two contexts with a common
history, the first one stays as it is below what is added. It keeps its say on its names; the
names of both are bound and no others, and each one that is added is added once, with what it
stands for in the second context. Merging the second context again changes nothing. -/
theorem merge_union {made : List Context} (hmade : History next made) (ha : a ∈ made)
    (hb : b ∈ made) :
    (∃ added, (a.merge b next).1 = added ++ a ∧ (added.map Entry.name).Nodup ∧
      ∀ entry ∈ added, a.binds entry.name = false ∧
        ∃ item ∈ b, item.name = entry.name ∧ item.binding = entry.binding) ∧
    (∀ name binding, a.find? name = some binding →
      (a.merge b next).1.find? name = some binding) ∧
    (∀ name, (a.merge b next).1.binds name = (a.binds name || b.binds name)) ∧
    ∀ later, (a.merge b next).1.merge b later = ((a.merge b next).1, later) := by
  obtain ⟨S, hheap, hmem⟩ := hmade.heap
  have habsorbs := hheap.absorbs_merge (hmem a ha) (hmem b hb)
  refine ⟨habsorbs.append, fun name binding => habsorbs.find?, fun name => ?_, fun later => ?_⟩
  · rw [Bool.eq_iff_iff, Bool.or_eq_true]
    refine ⟨fun hbound => ?_, fun hbound => hbound.elim habsorbs.binds_of_binds
      habsorbs.binds_of_item⟩
    obtain ⟨entry, hentry, rfl⟩ := exists_mem_of_binds hbound
    refine (habsorbs.mem entry hentry).imp binds_of_mem ?_
    rintro ⟨item, hitem, hname, -⟩
    exact hname ▸ binds_of_mem hitem
  · refine foldlM_of_binds fun item hitem => habsorbs.binds item ?_
    exact takeWhile_subset _ (mem_reverse.mp hitem)

/-- The name that both contexts have on their own keeps what the first one says, and the entry
that they share is not added again. -/
theorem merge_union_twoFields :
    let scope : Context := [⟨0, "x", .typed .number .synthetic false⟩]
    let a : Context := ⟨1, "y", .typed .number .synthetic false⟩ :: scope
    let b : Context := ⟨3, "y", .typed .string .synthetic false⟩ ::
      ⟨2, "z", .typed .string .synthetic false⟩ :: scope
    History 4 [b, b.drop 1, a, scope, []] ∧
      (a.merge b 4).1.find? "y" = some (.typed .number .synthetic false) ∧
      (a.merge b 4).1.binds "z" = true ∧ ∀ later, (a.merge b 4).1.merge b later =
        (⟨4, "z", .typed .string .synthetic false⟩ :: a, later) := by
  intro scope a b
  have hscope : History 1 [scope, []] := .extend "x" .empty mem_cons_self nofun
  have ha : History 2 [a, scope, []] := .extend "y" hscope mem_cons_self nofun
  have hb : History 3 [b.drop 1, a, scope, []] :=
    .extend "z" ha (mem_cons_of_mem _ mem_cons_self) nofun
  have hmade : History 4 [b, b.drop 1, a, scope, []] := .extend "y" hb mem_cons_self nofun
  obtain ⟨-, hfind, hbinds, hagain⟩ := merge_union hmade (a := a) (b := b) (by simp) (by simp)
  exact ⟨hmade, hfind "y" _ rfl, (hbinds "z").trans rfl, hagain⟩

end Context

namespace Inference

open Context (Heap Meets)

variable {fuel : Nat} {ctx : Context} {checker : Checker} {S : Context → Prop}

/-- Inference leaves the entries of its context where they are. If all placeholders of a
context were handed out, the context as seen from inside a term ends in the very entries of the
context. When the contexts of terms that were solved in it one after the other are merged, its
entries are neither dropped nor added again: what is added comes from what the second context
has on top of them. -/
theorem solve_retains_scope (hheap : Heap none checker.stamp S) (hctx : S ctx)
    (hissued : ∀ ty, Meets ctx ty → ∀ id ∈ ty.holes, id ≤ checker.counter) :
    (∀ term solved final, solve fuel ctx term checker = .ok solved final →
      ctx <:+ solved.inner) ∧
    ∀ terms solved final, SolvesAll (solve fuel) ctx terms checker solved final →
      ∀ a ∈ solved, ∀ b ∈ solved, ∃ own added : Context, b.inner = own ++ ctx ∧
        (a.inner.merge b.inner final.stamp).1 = added ++ a.inner ∧ ctx <:+ a.inner ∧
        ∀ entry ∈ added, a.inner.binds entry.name = false ∧
          ∃ item ∈ own, item.name = entry.name ∧ item.binding = entry.binding := by
  have hsuffix {terms : List Term} {solved : List Solved} {final : Checker}
      (hall : SolvesAll (solve fuel) ctx terms checker solved final) :
      ∀ s ∈ solved, ctx <:+ s.inner := by
    obtain ⟨-, -, T, -, -, -, hsolved⟩ :=
      all_keep (solvesInHeap_solve fuel) hheap hctx hall nofun
    exact fun s hs => (hsolved s hs).retains rfl ctx suffix_rfl hissued
  refine ⟨fun term solved final hrun => hsuffix (.cons hrun .nil) solved mem_cons_self,
    fun terms solved final hall a ha b hb => ?_⟩
  obtain ⟨own, hown⟩ := hsuffix hall b hb
  have hscope := hsuffix hall a ha
  obtain ⟨added, hmerged, -, hadded⟩ := (absorbs_foldlM
    (b.inner.takeWhile fun entry => !a.inner.any (·.stamp = entry.stamp)).reverse a.inner
    final.stamp).append
  refine ⟨own, added, hown.symm, hmerged, hscope, fun entry hentry => ?_⟩
  obtain ⟨hunbound, item, hitem, heq⟩ := hadded entry hentry
  -- an entry of the scope is an entry of the first context, and is not among those looked at
  have hitem := mem_reverse.mp hitem
  have hnew : item ∉ ctx := by
    intro hold
    have hlooked := all_eq_true.mp all_takeWhile item hitem
    simp only [Bool.not_eq_eq_eq_not, Bool.not_true, any_eq_false, decide_eq_true_eq] at hlooked
    exact hlooked item (hscope.subset hold) rfl
  have hmem := takeWhile_subset _ hitem
  rw [← hown, mem_append] at hmem
  exact ⟨hunbound, item, hmem.resolve_right hnew, heq⟩

/-- A function is solved in a context with an open type. Its parameter and the letter for the
parameter's type come on top of the context. -/
theorem solve_retains_scope_constant :
    let constant :=
      Term.function (some ⟨"y", .synthetic⟩) (.reference "x" .synthetic) none .synthetic
    ∃ S solved final, Heap none 1 S ∧ S Context.openScope ∧
      solve 9 Context.openScope constant { counter := 1, stamp := 1 } = .ok solved final ∧
      Context.openScope <:+ solved.inner ∧ solved.inner.map Entry.name = ["a", "y", "x"] := by
  intro constant
  obtain ⟨S, hheap, hmem⟩ := history_openScope.heap
  have hctx := hmem _ mem_cons_self
  have hissued (ty : Ty) (hmeets : Meets openScope ty) : ∀ id ∈ ty.holes, id ≤ 1 := by
    rw [eq_of_meets_openScope hmeets]
    decide
  have hyields : (solve 9 openScope constant).yields { counter := 1, stamp := 1 }
      (fun solved _ => solved.inner.map Entry.name = ["a", "y", "x"]) = true := by decide +kernel
  obtain ⟨solved, final, hrun, hnames⟩ := CheckM.exists_of_yields hyields
  have hkept := (solve_retains_scope hheap hctx hissued).1 constant solved final hrun
  exact ⟨S, solved, final, hheap, hctx, hrun, hkept, of_decide_eq_true hnames⟩

end Inference

end RowScript
