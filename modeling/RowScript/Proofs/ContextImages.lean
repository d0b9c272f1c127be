import RowScript.Proofs.Passes
import RowScript.Proofs.WrittenTypes

/-!
# What passes and merges make of a context

When stamps identify entries, mapping the types of a context gives the same names in the same order,
each type mapped, and merging two contexts binds the names of both and keeps what the first one
says.
-/

namespace RowScript.Context

open List

variable {f : Ty → Option Ty} {name : String} {next : Nat} {S : Context → Prop}
  {entry : Entry Binding} {ctx other older image : Context} {solved : List Solved}

/-- A name stands in the image for the image of what it stands for. -/
theorem Mapped.find? (hmapped : Mapped f ctx image) (name : String) :
    Option.Rel (MappedBinding f) (ctx.find? name) (image.find? name) := by
  induction ctx generalizing image with
  | nil =>
    cases hmapped
    exact .none
  | cons entry older ih =>
    obtain ⟨stamp, entryName, binding⟩ := entry
    cases hmapped with
    | cons hname hbinding holder =>
      rename_i top base _
      obtain ⟨stamp', name', binding'⟩ := top
      obtain rfl : name' = entryName := hname
      rw [find?_cons, find?_cons]
      split
      · exact .some hbinding
      · exact ih holder

theorem Mapped.binds (hmapped : Mapped f ctx image) : image.binds name = ctx.binds name := by
  have hrel := hmapped.find? name
  unfold Context.binds
  generalize ctx.find? name = found, image.find? name = foundImage at hrel
  cases hrel with
  | none => rfl
  | some => rfl

/-- Entries are kept, with all that is older, if the mapping leaves alone what is met there. -/
theorem Mapped.suffix {base : Context} (hmapped : Mapped f ctx image) (hbase : base <:+ ctx)
    (hspares : Spares f base) : base <:+ image := by
  induction ctx generalizing image with
  | nil =>
    cases hmapped
    exact hbase
  | cons entry older ih =>
    obtain rfl | hbase := suffix_cons_iff.mp hbase
    · exact hmapped.eq_iff.mpr hspares ▸ hbase
    · cases hmapped with
      | cons _ _ holder _ => exact (ih holder hbase).trans (suffix_cons _ _)

theorem binds_of_mem (hentry : entry ∈ ctx) : ctx.binds entry.name := by
  rw [binds, find?, Option.isSome_map, find?_isSome]
  exact ⟨entry, hentry, decide_eq_true rfl⟩

theorem exists_mem_of_binds (hbinds : ctx.binds name) : ∃ entry ∈ ctx, entry.name = name := by
  rw [binds, find?, Option.isSome_map, find?_isSome] at hbinds
  obtain ⟨entry, hentry, hname⟩ := hbinds
  exact ⟨entry, hentry, of_decide_eq_true hname⟩

theorem binds_cons :
    binds (entry :: ctx) name = (decide (name = entry.name) || ctx.binds name) := by
  obtain ⟨stamp, top, binding⟩ := entry
  rw [binds, find?_cons, binds]
  by_cases hname : name = top
  · simp [hname]
  · simp [hname]

theorem binds_append {newer : Context} :
    binds (newer ++ ctx) name = (newer.binds name || ctx.binds name) := by
  induction newer with
  | nil => rfl
  | cons entry newer ih => rw [cons_append, binds_cons, binds_cons, ih, Bool.or_assoc]

/-- A context with further bindings added, as a merge does it: each one under a name that is
not bound yet. -/
structure Absorbs (ctx : Context) (items : List (Entry Binding)) (result : Context) : Prop where
  append : ∃ added : Context, result = added ++ ctx ∧ (added.map Entry.name).Nodup ∧
    ∀ entry ∈ added, ctx.binds entry.name = false ∧
      ∃ item ∈ items, item.name = entry.name ∧ item.binding = entry.binding
  binds : ∀ item ∈ items, result.binds item.name

section Absorbs

variable {items : List (Entry Binding)} {result : Context}

theorem Absorbs.suffix (habsorbs : Absorbs ctx items result) : ctx <:+ result := by
  obtain ⟨added, rfl, -⟩ := habsorbs.append
  exact suffix_append added ctx

theorem Absorbs.mem (habsorbs : Absorbs ctx items result) : ∀ entry ∈ result, entry ∈ ctx ∨
    ∃ item ∈ items, item.name = entry.name ∧ item.binding = entry.binding := by
  obtain ⟨added, rfl, -, hadded⟩ := habsorbs.append
  intro entry hentry
  exact (mem_append.mp hentry).symm.imp_right fun hentry => (hadded entry hentry).2

theorem Absorbs.find? {binding : Binding} (habsorbs : Absorbs ctx items result)
    (hfind : ctx.find? name = some binding) : result.find? name = some binding := by
  obtain ⟨added, rfl, -, hadded⟩ := habsorbs.append
  have hnone : List.find? (fun entry => entry.name = name) added = none := by
    refine find?_eq_none.mpr fun entry hentry hname => ?_
    have hunbound := (hadded entry hentry).1
    rw [of_decide_eq_true hname, Context.binds, hfind] at hunbound
    cases hunbound
  rwa [find?, find?_append, hnone, Option.none_or]

theorem Absorbs.binds_of_binds (habsorbs : Absorbs ctx items result)
    (hbinds : ctx.binds name) : result.binds name := by
  obtain ⟨added, rfl, -⟩ := habsorbs.append
  rw [binds_append, hbinds, Bool.or_true]

theorem Absorbs.binds_of_item {items : Context} (habsorbs : Absorbs ctx items result)
    (hbinds : items.binds name) : result.binds name := by
  obtain ⟨entry, hentry, rfl⟩ := exists_mem_of_binds hbinds
  exact habsorbs.binds entry hentry

end Absorbs

theorem absorbs_foldlM (items : List (Entry Binding)) (ctx : Context) (next : Nat) :
    Absorbs ctx items (items.foldlM (fun (ctx : Context) entry =>
      if ctx.binds entry.name then (pure ctx : Stamped Context)
      else ctx.extend entry.name entry.binding) ctx next).1 := by
  induction items generalizing ctx next with
  | nil => exact ⟨⟨[], rfl, nodup_nil, by simp⟩, by simp⟩
  | cons item rest ih =>
    rw [foldlM_cons, bind_apply]
    cases hbound : ctx.binds item.name with
    | true =>
      have hrest := ih ctx next
      obtain ⟨added, heq, hnodup, hadded⟩ := hrest.append
      refine ⟨⟨added, heq, hnodup, fun entry hentry => (hadded entry hentry).imp_right ?_⟩,
        forall_mem_cons.mpr ⟨hrest.binds_of_binds hbound, hrest.binds⟩⟩
      exact fun ⟨other, hother, heq⟩ => ⟨other, mem_cons_of_mem _ hother, heq⟩
    | false =>
      -- the names that are added later are not the one that was added now
      have hrest := ih (⟨next, item.name, item.binding⟩ :: ctx) (next + 1)
      obtain ⟨added, heq, hnodup, hadded⟩ := hrest.append
      simp only [binds_cons, Bool.or_eq_false_iff, decide_eq_false_iff_not] at hadded
      refine ⟨⟨added ++ [⟨next, item.name, item.binding⟩], ?_, ?_, ?_⟩,
        forall_mem_cons.mpr ⟨hrest.binds_of_binds ?_, hrest.binds⟩⟩
      · rw [append_assoc]
        exact heq
      · rw [map_append, nodup_append]
        refine ⟨hnodup, by simp, fun name hname other hother => ?_⟩
        obtain ⟨entry, hentry, rfl⟩ := mem_map.mp hname
        obtain rfl := mem_singleton.mp hother
        exact (hadded entry hentry).1.1
      · refine forall_mem_append.mpr ⟨fun entry hentry => ?_, forall_mem_singleton.mpr
          ⟨hbound, item, mem_cons_self, rfl, rfl⟩⟩
        obtain ⟨⟨-, hunbound⟩, other, hother, heq⟩ := hadded entry hentry
        exact ⟨hunbound, other, mem_cons_of_mem _ hother, heq⟩
      · rw [binds_cons, decide_eq_true rfl, Bool.true_or]

theorem suffix_merge (ctx other : Context) (next : Nat) : ctx <:+ (ctx.merge other next).1 :=
  (absorbs_foldlM _ ctx next).suffix

theorem Heap.of_append (hheap : Heap none next S) (newer : Context) (hctx : S (newer ++ older)) :
    S older := by
  induction newer with
  | nil => exact hctx
  | cons _ _ ih => exact ih (hheap.older hctx)

/-- A merge binds the names of both contexts, keeps what the first one says and has
bindings of both only. -/
theorem Heap.absorbs_merge (hheap : Heap none next S) (hctx : S ctx) (hother : S other) :
    Absorbs ctx other (ctx.merge other next).1 := by
  have habsorbs := absorbs_foldlM
    (other.takeWhile fun entry => !ctx.any (·.stamp = entry.stamp)).reverse ctx next
  obtain ⟨added, heq, hnodup, hadded⟩ := habsorbs.append
  refine ⟨⟨added, heq, hnodup, fun entry hentry => (hadded entry hentry).imp_right ?_⟩,
    fun item hitem => ?_⟩
  · exact fun ⟨item, hitem, heq⟩ => ⟨item, takeWhile_subset _ (mem_reverse.mp hitem), heq⟩
  · rw [← takeWhile_append_dropWhile (p := fun entry => !ctx.any (·.stamp = entry.stamp))
      (l := other), mem_append] at hitem
    obtain hitem | hitem := hitem
    · exact habsorbs.binds item (mem_reverse.mpr hitem)
    · -- the rest begins with an entry that both share, so all of it is shared
      refine habsorbs.binds_of_binds (binds_of_mem ?_)
      cases hrest : other.dropWhile (fun entry => !ctx.any (·.stamp = entry.stamp)) with
      | nil =>
        rw [hrest] at hitem
        cases hitem
      | cons first rest =>
        have hshared := head?_dropWhile_not
          (fun entry => !ctx.any (·.stamp = entry.stamp)) other
        rw [hrest] at hshared hitem
        simp only [head?_cons, Bool.not_eq_eq_eq_not, Bool.not_false, any_eq_true,
          decide_eq_true_eq] at hshared
        obtain ⟨found, hfound, hstamp⟩ := hshared
        obtain ⟨newer, below, rfl⟩ := append_of_mem hfound
        have hfirst : S (first :: rest) := by
          refine hheap.of_append (other.takeWhile fun entry =>
            !(newer ++ found :: below).any (·.stamp = entry.stamp)) ?_
          rw [← hrest, takeWhile_append_dropWhile]
          exact hother
        rw [← hheap.unique (hheap.of_append newer hctx) hfirst hstamp nofun] at hitem
        exact mem_append_right _ hitem

/-- Joining what subterms bind: a property that merges keep is kept, and the names that
each subterm binds are bound. -/
theorem Heap.mergeInner_induction {P : Context → Prop}
    (hmerge : ∀ {next T a b}, Heap none next T → T a → T b → P a → P b → P (a.merge b next).1)
    (hbinds : ∀ {c}, P c → ∀ {name}, ctx.binds name → c.binds name) (hheap : Heap none next S)
    (hctx : S ctx) (hbase : P ctx) (hsolved : ∀ s ∈ solved, S s.inner ∧ P s.inner) :
    P (Inference.mergeInner ctx solved next).1 ∧ ∀ s ∈ solved, ∀ {name},
      s.inner.binds name → (Inference.mergeInner ctx solved next).1.binds name := by
  -- the loop is followed from any result that it may have reached so far
  suffices hloop : ∀ (inner : Context) (next : Nat) (T : Context → Prop), Heap none next T →
      (∀ c, S c → T c) → T inner → P inner →
      let result := (solved.foldlM (fun (inner : Context) (s : Solved) =>
        if s.inner.same ctx then (pure inner : Stamped Context)
        else if inner.same ctx then pure s.inner
        else inner.merge s.inner) inner next).1
      P result ∧ (∀ {name}, inner.binds name = true → result.binds name = true) ∧
        ∀ s ∈ solved, ∀ {name}, s.inner.binds name = true → result.binds name = true by
    have hresult := hloop ctx next S hheap (fun _ hc => hc) hctx hbase
    exact ⟨hresult.1, hresult.2.2⟩
  induction solved with
  | nil => exact fun inner next T hT hle hinner hP => ⟨hP, fun hname => hname, by simp⟩
  | cons s rest ih =>
    intro inner next T hT hle hinner hP
    obtain ⟨⟨hs, hPs⟩, hrest⟩ := forall_mem_cons.mp hsolved
    simp only [foldlM_cons, bind_apply]
    split
    · rename_i hsame
      have heq := hT.eq_of_same (hle _ hs) (hle _ hctx) hsame
      have hresult := ih hrest inner next T hT hle hinner hP
      refine ⟨hresult.1, hresult.2.1, forall_mem_cons.mpr ⟨fun hname => ?_, hresult.2.2⟩⟩
      exact hresult.2.1 (hbinds hP (heq ▸ hname))
    · split
      · rename_i hsame
        have heq := hT.eq_of_same hinner (hle _ hctx) hsame
        have hresult := ih hrest s.inner next T hT hle (hle _ hs) hPs
        refine ⟨hresult.1, fun hname => hresult.2.1 (hbinds hPs (heq ▸ hname)),
          forall_mem_cons.mpr ⟨hresult.2.1, hresult.2.2⟩⟩
      · obtain ⟨T', hT', hle', hmerged⟩ := hT.merge hinner (hle _ hs)
        have habsorbs := hT.absorbs_merge hinner (hle _ hs)
        have hresult := ih hrest _ _ T' hT' (fun c hc => hle' c (hle c hc)) hmerged
          (hmerge hT hinner (hle _ hs) hP hPs)
        refine ⟨hresult.1, fun hname => hresult.2.1 (habsorbs.binds_of_binds hname),
          forall_mem_cons.mpr ⟨fun hname => ?_, hresult.2.2⟩⟩
        exact hresult.2.1 (habsorbs.binds_of_item hname)

/-- The oldest entries of a context are those of a scope, from any point of the scope on from
which no placeholder is newer than a bound. -/
def Retains (bound : Nat) (scope ctx : Context) : Prop :=
  ∀ base, base <:+ scope → (∀ ty, Meets base ty → ∀ id ∈ ty.holes, id ≤ bound) → base <:+ ctx

section Retains

variable {bound : Nat} {scope : Context}

theorem Retains.suffix (hretains : Retains bound scope ctx) (hctx : ctx <:+ other) :
    Retains bound scope other :=
  fun base hbase hold => (hretains base hbase hold).trans hctx

theorem Retains.of_cons (hretains : Retains bound (entry :: scope) ctx) : Retains bound scope ctx :=
  fun base hbase hold => hretains base (hbase.trans (suffix_cons _ _)) hold

theorem Retains.anti {earlier : Nat} (hretains : Retains bound scope ctx)
    (hle : earlier ≤ bound) : Retains earlier scope ctx :=
  fun base hbase hold => hretains base hbase fun ty hty id hid =>
    Nat.le_trans (hold ty hty id hid) hle

/-- Replacing a newer placeholder leaves alone what is older. -/
theorem Retains.replace {id : Nat} (hheap : Heap none next S) (hctx : S ctx)
    (hretains : Retains bound scope ctx) (hid : bound < id) (type : Ty) :
    Retains bound scope (ctx.replace (.hole id) type next).1 := by
  intro base hbase hold
  refine (hheap.mapped_mapTypes hctx).suffix (hretains base hbase hold) fun ty hty => ?_
  rw [Ty.replace?, if_neg]
  intro hoccurs
  exact Nat.not_le_of_lt hid (hold ty hty id (Ty.mem_holes_of_occurs.mp hoccurs))

theorem Retains.mergeInner (hctx : Retains bound scope ctx)
    (hsolved : ∀ s ∈ solved, Retains bound scope s.inner) :
    Retains bound scope (Inference.mergeInner ctx solved next).1 := by
  suffices hloop : ∀ (inner : Context) (next : Nat), Retains bound scope inner →
      Retains bound scope (solved.foldlM (fun (inner : Context) (s : Solved) =>
        if s.inner.same ctx then (pure inner : Stamped Context)
        else if inner.same ctx then pure s.inner
        else inner.merge s.inner) inner next).1 from hloop ctx next hctx
  induction solved with
  | nil => exact fun inner next hinner => hinner
  | cons s rest ih =>
    intro inner next hinner
    obtain ⟨hs, hrest⟩ := forall_mem_cons.mp hsolved
    rw [foldlM_cons, bind_apply]
    refine ih hrest _ _ ?_
    split
    · exact hinner
    · split
      · exact hs
      · exact hinner.suffix (suffix_merge ..)

end Retains

end RowScript.Context
