import RowScript.Inference
import RowScript.Proofs.Typing

/-!
# Settled contexts

A context is settled when no type in it has a placeholder and every defined value has a type. While
a command is checked, `Heap` says that entries made since `start` are identified by their stamps,
and that what is older is settled.
-/

namespace RowScript

open List Binding

/-- Terms in which no written type has a placeholder. -/
def Term.isClosed (term : Term) : Bool :=
  term.allFunctions fun _ ascribed => ascribed.all (·.holes.isEmpty)

namespace Binding

/-- The context kept inside a defined value. -/
def inner? : Binding → Option Context
  | .defined _ _ _ inner _ => inner
  | _ => none

/-- A binding without placeholders, and with a type if it is a defined value. What is
inside is not looked at. -/
def isSettled : Binding → Bool
  | .typed type _ _ | .typeAlias type _ _ => type.holes.isEmpty
  | .defined term type _ _ _ => term.isClosed && type.any (·.holes.isEmpty)
  | .typeParameter => true

/-- A defined value has a type, and its term has no placeholders. -/
def isComplete : Binding → Bool
  | .defined term type _ _ _ => term.isClosed && type.isSome
  | _ => true

end Binding

namespace Context

/-- Induction on a context, also into the contexts kept inside values. -/
@[elab_as_elim]
theorem induct {motive : Context → Prop} (nil : motive [])
    (cons : ∀ entry older, (∀ inner, entry.binding.inner? = some inner → motive inner) →
      motive older → motive (entry :: older)) : ∀ ctx, motive ctx
  | [] => nil
  | ⟨_, _, .defined _ _ _ (some inner) _⟩ :: older =>
    cons _ older (fun _ heq => Option.some.inj heq ▸ induct nil cons inner) (induct nil cons older)
  | ⟨_, _, .defined _ _ _ none _⟩ :: older | ⟨_, _, .typed ..⟩ :: older
  | ⟨_, _, .typeAlias ..⟩ :: older | ⟨_, _, .typeParameter⟩ :: older =>
    cons _ older (fun _ heq => by cases heq) (induct nil cons older)

mutual

/-- Whether all entries of a context pass a check on their stamp and their binding,
also those in the contexts kept inside values. -/
def allEntries (p : Nat → Binding → Bool) : List (Entry Binding) → Bool
  | [] => true
  | entry :: older => entryPasses p entry && allEntries p older

def entryPasses (p : Nat → Binding → Bool) : Entry Binding → Bool
  | ⟨stamp, _, binding⟩ => p stamp binding && insidePasses p binding

def insidePasses (p : Nat → Binding → Bool) : Binding → Bool
  | .defined _ _ _ (some inner) _ => allEntries p inner
  | _ => true

end

/-- No type has a placeholder and every defined value has a type, at any depth. -/
def isSettled (ctx : Context) : Bool := allEntries (fun _ binding => binding.isSettled) ctx

/-- All stamps were drawn from a supply that goes on with `next`. -/
def stampsBelow (next : Nat) (ctx : Context) : Bool :=
  allEntries (fun stamp _ => stamp < next) ctx

variable {p : Nat → Binding → Bool} {entry : Entry Binding} {older ctx other : Context}
  {binding : Binding} {type : Ty} {nameLoc : Loc} {isGlobal : Bool} {term : Term}
  {inner : Option Context} {post : (Context → Prop) → Prop}

theorem insidePasses_iff : insidePasses p binding ↔
    ∀ inner, binding.inner? = some inner → allEntries p inner := by
  cases binding with
  | defined term type nameLoc inner isGlobal =>
    cases inner with
    | none | some inner => simp [insidePasses, inner?]
  | _ => simp [insidePasses, inner?]

theorem allEntries_cons : allEntries p (entry :: older) ↔
    p entry.stamp entry.binding ∧
      (∀ inner, entry.binding.inner? = some inner → allEntries p inner) ∧
      allEntries p older := by
  rw [allEntries, entryPasses, Bool.and_eq_true, Bool.and_eq_true, insidePasses_iff, and_assoc]

/-- A binding is settled, and so is the context inside it. -/
def SettledInside (binding : Binding) : Prop :=
  binding.isSettled = true ∧ ∀ inner, binding.inner? = some inner → isSettled inner = true

theorem isSettled_cons : isSettled (entry :: older) ↔
    SettledInside entry.binding ∧ isSettled older := by
  rw [isSettled, allEntries_cons, SettledInside, and_assoc]
  rfl

theorem settledInside_of_mem (hctx : isSettled ctx) (hentry : entry ∈ ctx) :
    SettledInside entry.binding := by
  induction ctx with
  | nil => cases hentry
  | cons first older ih =>
    obtain ⟨hfirst, holder⟩ := isSettled_cons.mp hctx
    rcases mem_cons.mp hentry with rfl | hentry
    · exact hfirst
    · exact ih holder hentry

/-- What it takes for a binding to be settled, whatever its form. -/
theorem settledInside_iff : SettledInside binding ↔ binding.isComplete ∧
    (∀ ty, binding.type? = some ty → ty.holes = []) ∧
      ∀ inner, binding.inner? = some inner → isSettled inner := by
  rw [SettledInside, ← and_assoc]
  refine and_congr_left fun _ => ?_
  cases binding with
  | typed | typeAlias => simp [Binding.isSettled, Binding.isComplete, Binding.type?]
  | defined term type =>
    cases type with
    | none | some type => simp [Binding.isSettled, Binding.isComplete, Binding.type?]
  | typeParameter => simp [Binding.isSettled, Binding.isComplete, Binding.type?]

theorem SettledInside.holes_of_type {ty : Ty} (hbinding : SettledInside binding)
    (htype : binding.type? = some ty) : ty.holes = [] :=
  (settledInside_iff.mp hbinding).2.1 ty htype

/-- Without a context inside, it is enough that the type is settled. -/
theorem settledInside_leaf (hcomplete : binding.isComplete) (hinner : binding.inner? = none)
    (htype : ∀ ty, binding.type? = some ty → ty.holes = []) : SettledInside binding :=
  settledInside_iff.mpr ⟨hcomplete, htype, by simp [hinner]⟩

theorem settledInside_typed (htype : type.holes = []) :
    SettledInside (.typed type nameLoc isGlobal) :=
  settledInside_leaf rfl rfl fun _ heq => Option.some.inj heq ▸ htype

theorem settledInside_typeAlias (htype : type.holes = []) :
    SettledInside (.typeAlias type nameLoc isGlobal) :=
  settledInside_leaf rfl rfl fun _ heq => Option.some.inj heq ▸ htype

theorem settledInside_defined (hterm : term.isClosed) (htype : type.holes = [])
    (hinner : ∀ c, inner = some c → isSettled c) :
    SettledInside (.defined term (some type) nameLoc inner isGlobal) :=
  settledInside_iff.mpr ⟨by rw [isComplete, hterm]; rfl,
    fun _ heq => Option.some.inj heq ▸ htype, hinner⟩

theorem settledInside_typeParameter : SettledInside .typeParameter :=
  settledInside_leaf rfl rfl fun _ heq => by cases heq

/-- A binding that may stand in a context of a set: the context inside it belongs to the set.
With a start, defined values have types and a global binding is settled already. -/
structure Fits (start : Option Nat) (S : Context → Prop) (binding : Binding) : Prop where
  inner : ∀ inner, binding.inner? = some inner → S inner
  complete : start.isSome → binding.isComplete
  global : start.isSome → binding.isGlobal → SettledInside binding

/-- A settled binding fits wherever the context inside it belongs. -/
theorem fits_of_settledInside {start : Option Nat} {S : Context → Prop}
    (hbinding : SettledInside binding) (hinner : ∀ inner, binding.inner? = some inner → S inner) :
    Fits start S binding :=
  ⟨hinner, fun _ => (settledInside_iff.mp hbinding).1, fun _ _ => hbinding⟩

/-- Contexts that belong together, where `next` is the next stamp to be drawn. Without a
start all entries are identified by their stamps. With one, this is so for the entries made
since, and the stamps below it were drawn for contexts that are settled. -/
structure Heap (start : Option Nat) (next : Nat) (S : Context → Prop) : Prop where
  le : ∀ first ∈ start, first ≤ next
  nil : S []
  older : ∀ {entry older}, S (entry :: older) → S older
  fits : ∀ {entry older}, S (entry :: older) → Fits start S entry.binding
  below : ∀ {entry older}, S (entry :: older) → entry.stamp < next
  settled : ∀ {entry older}, S (entry :: older) → ∀ first ∈ start, entry.stamp < first →
    isSettled (entry :: older)
  unique : ∀ {entry older entry' older'}, S (entry :: older) → S (entry' :: older') →
    entry.stamp = entry'.stamp → (∀ first ∈ start, first ≤ entry.stamp) →
      entry :: older = entry' :: older'

variable {start : Option Nat} {next : Nat} {S T : Context → Prop}

theorem Fits.mono (hfits : Fits start S binding) (hle : ∀ c, S c → T c) : Fits start T binding :=
  ⟨fun inner hinner => hle inner (hfits.inner inner hinner), hfits.complete, hfits.global⟩

theorem Heap.eq_of_same (hheap : Heap none next S) (hctx : S ctx) (hother : S other)
    (hsame : same ctx other) : ctx = other := by
  cases ctx with
  | nil =>
    cases other with
    | nil => rfl
    | cons => cases hsame
  | cons =>
    cases other with
    | nil => cases hsame
    | cons => exact hheap.unique hctx hother (of_decide_eq_true hsame) nofun

theorem Heap.settled_of_same (hheap : Heap start next S) (hctx : S ctx) (hother : S other)
    (hsame : same ctx other) (hsettled : isSettled ctx) : isSettled other := by
  cases other with
  | nil => rfl
  | cons entry' older' =>
    cases ctx with
    | nil => cases hsame
    | cons entry older =>
      have hstamps : entry.stamp = entry'.stamp := of_decide_eq_true hsame
      by_cases hold : ∃ first ∈ start, entry.stamp < first
      · obtain ⟨first, hfirst, hlt⟩ := hold
        exact hheap.settled hother first hfirst (hstamps ▸ hlt)
      · rwa [← hheap.unique hctx hother hstamps fun first hfirst =>
          Nat.le_of_not_lt fun hlt => hold ⟨first, hfirst, hlt⟩]

/-- All settled contexts with stamps drawn so far belong together. -/
theorem Heap.initial (next : Nat) :
    Heap (some next) next fun ctx => isSettled ctx = true ∧ stampsBelow next ctx = true where
  le _ hfirst := Nat.le_of_eq (Option.some.inj hfirst).symm
  nil := ⟨rfl, rfl⟩
  older hctx := ⟨(isSettled_cons.mp hctx.1).2, (allEntries_cons.mp hctx.2).2.2⟩
  fits hctx := fits_of_settledInside (isSettled_cons.mp hctx.1).1 fun inner hinner =>
    ⟨(isSettled_cons.mp hctx.1).1.2 inner hinner, (allEntries_cons.mp hctx.2).2.1 inner hinner⟩
  below hctx := of_decide_eq_true (allEntries_cons.mp hctx.2).1
  settled hctx _ _ _ := hctx.1
  unique hctx _ _ hnew :=
    absurd (of_decide_eq_true (allEntries_cons.mp hctx.2).1) (Nat.not_lt.mpr (hnew next rfl))

/-- A larger heap, with more stamps drawn, for which something holds. -/
def Grown (start : Option Nat) (S : Context → Prop) (next : Nat)
    (post : (Context → Prop) → Prop) : Prop :=
  ∃ T, Heap start next T ∧ (∀ c, S c → T c) ∧ post T

theorem Heap.grown (hheap : Heap start next S) (hpost : post S) : Grown start S next post :=
  ⟨S, hheap, fun _ hc => hc, hpost⟩

theorem Heap.push (hheap : Heap start next S) (name : String) (holder : S older)
    (hfits : Fits start S binding) :
    Grown start S (next + 1) fun T => T (⟨next, name, binding⟩ :: older) := by
  refine ⟨fun c => S c ∨ c = ⟨next, name, binding⟩ :: older, ?_, fun c hc => .inl hc, .inr rfl⟩
  have hlarger : ∀ c, S c → S c ∨ c = ⟨next, name, binding⟩ :: older := fun c hc => .inl hc
  -- the stamp `next` was not drawn before, so it identifies the new entry
  refine ⟨fun first hfirst => Nat.le_succ_of_le (hheap.le first hfirst), .inl hheap.nil, ?_, ?_, ?_,
    ?_, ?_⟩
  · rintro entry older' (hold | hnew)
    · exact .inl (hheap.older hold)
    · cases hnew
      exact .inl holder
  · rintro entry older' (hold | hnew)
    · exact (hheap.fits hold).mono hlarger
    · cases hnew
      exact hfits.mono hlarger
  · rintro entry older' (hold | hnew)
    · exact Nat.lt_succ_of_lt (hheap.below hold)
    · cases hnew
      exact Nat.lt_succ_self next
  · rintro entry older' (hold | hnew) first hfirst hlt
    · exact hheap.settled hold first hfirst hlt
    · cases hnew
      exact absurd hlt (Nat.not_lt.mpr (hheap.le first hfirst))
  · rintro entry older₁ entry' older₂ (hold | hnew) (hold' | hnew') hstamps hstart
    · exact hheap.unique hold hold' hstamps hstart
    · cases hnew'
      exact absurd hstamps (Nat.ne_of_lt (hheap.below hold))
    · cases hnew
      exact absurd hstamps.symm (Nat.ne_of_lt (hheap.below hold'))
    · rw [hnew, hnew']

theorem Heap.extend (hheap : Heap start next S) (name : String) (hctx : S ctx)
    (hfits : Fits start S binding) :
    Grown start S (ctx.extend name binding next).2 fun T => T (ctx.extend name binding next).1 :=
  hheap.push name hctx hfits

theorem Grown.trans {middle : Nat} {post' : (Context → Prop) → Prop}
    (hfirst : Grown start S middle post)
    (hsecond : ∀ T, Heap start middle T → (∀ c, S c → T c) → post T → Grown start T next post') :
    Grown start S next post' := by
  obtain ⟨T, hheap, hle, hpost⟩ := hfirst
  obtain ⟨T', hheap', hle', hpost'⟩ := hsecond T hheap hle hpost
  exact ⟨T', hheap', fun c hc => hle' c (hle c hc), hpost'⟩

section

variable (hheap : Heap start next S) (hctx : S ctx)

include hheap hctx

/-- A loop that draws stamps keeps a heap if each of its steps does. -/
theorem Heap.foldlM {α : Type} {f : Context → α → Stamped Context} {items : List α}
    (hstep : ∀ item ∈ items, ∀ {next T ctx}, Heap start next T → (∀ c, S c → T c) → T ctx →
      Grown start T (f ctx item next).2 fun T' => T' (f ctx item next).1) :
    Grown start S (items.foldlM f ctx next).2 fun T => T (items.foldlM f ctx next).1 := by
  induction items generalizing ctx next S with
  | nil => exact hheap.grown hctx
  | cons item rest ih =>
    refine (hstep item mem_cons_self hheap (fun _ hc => hc) hctx).trans
      fun T hheap' hle hitem => ih hheap' hitem fun item hitem next T' ctx hT hle' hctx => ?_
    exact hstep item (mem_cons_of_mem _ hitem) hT (fun c hc => hle' c (hle c hc)) hctx

theorem Heap.fits_of_mem (hentry : entry ∈ ctx) : Fits start S entry.binding := by
  induction ctx with
  | nil => cases hentry
  | cons first older ih =>
    rcases mem_cons.mp hentry with rfl | hentry
    · exact hheap.fits hctx
    · exact ih (hheap.older hctx) hentry

theorem Heap.merge (hother : S other) :
    Grown start S (ctx.merge other next).2 fun T => T (ctx.merge other next).1 := by
  refine hheap.foldlM hctx fun entry hentry next T ctx hT hle hctx => ?_
  have hmem : entry ∈ other := (takeWhile_subset _) (mem_reverse.mp hentry)
  split
  · exact hT.grown hctx
  · exact hT.extend entry.name hctx ((hheap.fits_of_mem hother hmem).mono hle)

theorem Heap.mergeInner {solved : List Solved} (hsolved : ∀ s ∈ solved, S s.inner) :
    Grown start S (Inference.mergeInner ctx solved next).2 fun T =>
      T (Inference.mergeInner ctx solved next).1 := by
  refine hheap.foldlM hctx fun s hs next T inner hT hle hinner => ?_
  split
  · exact hT.grown hinner
  · split
    · exact hT.grown (hle _ (hsolved s hs))
    · exact hT.merge hinner (hle _ (hsolved s hs))

end

/-- A binding that is not global and has nothing inside fits anywhere once it is complete. -/
theorem fits_leaf (hinner : binding.inner? = none) (hlocal : binding.isGlobal = false)
    (hcomplete : binding.isComplete) : Fits start S binding :=
  ⟨by simp [hinner], fun _ => hcomplete, fun _ => by simp [hlocal]⟩

theorem fits_typeParameter : Fits start S .typeParameter := fits_leaf rfl rfl rfl

theorem fits_typed (type : Ty) (nameLoc : Loc) : Fits start S (.typed type nameLoc false) :=
  fits_leaf rfl rfl rfl

theorem fits_defined (hterm : start.isSome → term.isClosed) (hinner : ∀ c, inner = some c → S c) :
    Fits start S (.defined term (some type) nameLoc inner false) where
  inner := hinner
  complete hsome := by rw [isComplete, hterm hsome]; rfl
  global _ hglobal := by cases hglobal

theorem Heap.declare (hheap : Heap start next S) (naming : Naming) (hctx : S ctx) :
    Grown start S (naming.declare ctx next).2 fun T => T (naming.declare ctx next).1 :=
  hheap.foldlM hctx fun _ _ _ _ _ hT _ hctx => hT.extend _ hctx fits_typeParameter

theorem Heap.stampsBelow (hheap : Heap start next S) (ctx : Context) (hctx : S ctx) :
    Context.stampsBelow next ctx := by
  induction ctx using induct with
  | nil => rfl
  | cons entry older ihinner ih =>
    rw [Context.stampsBelow, allEntries_cons]
    exact ⟨decide_eq_true (hheap.below hctx), fun inner hinner => ihinner inner hinner
      ((hheap.fits hctx).inner inner hinner), ih (hheap.older hctx)⟩

end Context

end RowScript
