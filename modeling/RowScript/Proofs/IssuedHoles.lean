import RowScript.Proofs.SettledCommands
import RowScript.Proofs.TypeInvariants

/-!
# Placeholders are handed out before they are used

All placeholders in the types and constraints that inference finds were handed out by the time it is
done, so that one drawn later is new.
-/

namespace RowScript

open List

/-- All placeholders of a type were handed out. -/
def Ty.IssuedBy (n : Nat) (ty : Ty) : Prop := ∀ i ∈ ty.holes, i ≤ n

namespace Ty

variable {a b : Ty} {n i : Nat}

theorem mem_holes_functionTo (hi : i ∈ (a.functionTo b).holes) : i ∈ a.holes ∨ i ∈ b.holes := by
  induction b with
  | generic param inner ih => exact ih hi
  | _ => exact mem_append.mp hi

theorem mem_holes_quantified {id : Nat} {name : String}
    (hi : i ∈ (generic name ((named name).functionTo (b.replaceHole id (.named name)))).holes) :
    i ∈ b.holes := by
  rcases mem_holes_functionTo hi with hi | hi
  · cases hi
  · rcases mem_holes_replaceHole hi with ⟨hi, -⟩ | hi
    · exact hi
    · cases hi

end Ty

/-- The placeholders in the type of a value pass a check. A declared type has none. -/
def Binding.HolesIn (p : Nat → Prop) : Binding → Prop
  | .typed type _ _ | .defined _ (some type) _ _ _ => ∀ i ∈ type.holes, p i
  | .typeAlias type _ _ => type.holes = []
  | .defined _ none _ _ _ | .typeParameter => True

namespace Context

variable {ctx : Context} {n m : Nat} {p q : Nat → Prop} {name : String}

def HolesIn (p : Nat → Prop) (ctx : Context) : Prop := ∀ entry ∈ ctx, entry.binding.HolesIn p

/-- Between commands there are no placeholders at all. -/
theorem holesIn_of_isSettled (hctx : ctx.isSettled) : ctx.HolesIn p := by
  intro entry hentry
  have hsettled := settledInside_of_mem hctx hentry
  unfold Binding.HolesIn
  split
  · rw [hsettled.holes_of_type (by simp [*, Binding.type?])]
    simp
  · rw [hsettled.holes_of_type (by simp [*, Binding.type?])]
    simp
  · exact hsettled.holes_of_type (by simp [*, Binding.type?])
  · trivial
  · trivial

section

variable (hctx : ctx.HolesIn p)

include hctx

theorem HolesIn.imp (himp : ∀ i, p i → q i) : ctx.HolesIn q := by
  intro entry hentry
  have hissued := hctx entry hentry
  unfold Binding.HolesIn at hissued ⊢
  split at hissued
  · exact fun i hi => himp i (hissued i hi)
  · exact fun i hi => himp i (hissued i hi)
  · exact hissued
  · trivial
  · trivial

theorem HolesIn.find? {binding : Binding} (hfind : ctx.find? name = some binding) :
    binding.HolesIn p := by
  obtain ⟨entry, hentry, rfl⟩ := exists_mem_of_find? hfind
  exact hctx entry hentry

theorem HolesIn.isClosed : (Ty.Convention.ofContext ctx).IsClosed := by
  intro name type hname
  obtain ⟨_, _, hfind⟩ := exists_find?_of_alias? hname
  exact hctx.find? hfind

theorem HolesIn.suits : (Ty.Convention.ofContext ctx).Suits ctx where
  closed := hctx.isClosed
  admits _ type _ := Ty.Convention.admits_ofContext ctx type

theorem HolesIn.valueType {loc : Option Loc} {type : Ty}
    (hrun : ctx.valueType name loc = .ok type) :
    ∀ i ∈ type.holes, p i := by
  unfold Context.valueType at hrun
  split at hrun <;> cases hrun
  · rename_i hfind
    exact hctx.find? hfind
  · rename_i hfind
    exact hctx.find? hfind

end

/-- All placeholders of a context were handed out. -/
def IssuedBy (n : Nat) (ctx : Context) : Prop := ctx.HolesIn (· ≤ n)

theorem issuedBy_of_isSettled (hctx : ctx.isSettled) : ctx.IssuedBy n :=
  holesIn_of_isSettled hctx

theorem IssuedBy.mono (hctx : ctx.IssuedBy n) (hle : n ≤ m) : ctx.IssuedBy m :=
  HolesIn.imp hctx fun _ hi => Nat.le_trans hi hle

end Context

/-- Constraints over placeholders that were handed out are a tidy start for solving. -/
theorem Solver.Issued.tidy {n : Nat} {ctx : Context} {constraints : List Constraint}
    (hissued : Issued n constraints) : Tidy (.ofContext ctx) ctx n constraints [] :=
  .start (fun c _ => ⟨Ty.Convention.admits_ofContext ctx c.1,
    Ty.Convention.admits_ofContext ctx c.2⟩) hissued

section Holes

variable {p : Nat → Nat → Prop} {start : Nat}

/-- Solving uses the placeholders that it finds and new ones. -/
theorem Solver.Kept.holesIn {ctx : Context} (hclosed : (Ty.Convention.ofContext ctx).IsClosed)
    (hmono : ∀ n m i, p n i → n ≤ m → p m i) (hfresh : ∀ n i, start < i → i ≤ n → p n i) :
    Kept ctx fun n ty => start ≤ n ∧ ∀ i ∈ ty.holes, p n i where
  mono hty hle := ⟨Nat.le_trans hty.1 hle, fun i hi => hmono _ _ i (hty.2 i hi) hle⟩
  fresh hty := ⟨Nat.le_succ_of_le hty.1, fun i hi => by
    obtain rfl := mem_singleton.mp hi
    exact hfresh _ _ (Nat.lt_succ_of_le hty.1) (Nat.le_refl _)⟩
  arrow hty := (forall_mem_append.mp hty.2).imp (⟨hty.1, ·⟩) (⟨hty.1, ·⟩)
  app hty := (forall_mem_append.mp hty.2).imp (⟨hty.1, ·⟩) (⟨hty.1, ·⟩)
  field := (and_congr_right fun _ => forall_mem_append).trans and_and_left
  record hty := hty
  opened hgeneric hty :=
    ⟨hty.1, fun i hi => (Ty.mem_holes_replaceName hi).elim (hgeneric.2 i) (hty.2 i)⟩
  declared hty hname := ⟨hty.1, by simp [hclosed _ _ hname]⟩

/-- Inference uses the placeholders that it finds and new ones, if no written type has any. -/
def InferenceInvariant.holesIn (p : Nat → Nat → Prop) (start : Nat)
    (hmono : ∀ n m i, p n i → n ≤ m → p m i) (hfresh : ∀ n i, start < i → i ≤ n → p n i) :
    InferenceInvariant where
  OfType n ty := ∀ i ∈ ty.holes, p n i
  start := start
  mono hty hle i hi := hmono _ _ i (hty i hi) hle
  hole hstart hle i hi := mem_singleton.mp hi ▸ hfresh _ _ hstart hle
  hole_of_mem hty hid i hi := mem_singleton.mp hi ▸ hty _ hid
  bindHoles hty hf i hi := by
    obtain ⟨j, hj, hi⟩ := Ty.mem_holes_bindHoles.mp hi
    exact hf j hj i hi
  opened hgeneric hty i hi := (Ty.mem_holes_replaceName hi).elim (hgeneric i) (hty i)
  OfContext n ctx := start ≤ n ∧ ctx.HolesIn (p n)
  start_le hctx := hctx.1
  allows _ ascribed := ascribed.all (·.holes.isEmpty)
  allows_none _ _ := rfl
  literal _ i hi := by cases hi
  emptyRow i hi := by cases hi
  arrow := forall_mem_append
  app := forall_mem_append
  field := forall_mem_append
  record := Iff.rfl
  quantified _ _ hret i hi := hret i (Ty.mem_holes_quantified hi)
  context_mono hctx hle := ⟨Nat.le_trans hctx.1 hle, hctx.2.imp fun i hi => hmono _ _ i hi hle⟩
  value hctx hrun := hctx.2.valueType hrun
  bind hctx htype := ⟨hctx.1, forall_mem_cons.mpr ⟨htype, hctx.2⟩⟩
  written hctx hallows hrun i hi := by
    have hclosed := Context.mem_holes_normalize hctx.2.isClosed hrun i hi
    rw [isEmpty_iff.mp hallows] at hclosed
    cases hclosed
  solves hctx hconstraints hsolves c hc := by
    have hkept := Solver.Kept.holesIn hctx.2.isClosed hmono hfresh
    refine (hkept.solves (fun hty hu => ⟨hty.1, fun i hi => ?_⟩) hsolves (fun c hc =>
      ⟨⟨hctx.1, (hconstraints c hc).1⟩, hctx.1, (hconstraints c hc).2⟩) (by simp) c hc).imp
      And.right And.right
    rcases Ty.mem_holes_replaceHole hi with ⟨hi, -⟩ | hi
    · exact hu.2 i hi
    · exact hty.2 i hi

end Holes

/-- Inference only uses placeholders that were handed out. -/
def InferenceInvariant.issued : InferenceInvariant :=
  .holesIn (fun n i => i ≤ n) 0 (fun _ _ _ hi hle => Nat.le_trans hi hle) fun _ _ _ hle => hle

/-- In a context without placeholders inference only uses those that it draws. -/
def InferenceInvariant.drawn (start : Nat) : InferenceInvariant :=
  .holesIn (fun n i => start < i ∧ i ≤ n) start (fun _ _ _ hi hle => ⟨hi.1, Nat.le_trans hi.2 hle⟩)
    fun _ _ hstart hle => ⟨hstart, hle⟩

theorem Context.IssuedBy.ofContext {ctx : Context} {n : Nat} (hctx : ctx.IssuedBy n) :
    InferenceInvariant.issued.OfContext n ctx := ⟨Nat.zero_le n, hctx⟩

end RowScript
