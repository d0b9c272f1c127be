import RowScript.Context.Basic
import RowScript.Proofs.Holes

/-!
# Equality of types

Solving makes types equal up to the order of fields with different keys, the labels of records, and
the names that are declared to stand for types. `Ty.Equal` carries a position, because a name in the
place of a row may stand for the row of a declared record.
-/

namespace RowScript

/-- The type that a name is declared as, if it is a declared type. -/
def Context.alias? (ctx : Context) (name : String) : Option Ty :=
  match ctx.find? name with
  | some (.typeAlias type _ _) => some type
  | _ => none

namespace Ty

/-- What is disregarded in an equality besides the order of fields. -/
structure Convention where
  /-- The types that names stand for. -/
  alias? : String → Option Ty
  /-- Whether the labels of records are disregarded. -/
  ignoresLabels : Bool

/-- Names stand for what a context declares, and labels are disregarded. -/
def Convention.ofContext (ctx : Context) : Convention := ⟨ctx.alias?, true⟩

/-- Only the order of fields is disregarded. -/
def Convention.fieldOrder : Convention := ⟨fun _ => none, false⟩

/-- Where a type stands. -/
inductive Position where
  | type
  /-- The row of a record, or what follows a field. -/
  | row

section

variable (convention : Convention)

/-- The least congruence in which fields with different keys may be swapped,
together with what the convention identifies. -/
inductive Equal : Position → Ty → Ty → Prop where
  | refl (position : Position) (a : Ty) : Equal position a a
  | symm {position : Position} {a b : Ty} : Equal position a b → Equal position b a
  | trans {position : Position} {a b c : Ty} :
      Equal position a b → Equal position b c → Equal position a c
  | ident (position : Position) (name : String) (loc loc' : Loc) :
      Equal position (.ident name loc) (.ident name loc')
  | arrow {position : Position} {a a' b b' : Ty} :
      Equal .type a a' → Equal .type b b' → Equal position (.arrow a b) (.arrow a' b')
  | generic {position : Position} {a a' : Ty} (param : String) :
      Equal .type a a' → Equal position (.generic param a) (.generic param a')
  | app {position : Position} {a a' b b' : Ty} (loc loc' : Loc) :
      Equal .type a a' → Equal .type b b' → Equal position (.app a b loc) (.app a' b' loc')
  | record {position : Position} {a a' : Ty} (label : Option String) :
      Equal .row a a' → Equal position (.record a label) (.record a' label)
  | field {position : Position} {a a' b b' : Ty} (key : String) :
      Equal .type a a' → Equal .row b b' → Equal position (.field key a b) (.field key a' b')
  | swap {position : Position} {key key' : String} (a b base : Ty) (hkeys : key ≠ key') :
      Equal position (.field key a (.field key' b base)) (.field key' b (.field key a base))
  | label {position : Position} (a : Ty) (label label' : Option String)
      (hlabels : convention.ignoresLabels = true) :
      Equal position (.record a label) (.record a label')
  | unfold {position : Position} {name : String} {a : Ty} (loc : Loc)
      (hname : convention.alias? name = some a) : Equal position (.ident name loc) a
  | spread {name : String} {row : Ty} {label : Option String} (loc : Loc)
      (hname : convention.alias? name = some (.record row label)) : Equal .row (.ident name loc) row

end

/-- The names of a convention stand for types without placeholders. -/
def Convention.IsClosed (convention : Convention) : Prop :=
  ∀ name a, convention.alias? name = some a → a.holes = []

namespace Equal

variable {convention : Convention} {position : Position} {a b : Ty} {f : Nat → Ty}

theorem toRow (hequal : Equal convention position a b) : Equal convention .row a b := by
  induction hequal with
  | refl _ a => exact .refl _ a
  | symm _ ih => exact ih.symm
  | trans _ _ ih ih' => exact ih.trans ih'
  | ident _ name loc loc' => exact .ident _ name loc loc'
  | arrow ha hb => exact .arrow ha hb
  | generic param ha => exact .generic param ha
  | app loc loc' ha hb => exact .app loc loc' ha hb
  | record label ha => exact .record label ha
  | field key ha hb => exact .field key ha hb
  | swap a b base hkeys => exact .swap a b base hkeys
  | label a label label' hlabels => exact .label a label label' hlabels
  | unfold loc hname => exact .unfold loc hname
  | spread loc hname => exact .spread loc hname

theorem of_agrees (hagrees : a.agrees b) : Equal convention position a b := by
  fun_induction agrees a b generalizing position with
  | case1 =>
    rw [of_decide_eq_true hagrees]
    exact .ident ..
  | case2 =>
    rw [of_decide_eq_true hagrees]
    exact .refl ..
  | case3 _ _ _ _ iha ihb =>
    rw [Bool.and_eq_true] at hagrees
    exact .arrow (iha hagrees.1) (ihb hagrees.2)
  | case4 _ _ _ _ ih =>
    rw [Bool.and_eq_true, decide_eq_true_eq] at hagrees
    rw [hagrees.1]
    exact .generic _ (ih hagrees.2)
  | case5 _ _ _ _ _ _ iha ihb =>
    rw [Bool.and_eq_true] at hagrees
    exact .app _ _ (iha hagrees.1) (ihb hagrees.2)
  | case6 _ _ _ _ ih =>
    rw [Bool.and_eq_true, decide_eq_true_eq] at hagrees
    rw [hagrees.2]
    exact .record _ (ih hagrees.1)
  | case7 => exact .refl ..
  | case8 _ _ _ _ _ _ iha ihb =>
    rw [Bool.and_eq_true, Bool.and_eq_true, decide_eq_true_eq] at hagrees
    rw [hagrees.1.1]
    exact .field _ (iha hagrees.1.2) (ihb hagrees.2)
  | case9 => cases hagrees

/-- Equal types stay equal under a substitution of placeholders. -/
theorem bindHoles (hclosed : convention.IsClosed) (f : Nat → Ty)
    (hequal : Equal convention position a b) :
    Equal convention position (a.bindHoles f) (b.bindHoles f) := by
  induction hequal with
  | refl _ a => exact .refl ..
  | symm _ ih => exact ih.symm
  | trans _ _ ih ih' => exact ih.trans ih'
  | ident _ name loc loc' => exact .ident ..
  | arrow _ _ iha ihb => exact .arrow iha ihb
  | generic param _ ih => exact .generic param ih
  | app loc loc' _ _ iha ihb => exact .app loc loc' iha ihb
  | record label _ ih => exact .record label ih
  | field key _ _ iha ihb => exact .field key iha ihb
  | swap a b base hkeys => exact .swap _ _ _ hkeys
  | label a label label' hlabels => exact .label _ label label' hlabels
  | unfold loc hname =>
    rw [bindHoles_of_holes_eq_nil (hclosed _ _ hname)]
    exact .unfold loc hname
  | @spread name row label loc hname =>
    have hrow : row.holes = [] := hclosed name (.record row label) hname
    rw [bindHoles_of_holes_eq_nil hrow]
    exact .spread loc hname

theorem bindHoles_congr {g : Nat → Ty} {ty : Ty}
    (hequal : ∀ i ∈ ty.holes, Equal convention .type (f i) (g i)) :
    Equal convention .type (ty.bindHoles f) (ty.bindHoles g) := by
  induction ty with
  | ident | emptyRow => exact .refl ..
  | hole i => exact hequal i (by simp [holes])
  | arrow a b iha ihb =>
    simp only [holes, List.mem_append] at hequal
    exact .arrow (iha fun i hi => hequal i (.inl hi)) (ihb fun i hi => hequal i (.inr hi))
  | generic param a ih => exact .generic param (ih hequal)
  | app a b loc iha ihb =>
    simp only [holes, List.mem_append] at hequal
    exact .app loc loc (iha fun i hi => hequal i (.inl hi))
      (ihb fun i hi => hequal i (.inr hi))
  | record a label ih => exact .record label (ih hequal).toRow
  | field key a b iha ihb =>
    simp only [holes, List.mem_append] at hequal
    exact .field key (iha fun i hi => hequal i (.inl hi))
      (ihb fun i hi => hequal i (.inr hi)).toRow

/-- Replacing a placeholder by a type that a substitution makes equal to it does
not matter to the substitution. -/
theorem bindHoles_replaceHole {id : Nat} {replacement : Ty}
    (hid : Equal convention .type (f id) (replacement.bindHoles f)) (ty : Ty) :
    Equal convention .type ((ty.replaceHole id replacement).bindHoles f) (ty.bindHoles f) := by
  rw [replaceHole, bindHoles_bindHoles]
  apply bindHoles_congr
  intro i _
  by_cases hi : i = id
  · rw [if_pos hi, hi]
    exact hid.symm
  · rw [if_neg hi]
    exact .refl ..

/-- Where no name stands for a type, equal types mention each name equally often. -/
theorem count_names (halias : ∀ name, convention.alias? name = none)
    (hequal : Equal convention position a b) (name : String) :
    a.names.count name = b.names.count name := by
  induction hequal with
  | refl | ident => rfl
  | symm _ ih => exact ih.symm
  | trans _ _ ih ih' => exact ih.trans ih'
  | arrow _ _ iha ihb | app _ _ _ _ iha ihb | field _ _ _ iha ihb =>
    simp [names, List.count_append, iha, ihb]
  | generic param _ ih => simp [names, List.count_cons, ih]
  | record label _ ih => exact ih
  | swap a b base => simp [names, List.count_append, Nat.add_left_comm]
  | label => rfl
  | unfold loc hname | spread loc hname => simp [halias] at hname

end Equal

end Ty

end RowScript
