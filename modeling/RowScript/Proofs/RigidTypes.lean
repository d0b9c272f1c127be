import RowScript.Proofs.RowOrder
import RowScript.Proofs.SolverInvariant

/-!
# Rigid types

Types in which all names are type parameters in scope are equal up to the order of fields only. A
placeholder is never equal to a larger type it occurs in, and a type that is no placeholder keeps
its form.
-/

namespace RowScript.Ty

open Bool

/-- Types without type parameters of their own and without labels, in which all
names are type parameters in scope. -/
def isRigid (ctx : Context) : Ty → Bool
  | .ident name _ => ctx.hasTypeParameter name
  | .hole _ | .emptyRow => true
  | .arrow a b | .app a b _ | .field _ a b => isRigid ctx a && isRigid ctx b
  | .record row label => label.isNone && isRigid ctx row
  | .generic .. => false

variable {ctx : Context} {ty : Ty} {f : Nat → Ty}

theorem isMonomorphic_of_isRigid (hrigid : ty.isRigid ctx) : ty.isMonomorphic := by
  induction ty with
  | ident | hole | emptyRow => rfl
  | arrow a b iha ihb | app a b _ iha ihb | field _ a b iha ihb =>
    simp only [isRigid, and_eq_true] at hrigid
    simp [isMonomorphic, iha hrigid.1, ihb hrigid.2]
  | generic => cases hrigid
  | record a label ih =>
    simp only [isRigid, and_eq_true] at hrigid
    exact ih hrigid.2

theorem find?_of_hasTypeParameter {name : String} (hname : ctx.hasTypeParameter name) :
    ctx.find? name = some .typeParameter := by
  unfold Context.hasTypeParameter at hname
  split at hname
  · assumption
  · cases hname

/-- For rigid types it is enough to disregard the order of fields. -/
theorem admits_fieldOrder_of_isRigid (hrigid : ty.isRigid ctx) :
    Convention.fieldOrder.Admits ctx ty := by
  induction ty with
  | ident name loc =>
    intro a hname
    simp [Context.alias?, find?_of_hasTypeParameter hrigid] at hname
  | hole | emptyRow => trivial
  | arrow a b iha ihb | app a b _ iha ihb | field _ a b iha ihb =>
    simp only [isRigid, and_eq_true] at hrigid
    exact ⟨iha hrigid.1, ihb hrigid.2⟩
  | generic => cases hrigid
  | record a label ih =>
    simp only [isRigid, and_eq_true, Option.isNone_iff_eq_none] at hrigid
    exact ⟨ih hrigid.2, .inr hrigid.1⟩

theorem isRigid_replaceHole {replacement : Ty} {id : Nat} (hrigid : ty.isRigid ctx)
    (hreplacement : replacement.isRigid ctx) : (ty.replaceHole id replacement).isRigid ctx := by
  rw [replaceHole]
  induction ty with
  | ident | emptyRow => exact hrigid
  | hole i =>
    rw [bindHoles]
    split
    · exact hreplacement
    · rfl
  | arrow a b iha ihb | app a b _ iha ihb | field _ a b iha ihb =>
    simp only [isRigid, and_eq_true] at hrigid
    simp [bindHoles, isRigid, iha hrigid.1, ihb hrigid.2]
  | generic => cases hrigid
  | record a label ih =>
    simp only [isRigid, and_eq_true] at hrigid
    simp [bindHoles, isRigid, hrigid.1, ih hrigid.2]

theorem isRigid_insertField (key : String) (a row : Ty) :
    (insertField key a row).isRigid ctx = (a.isRigid ctx && row.isRigid ctx) := by
  induction row with
  | field k t base iht ihbase =>
    by_cases hk : k < key
    · simp [insertField, hk, isRigid, ihbase, Bool.and_left_comm]
    · simp [insertField, hk, isRigid]
  | _ => rfl

theorem isRigid_normal (ty : Ty) : ty.normal.isRigid ctx = ty.isRigid ctx := by
  induction ty with
  | ident | hole | emptyRow | generic => rfl
  | arrow a b iha ihb | app a b _ iha ihb => simp [normal, isRigid, iha, ihb]
  | record a label ih => simp [normal, isRigid, ih]
  | field k t base iht ihbase => rw [normal, isRigid_insertField, iht, ihbase, isRigid]

theorem size_pos (ty : Ty) : 0 < ty.size := by
  cases ty <;> simp [size]

theorem size_le_of_mem_holes {i : Nat} (hi : i ∈ ty.holes) :
    (f i).size ≤ (ty.bindHoles f).size := by
  induction ty with
  | ident | emptyRow => cases hi
  | hole j =>
    obtain rfl : i = j := by simpa [holes] using hi
    exact Nat.le_refl _
  | arrow a b iha ihb | app a b _ iha ihb | field _ a b iha ihb =>
    simp only [bindHoles, size]
    rcases List.mem_append.mp hi with hi | hi
    · have := iha hi
      omega
    · have := ihb hi
      omega
  | generic _ a ih | record a _ ih =>
    have := ih hi
    simp only [bindHoles, size]
    omega

/-- The occurs check only refuses what has no solution: a placeholder is never
equal to a larger type that it occurs in. -/
theorem not_mem_holes_of_normal_eq {id : Nat} (hne : ty ≠ .hole id)
    (hequal : (f id).normal = (ty.bindHoles f).normal) : id ∉ ty.holes := by
  intro hid
  have hsize : (f id).size = (ty.bindHoles f).size := by
    rw [← size_normal, hequal, size_normal]
  cases ty with
  | ident | emptyRow => cases hid
  | hole j =>
    obtain rfl : id = j := by simpa [holes] using hid
    exact hne rfl
  | arrow a b | app a b _ | field _ a b =>
    simp only [bindHoles, size] at hsize
    rcases List.mem_append.mp hid with hid | hid
    · have := size_le_of_mem_holes (f := f) hid
      omega
    · have := size_le_of_mem_holes (f := f) hid
      omega
  | generic _ a | record a _ =>
    have hid' : id ∈ a.holes := hid
    have := size_le_of_mem_holes (f := f) hid'
    simp only [bindHoles, size] at hsize
    omega

/-- The outermost part of a type. -/
inductive Form where
  | ident (name : String)
  | hole
  | arrow
  | generic
  | app
  | record
  | emptyRow
  | field

def form : Ty → Form
  | .ident name _ => .ident name
  | .hole _ => .hole
  | .arrow .. => .arrow
  | .generic .. => .generic
  | .app .. => .app
  | .record .. => .record
  | .emptyRow => .emptyRow
  | .field .. => .field

theorem form_insertField (key : String) (a row : Ty) : (insertField key a row).form = .field := by
  cases row with
  | field k t base =>
    rw [insertField]
    split <;> rfl
  | _ => rfl

theorem form_normal (ty : Ty) : ty.normal.form = ty.form := by
  cases ty with
  | field k t base => exact form_insertField ..
  | _ => rfl

theorem form_bindHoles (hty : ∀ i, ty ≠ .hole i) : (ty.bindHoles f).form = ty.form := by
  cases ty with
  | hole i => exact absurd rfl (hty i)
  | _ => rfl

/-- A row with another end. -/
def withTail : Ty → Ty → Ty
  | .field k t base, tail => .field k t (withTail base tail)
  | _, tail => tail

/-- The number of fields written out in a row. -/
def rowLength : Ty → Nat
  | .field _ _ base => rowLength base + 1
  | _ => 0

variable {key : String} {row found rest : Ty} {id : Nat}

theorem takeField_bindHoles (htaken : takeField key row = some (found, rest)) :
    takeField key (row.bindHoles f) = some (found.bindHoles f, rest.bindHoles f) :=
  takeField_induct (motive := fun row found rest =>
    takeField key (row.bindHoles f) = some (found.bindHoles f, rest.bindHoles f))
    (fun _ _ => by simp [bindHoles, takeField])
    (fun _ _ hk ih => by simp [bindHoles, takeField, hk, ih]) htaken

/-- Besides the keys written out, a row has the keys of what its end stands for. -/
theorem keyCount_bindHoles_of_rowTail (htail : row.rowTail = .hole id) :
    keyCount key (row.bindHoles f) = keyCount key row + keyCount key (f id) := by
  induction row with
  | field k t base iht ihbase =>
    rw [bindHoles, keyCount, keyCount, ihbase htail]
    omega
  | hole i =>
    obtain rfl : i = id := by simpa [rowTail] using htail
    simp [bindHoles, keyCount]
  | _ => cases htail

theorem keyCount_bindHoles_of_closed (htail : ∀ id, row.rowTail ≠ .hole id) :
    keyCount key (row.bindHoles f) = keyCount key row := by
  induction row with
  | field k t base iht ihbase => rw [bindHoles, keyCount, keyCount, ihbase htail]
  | hole i => exact absurd rfl (htail i)
  | _ => rfl

/-- A field that only the end of a row has is taken out of the end. -/
theorem takeField_bindHoles_of_rowTail {g : Nat → Ty} {fresh : Nat} (htail : row.rowTail = .hole id)
    (hcount : keyCount key row = 0) (htaken : takeField key (f id) = some (found, rest))
    (hfresh : g fresh = rest) (hagree : ∀ i ∈ row.holes, g i = f i) :
    takeField key (row.bindHoles f) =
      some (found, (row.withTail (.hole fresh)).bindHoles g) := by
  induction row with
  | field k t base iht ihbase =>
    have hk : k ≠ key := by
      rintro rfl
      simp [keyCount] at hcount
    have hbase : keyCount key base = 0 := by simpa [keyCount, hk] using hcount
    simp only [holes, List.mem_append] at hagree
    have ht : t.bindHoles g = t.bindHoles f :=
      bindHoles_congr fun i hi => hagree i (.inl hi)
    rw [bindHoles, takeField, if_neg hk,
      ihbase htail hbase fun i hi => hagree i (.inr hi)]
    simp [withTail, bindHoles, ht]
  | hole i =>
    obtain rfl : i = id := by simpa [rowTail] using htail
    simpa [bindHoles, withTail, hfresh] using htaken
  | _ => cases htail

theorem mem_holes_of_rowTail (htail : row.rowTail = .hole id) : id ∈ row.holes := by
  induction row with
  | field k t base iht ihbase => exact List.mem_append_right _ (ihbase htail)
  | hole i =>
    obtain rfl : i = id := by simpa [rowTail] using htail
    simp [holes]
  | _ => cases htail

theorem isRigid_withTail {tail : Ty} (hrigid : row.isRigid ctx)
    (htail : tail.isRigid ctx) : (row.withTail tail).isRigid ctx := by
  induction row with
  | field k t base iht ihbase =>
    simp only [isRigid, and_eq_true] at hrigid
    simp [withTail, isRigid, hrigid.1, ihbase hrigid.2]
  | _ => exact htail

theorem isRigid_of_takeField (hrigid : row.isRigid ctx)
    (htaken : takeField key row = some (found, rest)) : found.isRigid ctx ∧ rest.isRigid ctx := by
  have hparts : row.isRigid ctx = (found.isRigid ctx && rest.isRigid ctx) :=
    takeField_induct (motive := fun row found rest =>
      row.isRigid ctx = (found.isRigid ctx && rest.isRigid ctx)) (fun _ _ => rfl)
      (fun k t _ ih => by simp [isRigid, ih, Bool.and_left_comm]) htaken
  rwa [hparts, and_eq_true] at hrigid

end RowScript.Ty
