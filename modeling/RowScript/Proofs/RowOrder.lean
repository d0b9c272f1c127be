import RowScript.Proofs.Equality

/-!
# Rows in order

Two types that are equal up to the order of fields have one normal form, in which the fields of
every row are sorted by key and fields with one key keep their order.
-/

namespace RowScript.Ty

/-- Puts a field into a row, in front of the first key that is not smaller. -/
def insertField (key : String) (type : Ty) : Ty → Ty
  | .field k t base =>
    if k < key then .field k t (insertField key type base)
    else .field key type (.field k t base)
  | row => .field key type row

/-- The type with the fields of every row in order and without ranges. -/
def normal : Ty → Ty
  | .ident name _ => .named name
  | .hole id => .hole id
  | .arrow arg ret => .arrow (normal arg) (normal ret)
  | .generic param body => .generic param (normal body)
  | .app callee arg _ => .app (normal callee) (normal arg) .synthetic
  | .record row label => .record (normal row) label
  | .emptyRow => .emptyRow
  | .field key type base => insertField key (normal type) (normal base)

variable {key key' : String} {a b row row' : Ty} {i : Nat}

theorem insertField_comm (hkeys : key ≠ key') (a b row : Ty) :
    insertField key a (insertField key' b row) = insertField key' b (insertField key a row) := by
  have htotal : key < key' ∨ key' < key := by
    by_cases hlt : key < key'
    · exact .inl hlt
    · by_cases hlt' : key' < key
      · exact .inr hlt'
      · exact absurd (String.le_antisymm hlt' hlt) hkeys
  induction row with
  | field k t base iht ihbase =>
    by_cases hk : k < key
    · by_cases hk' : k < key'
      · simp [insertField, hk, hk', ihbase]
      · -- the keys stand on different sides of `k`, which settles their order
        have hlt : ¬ key < key' := fun hlt => hk' (String.lt_trans hk hlt)
        have hlt' : key' < key := htotal.resolve_left hlt
        simp [insertField, hk, hk', hlt']
    · by_cases hk' : k < key'
      · have hlt : ¬ key' < key := fun hlt => hk (String.lt_trans hk' hlt)
        have hlt' : key < key' := htotal.resolve_right hlt
        simp [insertField, hk, hk', hlt']
      · rcases htotal with hlt | hlt
        · simp [insertField, hk, hk', hlt, String.lt_asymm hlt]
        · simp [insertField, hk, hk', hlt, String.lt_asymm hlt]
  | _ =>
    rcases htotal with hlt | hlt
    · simp [insertField, hlt, String.lt_asymm hlt]
    · simp [insertField, hlt, String.lt_asymm hlt]

/-- The first field with a given key, taken out of a row. -/
def takeField (key : String) : Ty → Option (Ty × Ty)
  | .field k t base =>
    if k = key then some (t, base)
    else (takeField key base).map fun (found, rest) => (found, .field k t rest)
  | _ => none

theorem takeField_insertField (key : String) (a row : Ty) :
    takeField key (insertField key a row) = some (a, row) := by
  induction row with
  | field k t base iht ihbase =>
    by_cases hk : k < key
    · have hne : k ≠ key := by
        rintro rfl
        exact String.lt_irrefl _ hk
      simp [insertField, takeField, hk, hne, ihbase]
    · simp [insertField, takeField, hk]
  | _ => simp [insertField, takeField]

/-- Equal rows that start with one key have equal parts. -/
theorem insertField_inj (hequal : insertField key a row = insertField key b row') :
    a = b ∧ row = row' := by
  have htaken := congrArg (takeField key) hequal
  rw [takeField_insertField, takeField_insertField] at htaken
  simpa using htaken

/-- A field is taken out of a row at its front or behind fields with other keys. -/
theorem takeField_induct {motive : Ty → Ty → Ty → Prop}
    (here : ∀ t base, motive (.field key t base) t base)
    (behind : ∀ {base found rest : Ty} (k t), k ≠ key → motive base found rest →
      motive (.field k t base) found (.field k t rest)) {found rest : Ty}
    (htaken : takeField key row = some (found, rest)) : motive row found rest := by
  induction row generalizing found rest with
  | field k t base iht ihbase =>
    rw [takeField] at htaken
    by_cases hk : k = key
    · rw [if_pos hk] at htaken
      obtain ⟨rfl, rfl⟩ : t = found ∧ base = rest := by simpa using htaken
      exact hk ▸ here t base
    · rw [if_neg hk] at htaken
      obtain ⟨⟨found', rest'⟩, hbase, hpair⟩ := Option.map_eq_some_iff.mp htaken
      obtain ⟨rfl, rfl⟩ : found' = found ∧ .field k t rest' = rest := by simpa using hpair
      exact behind k t hk (ihbase hbase)
  | _ => cases htaken

theorem normal_of_takeField {found rest : Ty} (htaken : takeField key row = some (found, rest)) :
    normal row = insertField key (normal found) (normal rest) := by
  refine takeField_induct (motive := fun row found rest =>
    normal row = insertField key (normal found) (normal rest)) (fun _ _ => rfl)
    (fun k t hk ih => ?_) htaken
  rw [normal, normal, ih, insertField_comm hk]

/-- How often a key stands in a row, as far as its fields are written out. -/
def keyCount (key : String) : Ty → Nat
  | .field k _ base => (if k = key then 1 else 0) + keyCount key base
  | _ => 0

theorem keyCount_insertField (key k : String) (a row : Ty) :
    keyCount key (insertField k a row) = (if k = key then 1 else 0) + keyCount key row := by
  induction row with
  | field k' t base iht ihbase =>
    by_cases hk : k' < k
    · simp only [insertField, hk, if_true, keyCount, ihbase]
      omega
    · simp only [insertField, hk, if_false, keyCount]
  | _ => simp [insertField, keyCount]

/-- Ordering the fields of a row does not change which keys it has. -/
theorem keyCount_normal (key : String) (row : Ty) :
    keyCount key (normal row) = keyCount key row := by
  induction row with
  | field k t base iht ihbase => rw [normal, keyCount_insertField, keyCount, ihbase]
  | _ => rfl

theorem exists_takeField (hcount : keyCount key row ≠ 0) :
    ∃ found rest, takeField key row = some (found, rest) := by
  induction row with
  | field k t base iht ihbase =>
    by_cases hk : k = key
    · exact ⟨t, base, by simp [takeField, hk]⟩
    · have hbase : keyCount key base ≠ 0 := by simpa [keyCount, hk] using hcount
      obtain ⟨found, rest, htaken⟩ := ihbase hbase
      exact ⟨found, .field k t rest, by simp [takeField, hk, htaken]⟩
  | _ => exact absurd rfl hcount

/-- The number of constructors of a type. -/
def size : Ty → Nat
  | .ident .. | .hole _ | .emptyRow => 1
  | .arrow a b | .app a b _ | .field _ a b => size a + size b + 1
  | .generic _ inner | .record inner _ => size inner + 1

theorem size_insertField (key : String) (a row : Ty) :
    size (insertField key a row) = size a + size row + 1 := by
  induction row with
  | field k t base iht ihbase =>
    by_cases hk : k < key
    · simp only [insertField, hk, if_true, size, ihbase]
      omega
    · simp [insertField, hk, size]
  | _ => simp [insertField, size]

theorem size_normal (ty : Ty) : size (normal ty) = size ty := by
  induction ty with
  | ident | hole | emptyRow => rfl
  | arrow a b iha ihb | app a b _ iha ihb => simp [normal, size, iha, ihb]
  | generic _ a ih | record a _ ih => simp [normal, size, ih]
  | field k t base iht ihbase => rw [normal, size_insertField, size, iht, ihbase]

theorem mem_holes_insertField :
    i ∈ (insertField key a row).holes ↔ i ∈ a.holes ∨ i ∈ row.holes := by
  induction row with
  | field k t base iht ihbase =>
    by_cases hk : k < key
    · simp only [insertField, hk, if_true, holes, List.mem_append, ihbase]
      exact or_left_comm
    · simp [insertField, hk, holes]
  | _ => simp [insertField, holes]

theorem mem_holes_normal {ty : Ty} : i ∈ ty.normal.holes ↔ i ∈ ty.holes := by
  induction ty with
  | ident | hole | emptyRow => rfl
  | arrow a b iha ihb | app a b _ iha ihb => simp [normal, holes, iha, ihb]
  | generic _ a ih | record a _ ih => simp [normal, holes, ih]
  | field k t base iht ihbase =>
    rw [normal, mem_holes_insertField, iht, ihbase, holes, List.mem_append]

theorem Equal.insertField (convention : Convention) (position : Position) (key : String)
    (a row : Ty) : Equal convention position (.field key a row) (insertField key a row) := by
  induction row generalizing position with
  | field k t base iht ihbase =>
    by_cases hk : k < key
    · have hne : key ≠ k := by
        rintro rfl
        exact String.lt_irrefl _ hk
      rw [Ty.insertField, if_pos hk]
      exact .trans (.swap a t base hne) (.field k (.refl ..) (ihbase .row))
    · rw [Ty.insertField, if_neg hk]
      exact .refl ..
  | _ => exact .refl ..

theorem Equal.normal (convention : Convention) (position : Position) (ty : Ty) :
    Equal convention position ty ty.normal := by
  induction ty generalizing position with
  | ident name loc => exact .ident ..
  | hole | emptyRow => exact .refl ..
  | arrow a b iha ihb => exact .arrow (iha .type) (ihb .type)
  | generic param a ih => exact .generic param (ih .type)
  | app a b loc iha ihb => exact .app _ _ (iha .type) (ihb .type)
  | record a label ih => exact .record label (ih .row)
  | field k t base iht ihbase =>
    exact .trans (.field k (iht .type) (ihbase .row)) (.insertField ..)

/-- Types are equal up to the order of fields exactly when their normal forms are
the same. -/
theorem equal_fieldOrder_iff {position : Position} :
    Equal .fieldOrder position a b ↔ a.normal = b.normal := by
  constructor
  · intro hequal
    induction hequal with
    | refl => rfl
    | symm _ ih => exact ih.symm
    | trans _ _ ih ih' => exact ih.trans ih'
    | ident => rfl
    | arrow _ _ iha ihb | app loc loc' _ _ iha ihb | field key _ _ iha ihb =>
      simp [normal, iha, ihb]
    | generic param _ ih | record label _ ih => simp [normal, ih]
    | swap a b base hkeys => simp [normal, insertField_comm hkeys]
    | label a label label' hlabels => cases hlabels
    | unfold loc hname => cases hname
    | spread loc hname => cases hname
  · intro hnormal
    have hequal := Equal.normal .fieldOrder position a
    rw [hnormal] at hequal
    exact hequal.trans (Equal.normal .fieldOrder position b).symm

instance (position : Position) (a b : Ty) : Decidable (Equal .fieldOrder position a b) :=
  decidable_of_iff (a.normal = b.normal) equal_fieldOrder_iff.symm

end RowScript.Ty
