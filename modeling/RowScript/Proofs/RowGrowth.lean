import Mathlib.Data.Finset.Card
import RowScript.Proofs.RigidTypes

/-!
# How deep growing rows can get

While rows are equated, a placeholder at the end of a row is replaced by a field and a new
placeholder, again and again. `Growth.height_lt` bounds the depth of all that can be built from
given types in this way.
-/

namespace RowScript.Ty

/-- The depth of a type. The fields of a row stand side by side, so that a row is no deeper
for being longer. -/
def height : Ty → Nat
  | .ident .. | .hole _ | .emptyRow => 0
  | .arrow a b | .app a b _ => max (height a) (height b) + 1
  | .generic _ inner | .record inner _ => height inner + 1
  | .field _ type base => max (height type + 1) (height base)

variable {f : Nat → Ty} {ty : Ty}

/-- Under a substitution a type is deeper by at most the depth of what is put in. -/
theorem height_bindHoles_le {bound : Nat} (hbound : ∀ i ∈ ty.holes, (f i).height ≤ bound) :
    (ty.bindHoles f).height ≤ ty.height + bound := by
  induction ty with
  | ident | emptyRow => simp [bindHoles, height]
  | hole i => simpa [bindHoles, height] using hbound i (by simp [holes])
  | arrow a b iha ihb | app a b _ iha ihb | field _ a b iha ihb =>
    simp only [holes, List.mem_append] at hbound
    have ha := iha fun i hi => hbound i (.inl hi)
    have hb := ihb fun i hi => hbound i (.inr hi)
    simp only [bindHoles, height]
    omega
  | generic _ a ih | record a _ ih =>
    have ha := ih hbound
    simp only [bindHoles, height]
    omega

/-- A type that is built from a plan: a type of limited depth over the given placeholders,
in which `f` then replaces them. -/
def Chunk (vars : Finset Nat) (depth : Nat) (f : Nat → Ty) (ty : Ty) : Prop :=
  ∃ plan : Ty, plan.height ≤ depth ∧ (∀ i ∈ plan.holes, i ∈ vars) ∧ plan.bindHoles f = ty

/-- A placeholder with chunks as fields in front of it. -/
inductive Extension (vars : Finset Nat) (depth : Nat) (f : Nat → Ty) : Ty → Prop where
  | hole (id : Nat) : Extension vars depth f (.hole id)
  | field {type base : Ty} (key : String) (htype : Chunk vars depth f type)
      (hbase : Extension vars depth f base) : Extension vars depth f (.field key type base)

/-- Placeholders have only been extended by chunks. Since a chunk is finite and contains
what its placeholders have become, no placeholder stands under itself. -/
def Growth (vars : Finset Nat) (depth : Nat) (f : Nat → Ty) : Prop :=
  ∀ i ∈ vars, Extension vars depth f (f i)

variable {vars : Finset Nat} {depth i : Nat}

/-- The placeholders that have become smaller than a given one. -/
def smaller (vars : Finset Nat) (f : Nat → Ty) (i : Nat) : Finset Nat :=
  vars.filter fun j => (f j).size < (f i).size

theorem card_smaller_lt {j : Nat} (hj : j ∈ vars) (hlt : (f j).size < (f i).size) :
    (smaller vars f j).card < (smaller vars f i).card := by
  refine Finset.card_lt_card (Finset.ssubset_iff_of_subset (fun k hk => ?_) |>.mpr ⟨j, ?_, ?_⟩)
  · simp only [smaller, Finset.mem_filter] at hk ⊢
    exact ⟨hk.1, Nat.lt_trans hk.2 hlt⟩
  · simp [smaller, hj, hlt]
  · simp [smaller]

/-- Each placeholder that is passed on the way down leaves fewer for the rest of the way. -/
theorem Growth.height_le_of_smaller (hgrowth : Growth vars depth f) (hi : i ∈ vars) :
    (f i).height ≤ ((smaller vars f i).card + 1) * (depth + 1) := by
  induction hsize : (f i).size using Nat.strongRecOn generalizing i with
  | ind total ih =>
    have hrow : ∀ row, Extension vars depth f row → row.size ≤ (f i).size →
        row.height ≤ ((smaller vars f i).card + 1) * (depth + 1) := by
      intro row hrow
      induction hrow with
      | hole id => simp [height]
      | field key htype hbase ihbase =>
        intro hle
        simp only [size] at hle
        obtain ⟨plan, hplan, hvars, rfl⟩ := htype
        have hinside : ∀ j ∈ plan.holes,
            (f j).height ≤ (smaller vars f i).card * (depth + 1) := by
          intro j hj
          have hlt : (f j).size < (f i).size := by
            have := size_le_of_mem_holes (f := f) hj
            omega
          have hcard := card_smaller_lt (hvars j hj) hlt
          calc (f j).height ≤ ((smaller vars f j).card + 1) * (depth + 1) :=
                ih _ (hsize ▸ hlt) (hvars j hj) rfl
            _ ≤ (smaller vars f i).card * (depth + 1) := Nat.mul_le_mul_right _ hcard
        have htype := height_bindHoles_le hinside
        have hbase := ihbase (by omega)
        rw [height, Nat.max_le]
        refine ⟨?_, hbase⟩
        rw [Nat.add_one_mul]
        omega
    exact hrow (f i) (hgrowth i hi) (Nat.le_refl _)

/-- The bound for what is built from a type over the placeholders. -/
def depthBound (vars : Finset Nat) (depth : Nat) : Nat := (vars.card + 1) * (depth + 1)

theorem Growth.height_lt (hgrowth : Growth vars depth f) (hchunk : Chunk vars depth f ty) :
    ty.height < depthBound vars depth := by
  obtain ⟨plan, hplan, hvars, rfl⟩ := hchunk
  have hinside : ∀ i ∈ plan.holes, (f i).height ≤ vars.card * (depth + 1) := by
    intro i hi
    have hcard : (smaller vars f i).card < vars.card := by
      refine Finset.card_lt_card (Finset.ssubset_iff_of_subset (Finset.filter_subset _ _) |>.mpr
        ⟨i, hvars i hi, ?_⟩)
      simp
    exact Nat.le_trans (hgrowth.height_le_of_smaller (hvars i hi)) (Nat.mul_le_mul_right _ hcard)
  have hheight := height_bindHoles_le hinside
  rw [depthBound, Nat.add_one_mul]
  omega

/-- A chunk, or a row whose fields are chunks. -/
inductive Composed (vars : Finset Nat) (depth : Nat) (f : Nat → Ty) : Ty → Prop where
  | chunk {ty : Ty} (hchunk : Chunk vars depth f ty) : Composed vars depth f ty
  | hole (id : Nat) : Composed vars depth f (.hole id)
  | field {type base : Ty} (key : String) (htype : Chunk vars depth f type)
      (hbase : Composed vars depth f base) : Composed vars depth f (.field key type base)

variable {a b : Ty}

theorem Extension.composed (hrow : Extension vars depth f ty) : Composed vars depth f ty := by
  induction hrow with
  | hole id => exact .hole id
  | field key htype hbase ih => exact .field key htype ih

theorem Chunk.of_height (hdepth : ty.height ≤ depth) (hvars : ∀ i ∈ ty.holes, i ∈ vars) :
    Chunk vars depth .hole ty :=
  ⟨ty, hdepth, hvars, bindHoles_hole ty⟩

section Growth

variable (hgrowth : Growth vars depth f) {key : String}

include hgrowth

/-- What is built from a plan has the form of the plan, or is what a placeholder became. -/
theorem Chunk.cases (hchunk : Chunk vars depth f ty) :
    Extension vars depth f ty ∨ ∃ plan : Ty, plan.height ≤ depth ∧ (∀ i ∈ plan.holes, i ∈ vars) ∧
      plan.bindHoles f = ty ∧ ∀ i, plan ≠ .hole i := by
  obtain ⟨plan, hplan, hvars, hty⟩ := hchunk
  by_cases hhole : ∃ i, plan = .hole i
  · obtain ⟨i, rfl⟩ := hhole
    exact .inl (hty ▸ hgrowth i (hvars i (by simp [holes])))
  · exact .inr ⟨plan, hplan, hvars, hty, fun i hi => hhole ⟨i, hi⟩⟩

theorem Composed.of_field (hrow : Composed vars depth f (.field key a b)) :
    Chunk vars depth f a ∧ Composed vars depth f b := by
  cases hrow with
  | field _ htype hbase => exact ⟨htype, hbase⟩
  | chunk hchunk =>
    obtain hrow | ⟨plan, hplan, hvars, hty, hne⟩ := hchunk.cases hgrowth
    · cases hrow with
      | field _ htype hbase => exact ⟨htype, hbase.composed⟩
    · cases plan with
      | hole i => exact absurd rfl (hne i)
      | field k t base =>
        simp only [bindHoles, field.injEq] at hty
        simp only [height, Nat.max_le] at hplan
        simp only [holes, List.mem_append] at hvars
        exact ⟨⟨t, by omega, fun i hi => hvars i (.inl hi), hty.2.1⟩,
          .chunk ⟨base, hplan.2, fun i hi => hvars i (.inr hi), hty.2.2⟩⟩
      | _ => cases hty

theorem Composed.of_arrow (hty : Composed vars depth f (.arrow a b)) :
    Chunk vars depth f a ∧ Chunk vars depth f b := by
  cases hty with
  | chunk hchunk =>
    obtain hrow | ⟨plan, hplan, hvars, hty, hne⟩ := hchunk.cases hgrowth
    · cases hrow
    · cases plan with
      | hole i => exact absurd rfl (hne i)
      | arrow c d =>
        simp only [bindHoles, arrow.injEq] at hty
        simp only [height] at hplan
        simp only [holes, List.mem_append] at hvars
        exact ⟨⟨c, by omega, fun i hi => hvars i (.inl hi), hty.1⟩,
          ⟨d, by omega, fun i hi => hvars i (.inr hi), hty.2⟩⟩
      | _ => cases hty

theorem Composed.of_app {loc : Loc} (hty : Composed vars depth f (.app a b loc)) :
    Chunk vars depth f a ∧ Chunk vars depth f b := by
  cases hty with
  | chunk hchunk =>
    obtain hrow | ⟨plan, hplan, hvars, hty, hne⟩ := hchunk.cases hgrowth
    · cases hrow
    · cases plan with
      | hole i => exact absurd rfl (hne i)
      | app c d _ =>
        simp only [bindHoles, app.injEq] at hty
        simp only [height] at hplan
        simp only [holes, List.mem_append] at hvars
        exact ⟨⟨c, by omega, fun i hi => hvars i (.inl hi), hty.1⟩,
          ⟨d, by omega, fun i hi => hvars i (.inr hi), hty.2.1⟩⟩
      | _ => cases hty

theorem Composed.of_record {label : Option String}
    (hty : Composed vars depth f (.record a label)) : Chunk vars depth f a := by
  cases hty with
  | chunk hchunk =>
    obtain hrow | ⟨plan, hplan, hvars, hty, hne⟩ := hchunk.cases hgrowth
    · cases hrow
    · cases plan with
      | hole i => exact absurd rfl (hne i)
      | record c _ =>
        simp only [bindHoles, record.injEq] at hty
        simp only [height] at hplan
        exact ⟨c, by omega, hvars, hty.1⟩
      | _ => cases hty

/-- A row with a field of a given key, the type of that field and the row without it. -/
inductive Taken (key : String) : Ty → Ty → Ty → Prop where
  | here (type base : Ty) : Taken key (.field key type base) type base
  | behind {base found rest : Ty} (k : String) (type : Ty) (htaken : Taken key base found rest) :
      Taken key (.field k type base) found (.field k type rest)

theorem Composed.taken {row found rest : Ty} (hrow : Composed vars depth f row)
    (htaken : Taken key row found rest) :
    Chunk vars depth f found ∧ Composed vars depth f rest := by
  induction htaken with
  | here type base => exact hrow.of_field hgrowth
  | behind k type htaken ih =>
    obtain ⟨htype, hbase⟩ := hrow.of_field hgrowth
    obtain ⟨hfound, hrest⟩ := ih hbase
    exact ⟨hfound, .field k htype hrest⟩

theorem Composed.withTail {row : Ty} (hrow : Composed vars depth f row) (id : Nat) :
    Composed vars depth f (row.withTail (.hole id)) := by
  induction row with
  | field k t base iht ihbase =>
    obtain ⟨htype, hbase⟩ := hrow.of_field hgrowth
    exact .field k htype (ihbase hbase)
  | _ => exact .hole id

end Growth

/-- What placeholders become when they are replaced once more. -/
def afterwards (f g : Nat → Ty) (i : Nat) : Ty := (f i).bindHoles g

variable {g : Nat → Ty}

theorem Chunk.afterwards (hchunk : Chunk vars depth f ty) :
    Chunk vars depth (afterwards f g) (ty.bindHoles g) := by
  obtain ⟨plan, hplan, hvars, rfl⟩ := hchunk
  exact ⟨plan, hplan, hvars, (bindHoles_bindHoles f g plan).symm⟩

theorem Extension.afterwards (hg : ∀ i, Extension vars depth (afterwards f g) (g i))
    (hrow : Extension vars depth f ty) :
    Extension vars depth (afterwards f g) (ty.bindHoles g) := by
  induction hrow with
  | hole id => exact hg id
  | field key htype hbase ih => exact .field key htype.afterwards ih

theorem Composed.afterwards (hg : ∀ i, Extension vars depth (afterwards f g) (g i))
    (hrow : Composed vars depth f ty) : Composed vars depth (afterwards f g) (ty.bindHoles g) := by
  induction hrow with
  | chunk hchunk => exact .chunk hchunk.afterwards
  | hole id => exact (hg id).composed
  | field key htype hbase ih => exact .field key htype.afterwards ih

theorem Growth.afterwards (hgrowth : Growth vars depth f)
    (hg : ∀ i, Extension vars depth (afterwards f g) (g i)) : Growth vars depth (afterwards f g) :=
  fun i hi => (hgrowth i hi).afterwards hg

/-- The substitution that replaces a single placeholder. -/
def single (id : Nat) (replacement : Ty) (i : Nat) : Ty :=
  if i = id then replacement else .hole i

/-- A placeholder is extended by a field with a type in which it does not occur. -/
theorem Chunk.extension_single {type : Ty} {id : Nat} (htype : Chunk vars depth f type)
    (hid : id ∉ type.holes) (key : String) (rest i : Nat) :
    let g := single id (.field key type (.hole rest))
    Extension vars depth (Ty.afterwards f g) (g i) := by
  intro g
  have hsame : type.bindHoles g = type := by
    refine (bindHoles_congr fun j hj => if_neg ?_).trans (bindHoles_hole type)
    rintro rfl
    exact hid hj
  have htype := htype.afterwards (g := g)
  rw [hsame] at htype
  by_cases hi : i = id
  · have hgi : g i = .field key type (.hole rest) := if_pos hi
    rw [hgi]
    exact .field key htype (.hole rest)
  · have hgi : g i = .hole i := if_neg hi
    rw [hgi]
    exact .hole i

/-- However placeholders grow from here on, the type stays less deep than the limit. -/
def Limited (vars : Finset Nat) (depth : Nat) (f : Nat → Ty) (limit : Nat) (ty : Ty) : Prop :=
  ∀ g, Growth vars depth (afterwards f g) → (ty.bindHoles g).height < limit

variable {limit : Nat}

theorem Chunk.limited (hchunk : Chunk vars depth f ty) :
    Limited vars depth f (depthBound vars depth) ty :=
  fun _ hgrowth => hgrowth.height_lt hchunk.afterwards

theorem Limited.afterwards (hlimited : Limited vars depth f limit ty) (g : Nat → Ty) :
    Limited vars depth (Ty.afterwards f g) limit (ty.bindHoles g) := by
  intro g' hgrowth
  rw [bindHoles_bindHoles]
  refine hlimited (fun i => (g i).bindHoles g') fun i hi => ?_
  have hsame : Ty.afterwards f (fun i => (g i).bindHoles g') =
      Ty.afterwards (Ty.afterwards f g) g' := by
    funext j
    exact (bindHoles_bindHoles g g' (f j)).symm
  rw [hsame]
  exact hgrowth i hi

theorem Limited.height_lt (hlimited : Limited vars depth f limit ty)
    (hgrowth : Growth vars depth f) : ty.height < limit := by
  have hsame : Ty.afterwards f .hole = f := funext fun i => bindHoles_hole (f i)
  have hheight := hlimited .hole (hsame.symm ▸ hgrowth)
  rwa [bindHoles_hole] at hheight

/-- A part that always lies deeper than the whole has a smaller limit. -/
theorem Limited.part {part : Ty} (hpart : ∀ g, (part.bindHoles g).height < (ty.bindHoles g).height)
    (hlimited : Limited vars depth f (limit + 1) ty) : Limited vars depth f limit part := by
  intro g hgrowth
  have hwhole := hlimited g hgrowth
  have := hpart g
  omega

theorem Limited.base {key : String} (hlimited : Limited vars depth f limit (.field key a b)) :
    Limited vars depth f limit b := by
  intro g hgrowth
  have hwhole := hlimited g hgrowth
  simp only [bindHoles, height] at hwhole
  omega

end RowScript.Ty
