import RowScript.Proofs.InferenceSoundness
import RowScript.Proofs.RowGrowth
import RowScript.Proofs.SolverFaults

/-!
# Solving ends

Where no name is declared as another type, every run of the solver ends. Either the placeholders get
fewer, or equations are started inside of equations, and the depth of the types is used up, which is
bounded by `Ty.Growth.height_lt`.
-/

namespace RowScript

open Ty List

variable {key : String} {row : Ty}

open Bool (and_eq_true)

namespace Solver

variable {ctx : Context}

/-- One rule is applied to the first of some equations. The numbers are the placeholders
handed out last. -/
inductive Moves (ctx : Context) : Nat → List Constraint → Nat → List Constraint → Prop where
  | reduce {n m : Nat} {lhs rhs : Ty} {new rest : List Constraint}
      (hreduces : Reduces ctx n lhs rhs m new) : Moves ctx n ((lhs, rhs) :: rest) m (new ++ rest)
  | assign {n id : Nat} {lhs rhs ty : Ty} {rest : List Constraint}
      (hassigns : Assigns lhs rhs id ty) :
      Moves ctx n ((lhs, rhs) :: rest) n (rest.map (replaceBoth id ty))

/-- However the rules are applied, they cannot be applied for ever. -/
inductive Halts (ctx : Context) : Nat → List Constraint → Prop where
  | intro {n : Nat} {pending : List Constraint}
      (hmoves : ∀ m next, Moves ctx n pending m next → Halts ctx m next) : Halts ctx n pending

/-- The placeholders of some equations are among known ones, which were all handed out. -/
structure Confined (known : Finset Nat) (n : Nat) (pending : List Constraint) : Prop where
  monomorphic : Monomorphic pending
  mentioned : ∀ c ∈ pending, ∀ i, i ∈ c.1.holes ∨ i ∈ c.2.holes → i ∈ known
  issued : ∀ i ∈ known, i ≤ n

/-- The rows end differently, and the second one in a placeholder. -/
def Apart (lhs rhs : Ty) : Prop := ∃ id, rhs.rowTail = .hole id ∧ lhs.rowTail ≠ .hole id

variable {known : Finset Nat} {n m id i : Nat} {lhs rhs ty found remainder : Ty}
  {new rest pending : List Constraint}

/-! ## Which placeholders are left -/

section

variable (hconfined : Confined known n ((lhs, rhs) :: rest))

include hconfined

theorem Confined.tail :
    Confined known n rest where
  monomorphic c hc := hconfined.monomorphic c (mem_cons_of_mem _ hc)
  mentioned c hc := hconfined.mentioned c (mem_cons_of_mem _ hc)
  issued := hconfined.issued

/-- The first equation may be replaced by equations between its parts. -/
theorem Confined.parts (hnew : Monomorphic new)
    (hholes : ∀ c ∈ new, ∀ i, i ∈ c.1.holes ∨ i ∈ c.2.holes → i ∈ lhs.holes ∨ i ∈ rhs.holes) :
    Confined known n (new ++ rest) where
  monomorphic c hc := by
    obtain hc | hc := mem_append.mp hc
    · exact hnew c hc
    · exact hconfined.tail.monomorphic c hc
  mentioned c hc i hi := by
    obtain hc | hc := mem_append.mp hc
    · exact hconfined.mentioned (lhs, rhs) mem_cons_self i (hholes c hc i hi)
    · exact hconfined.tail.mentioned c hc i hi
  issued := hconfined.issued

/-- What a placeholder is replaced by comes from the equation that is solved. -/
theorem Confined.assign (hassigns : Assigns lhs rhs id ty) :
    id ∈ known ∧ Confined (known.erase id) n (rest.map (replaceBoth id ty)) := by
  have hsides : id ∈ known ∧ id ∉ ty.holes ∧ ty.isMonomorphic ∧ ∀ i ∈ ty.holes, i ∈ known := by
    have hmono := hconfined.monomorphic (lhs, rhs) mem_cons_self
    have hknown := hconfined.mentioned (lhs, rhs) mem_cons_self
    cases hassigns with
    | right hid =>
      exact ⟨hknown id (.inr (by simp [holes])), hid, hmono.1, fun i hi => hknown i (.inl hi)⟩
    | left hid =>
      exact ⟨hknown id (.inl (by simp [holes])), hid, hmono.2, fun i hi => hknown i (.inr hi)⟩
  obtain ⟨hid, hoccurs, hmono, hknown⟩ := hsides
  have hside {side : Ty} {i : Nat} (hside : ∀ j ∈ side.holes, j ∈ known)
      (hi : i ∈ (side.replaceHole id ty).holes) : i ∈ known.erase id := by
    rw [Finset.mem_erase]
    obtain ⟨hi, hne⟩ | hi := mem_holes_replaceHole hi
    · exact ⟨hne, hside i hi⟩
    · exact ⟨fun heq => hoccurs (heq ▸ hi), hknown i hi⟩
  refine ⟨hid, ?_, ?_, fun i hi => hconfined.issued i (Finset.mem_of_mem_erase hi)⟩
  · intro c hc
    obtain ⟨old, hold, rfl⟩ := mem_map.mp hc
    have hsides := hconfined.tail.monomorphic old hold
    exact ⟨isMonomorphic_replaceHole hsides.1 hmono,
      isMonomorphic_replaceHole hsides.2 hmono⟩
  · intro c hc i hi
    obtain ⟨old, hold, rfl⟩ := mem_map.mp hc
    have hsides := hconfined.tail.mentioned old hold
    exact hi.elim (hside fun j hj => hsides j (.inl hj)) (hside fun j hj => hsides j (.inr hj))

end

/-! ## Which rules apply -/

section Rigid

variable (hctx : ∀ name, ctx.alias? name = none)
include hctx

theorem isMonomorphic_ofContext : (Convention.ofContext ctx).IsMonomorphic := by
  intro name a ha
  have hnone : (Convention.ofContext ctx).alias? name = none := hctx name
  rw [hnone] at ha
  cases ha

/-- A wanted field is found in a row, or the row ends in a placeholder that is extended. -/
theorem Pulls.cases {type tail remainder : Ty} {found : Constraint}
    (hpulls : Pulls ctx key type tail n row m found remainder) :
    (∃ t, Taken key row t remainder ∧ found = (type, t) ∧ m = n) ∨
    (∃ id, row.rowTail = .hole id ∧ tail ≠ .hole id ∧ m = n + 1 ∧
      found = (.hole id, .field key type (.hole (n + 1))) ∧
      remainder = row.withTail (.hole (n + 1))) := by
  induction hpulls with
  | here t base => exact .inl ⟨t, .here t base, rfl, rfl⟩
  | behind t hkey hpulls ih =>
    obtain ⟨found, htaken, hfound, hm⟩ | ⟨id, htail, hne, hm, hfound, hrest⟩ := ih
    · exact .inl ⟨found, .behind _ t htaken, hfound, hm⟩
    · exact .inr ⟨id, htail, hne, hm, hfound, by simp [withTail, hrest]⟩
  | extend htail => exact .inr ⟨_, rfl, htail, rfl, rfl, rfl⟩
  | declared nameLoc hname hpulls ih =>
    rw [hctx] at hname
    cases hname

end Rigid

/-! ## The ends of rows -/

theorem rowTail_bindHoles (f : Nat → Ty) (row : Ty) :
    (row.bindHoles f).rowTail = (row.rowTail.bindHoles f).rowTail := by
  induction row with
  | field k t base iht ihbase => exact ihbase
  | _ => rfl

theorem rowTail_withTail (row : Ty) (id : Nat) : (row.withTail (.hole id)).rowTail = .hole id := by
  induction row with
  | field k t base iht ihbase => exact ihbase
  | _ => rfl

theorem rowTail_of_taken (htaken : Taken key row found remainder) :
    remainder.rowTail = row.rowTail := by
  induction htaken with
  | here => rfl
  | behind _ _ _ ih => exact ih

theorem rowTail_of_agrees {row' : Ty} (hagrees : row.agrees row') (htail : row'.rowTail = .hole id)
    : row.rowTail = .hole id := by
  induction row generalizing row' with
  | field k t base iht ihbase =>
    cases row' with
    | field k' t' base' =>
      simp only [agrees, and_eq_true] at hagrees
      exact ihbase hagrees.2 htail
    | _ => cases hagrees
  | hole i =>
    cases row' with
    | hole j =>
      obtain rfl : i = j := by simpa [agrees] using hagrees
      exact htail
    | _ => cases hagrees
  | _ =>
    cases row' with
    | hole j => cases hagrees
    | field => cases hagrees
    | _ => cases htail

/-- Where a row does not end in the placeholder that is replaced, it keeps its fields, and it
ends in the same placeholder as before or still in none. -/
theorem tail_replaceHole (htail : row.rowTail ≠ .hole id) (type : Ty) :
    (row.replaceHole id type).rowLength = row.rowLength ∧
      ∀ i, (row.replaceHole id type).rowTail = .hole i → row.rowTail = .hole i := by
  induction row with
  | field k t base iht ihbase =>
    obtain ⟨hlength, hsame⟩ := ihbase htail
    exact ⟨congrArg (· + 1) hlength, hsame⟩
  | hole j =>
    have hkept : (hole j).replaceHole id type = .hole j :=
      if_neg fun heq => htail (congrArg hole heq)
    rw [hkept]
    exact ⟨rfl, fun _ hi => hi⟩
  | _ => exact ⟨rfl, fun _ hi => by cases hi⟩

theorem isMonomorphic_of_taken (hrow : row.isMonomorphic) (htaken : Taken key row found remainder) :
    found.isMonomorphic ∧ remainder.isMonomorphic := by
  induction htaken with
  | here => simpa [isMonomorphic] using hrow
  | behind _ _ _ ih =>
    simp only [isMonomorphic, and_eq_true] at hrow
    obtain ⟨hfound, hremainder⟩ := ih hrow.2
    exact ⟨hfound, by simp [isMonomorphic, hrow.1, hremainder]⟩

theorem mem_holes_of_taken (htaken : Taken key row found remainder)
    (hi : i ∈ found.holes ∨ i ∈ remainder.holes) : i ∈ row.holes := by
  induction htaken with
  | here => exact mem_append.mpr hi
  | behind _ _ _ ih =>
    rw [holes, mem_append] at hi ⊢
    obtain hi | hi | hi := hi
    · exact .inr (ih (.inl hi))
    · exact .inl hi
    · exact .inr (ih (.inr hi))

theorem holes_withTail (hi : i ∈ (row.withTail (.hole id)).holes) : i ∈ row.holes ∨ i = id := by
  induction row with
  | field k t base iht ihbase =>
    simp only [withTail, holes, mem_append] at hi ⊢
    obtain hi | hi := hi
    · exact .inl (.inl hi)
    · exact (ihbase hi).imp_left .inr
  | _ =>
    right
    simpa [withTail, holes] using hi

theorem isMonomorphic_withTail (hrow : row.isMonomorphic) (id : Nat) :
    (row.withTail (.hole id)).isMonomorphic := by
  induction row with
  | field k t base iht ihbase =>
    simp only [isMonomorphic, and_eq_true] at hrow
    simp [withTail, isMonomorphic, hrow.1, ihbase hrow.2]
  | _ => rfl

/-! ## One equation after the other -/

/-- An equation in the course of solving, in front of others. Its sides are made of chunks,
and there are at most `most` placeholders left. -/
structure Underway (vars : Finset Nat) (depth : Nat) (f : Nat → Ty) (limit most : Nat)
    (known : Finset Nat) (n : Nat) (lhs rhs : Ty) (rest : List Constraint) : Prop where
  growth : Growth vars depth f
  left : Composed vars depth f lhs
  right : Composed vars depth f rhs
  limited : Limited vars depth f limit lhs
  few : known.card ≤ most
  confined : Confined known n ((lhs, rhs) :: rest)

section

variable {vars : Finset Nat} {depth limit most : Nat} {f : Nat → Ty} {key : String}
  {type base : Ty}

/-- An equation between parts of the two sides takes the place of the equation. -/
theorem Underway.part {limit' : Nat} {lhs' rhs' : Ty} {rest' : List Constraint}
    (hunderway : Underway vars depth f limit most known n lhs rhs rest)
    (hleft : Composed vars depth f lhs') (hright : Composed vars depth f rhs')
    (hlimited : Limited vars depth f limit' lhs')
    (hconfined : Confined known n ((lhs', rhs') :: rest')) :
    Underway vars depth f limit' most known n lhs' rhs' rest' :=
  ⟨hunderway.growth, hleft, hright, hlimited, hunderway.few, hconfined⟩

/-- A row that lacks a field is extended by it. What is left to compare of the two rows is
shorter, and the rows end differently. -/
theorem Underway.extended
    (hunderway : Underway vars depth f limit most known n (.field key type base) rhs rest)
    (htail : rhs.rowTail = .hole id) (hne : base.rowTail ≠ .hole id) (hid : id ∉ type.holes) :
    let replacement := Ty.field key type (.hole (n + 1))
    let base' := base.replaceHole id replacement
    let rhs' := (rhs.withTail (.hole (n + 1))).replaceHole id replacement
    ∃ f' known', Underway vars depth f' limit most known' (n + 1) base' rhs'
        (rest.map (replaceBoth id replacement)) ∧
      Apart base' rhs' ∧ base'.rowLength = base.rowLength := by
  intro replacement base' rhs'
  obtain ⟨htype, hbase⟩ := hunderway.left.of_field hunderway.growth
  have hconfined := hunderway.confined
  have hmentioned := hconfined.mentioned _ mem_cons_self
  obtain ⟨hlhsMono, hrhsMono⟩ := hconfined.monomorphic _ mem_cons_self
  simp only [isMonomorphic, and_eq_true] at hlhsMono
  have hknown : id ∈ known := hmentioned id (.inr (mem_holes_of_rowTail htail))
  have hfresh : n + 1 ≠ id := by
    have := hconfined.issued id hknown
    omega
  have hg := htype.extension_single hid key (n + 1)
  refine ⟨afterwards f (single id replacement), (insert (n + 1) known).erase id,
    ⟨hunderway.growth.afterwards hg, hbase.afterwards hg,
      (hunderway.right.withTail hunderway.growth (n + 1)).afterwards hg,
      hunderway.limited.base.afterwards _, ?_, ?_⟩, ⟨n + 1, ?_, fun hsame => ?_⟩,
    (tail_replaceHole hne replacement).1⟩
  · rw [Finset.card_erase_of_mem (Finset.mem_insert_of_mem hknown)]
    have := Finset.card_insert_le (n + 1) known
    have := hunderway.few
    omega
  · -- the equations before the placeholder is replaced
    have hbefore : Confined (insert (n + 1) known) (n + 1)
        ((.hole id, replacement) :: (base, rhs.withTail (.hole (n + 1))) :: rest) := by
      refine ⟨?_, ?_, ?_⟩
      · refine forall_mem_cons.mpr ⟨⟨rfl, ?_⟩, forall_mem_cons.mpr
          ⟨⟨hlhsMono.2, isMonomorphic_withTail hrhsMono _⟩, hconfined.tail.monomorphic⟩⟩
        simp [replacement, isMonomorphic, hlhsMono.1]
      · simp only [holes, mem_append] at hmentioned
        refine forall_mem_cons.mpr ⟨fun i hi => ?_, forall_mem_cons.mpr
          ⟨fun i hi => ?_, fun c hc i hi => Finset.mem_insert_of_mem
            (hconfined.tail.mentioned c hc i hi)⟩⟩
        · simp only [replacement, holes, mem_append, mem_singleton] at hi
          rw [Finset.mem_insert]
          obtain rfl | hi | rfl := hi
          · exact .inr hknown
          · exact .inr (hmentioned i (.inl (.inl hi)))
          · exact .inl rfl
        · rw [Finset.mem_insert]
          obtain hi | hi := hi
          · exact .inr (hmentioned i (.inl (.inr hi)))
          · exact (holes_withTail hi).symm.imp_right fun hi => hmentioned i (.inr hi)
      · intro i hi
        obtain rfl | hi := Finset.mem_insert.mp hi
        · exact Nat.le_refl _
        · exact Nat.le_succ_of_le (hconfined.issued i hi)
    have hreplaced : id ∉ replacement.holes := by
      simp [replacement, holes, hid, hfresh.symm]
    exact (hbefore.assign (.left hreplaced)).2
  · have hkept : (hole (n + 1)).replaceHole id replacement = .hole (n + 1) := if_neg hfresh
    rw [show rhs'.rowTail = _ from rowTail_bindHoles _ _, rowTail_withTail]
    exact congrArg rowTail hkept
  · have hmem := mem_holes_of_rowTail ((tail_replaceHole hne replacement).2 _ hsame)
    have hle := hconfined.issued (n + 1)
      (hmentioned _ (.inl (mem_append_right _ hmem)))
    omega

/-- The two parts of an equation come one after the other, and both lie deeper than it. -/
theorem Underway.parts {a b a' b' : Ty}
    (hunderway : Underway vars depth f (limit + 1) most known n lhs rhs rest)
    (ha : Chunk vars depth f a ∧ Chunk vars depth f b)
    (ha' : Chunk vars depth f a' ∧ Chunk vars depth f b')
    (hlow : ∀ g, (a.bindHoles g).height < (lhs.bindHoles g).height ∧
      (b.bindHoles g).height < (lhs.bindHoles g).height) (hlhs : lhs.holes = a.holes ++ b.holes)
    (hrhs : rhs.holes = a'.holes ++ b'.holes) (hmono : Monomorphic [(a, a'), (b, b')]) :
    Underway vars depth f limit most known n a a' ((b, b') :: rest) ∧
      Underway vars depth f limit most known n b b' rest := by
  have hconfined : Confined known n ([(a, a'), (b, b')] ++ rest) := by
    refine hunderway.confined.parts hmono fun c hc i hi => ?_
    simp only [mem_cons, not_mem_nil, or_false] at hc
    rw [hlhs, hrhs, mem_append, mem_append]
    obtain rfl | rfl := hc
    · exact hi.imp .inl .inl
    · exact hi.imp .inr .inr
  exact ⟨hunderway.part (.chunk ha.1) (.chunk ha'.1) (hunderway.limited.part fun g => (hlow g).1)
      hconfined,
    hunderway.part (.chunk ha.2) (.chunk ha'.2) (hunderway.limited.part fun g => (hlow g).2)
      hconfined.tail⟩

/-- A field that both rows have: its types come first, and then the rows without it. -/
theorem Underway.taken
    (hunderway : Underway vars depth f (limit + 1) most known n (.field key type base) rhs rest)
    (htaken : Taken key rhs found remainder) :
    Underway vars depth f limit most known n type found ((base, remainder) :: rest) ∧
      Underway vars depth f (limit + 1) most known n base remainder rest := by
  obtain ⟨htype, hbase⟩ := hunderway.left.of_field hunderway.growth
  obtain ⟨hfound, hremainder⟩ := hunderway.right.taken hunderway.growth htaken
  obtain ⟨hlhsMono, hrhsMono⟩ := hunderway.confined.monomorphic _ mem_cons_self
  simp only [isMonomorphic, and_eq_true] at hlhsMono
  obtain ⟨hfoundMono, hremainderMono⟩ := isMonomorphic_of_taken hrhsMono htaken
  have hconfined : Confined known n ([(type, found), (base, remainder)] ++ rest) := by
    refine hunderway.confined.parts ?_ fun c hc i hi => ?_
    · simp [Monomorphic, hlhsMono, hfoundMono, hremainderMono]
    · simp only [holes, mem_append, mem_cons, not_mem_nil, or_false] at hc ⊢
      obtain rfl | rfl := hc
      · exact hi.imp .inl fun hi => mem_holes_of_taken htaken (.inl hi)
      · exact hi.imp .inr fun hi => mem_holes_of_taken htaken (.inr hi)
  refine ⟨hunderway.part (.chunk htype) (.chunk hfound) (hunderway.limited.part fun g => ?_)
    hconfined, hunderway.part hbase hremainder hunderway.limited.base hconfined.tail⟩
  simp only [bindHoles, height]
  omega

variable (hctx : ∀ name, ctx.alias? name = none)
  (hfewer : ∀ {known n pending}, known.card < most → Confined known n pending → Halts ctx n pending)

include hfewer in
/-- Whatever a placeholder gets as its type, fewer of them are left. -/
theorem Underway.halts_of_assigns
    (hunderway : Underway vars depth f limit most known n lhs rhs rest)
    (hassigns : Assigns lhs rhs id ty) : Halts ctx n (rest.map (replaceBoth id ty)) := by
  obtain ⟨hid, hconfined⟩ := hunderway.confined.assign hassigns
  refine hfewer ?_ hconfined
  rw [Finset.card_erase_of_mem hid]
  have hpos := Finset.card_pos.mpr ⟨id, hid⟩
  have := hunderway.few
  omega

omit hctx hfewer in
/-- The equation of a placeholder with its extension can only be solved by extending it. -/
theorem halts_extension
    (hpending : id ∉ type.holes →
      Halts ctx n (pending.map (replaceBoth id (.field key type (.hole m))))) :
    Halts ctx n ((.hole id, .field key type (.hole m)) :: pending) := by
  refine .intro fun m' next hmoves => ?_
  cases hmoves with
  | assign hassigns =>
    cases hassigns with
    | left hid => exact hpending fun hmem => hid (mem_append_left _ hmem)
  | reduce hreduces =>
    cases hreduces with
    | agree hagrees => cases hagrees

include hctx hfewer in
/-- Solving an equation comes to an end if the equations behind it do. It also does so if
the equation is about two rows that end differently: then what is behind it is only reached
with fewer placeholders. -/
theorem Underway.halts (hunderway : Underway vars depth f limit most known n lhs rhs rest)
    (hrest : Halts ctx n rest ∨ Apart lhs rhs) : Halts ctx n ((lhs, rhs) :: rest) := by
  -- going into an equation uses up the limit, going along a row its length
  induction limit generalizing f known n lhs rhs rest with
  | zero => exact absurd (hunderway.limited.height_lt hunderway.growth) (Nat.not_lt_zero _)
  | succ limit ihlimit =>
    induction hlength : lhs.rowLength using Nat.strongRecOn
      generalizing f known n lhs rhs rest with
    | ind length ihlength =>
      obtain ⟨hlhsMono, hrhsMono⟩ := hunderway.confined.monomorphic _ mem_cons_self
      refine .intro fun m next hmoves => ?_
      cases hmoves with
      | assign hassigns => exact hunderway.halts_of_assigns hfewer hassigns
      | reduce hreduces =>
        cases hreduces with
        | agree hagrees =>
          obtain hrest | ⟨id, htail, hne⟩ := hrest
          · exact hrest
          · exact absurd (rowTail_of_agrees hagrees htail) hne
        | unfoldRight _ _ hname | unfoldLeft _ _ hname =>
          rw [hctx] at hname
          cases hname
        | generics | genericLeft => cases hlhsMono
        | genericRight => cases hrhsMono
        | expandLeft _ hexpanded =>
          simp only [isMonomorphic, and_eq_true] at hlhsMono
          exact absurd hexpanded (expandApplication_ne_ok (isMonomorphic_ofContext hctx)
            hlhsMono.1 (Convention.admits_ofContext ctx _))
        | expandRight _ hexpanded =>
          simp only [isMonomorphic, and_eq_true] at hrhsMono
          exact absurd hexpanded (expandApplication_ne_ok (isMonomorphic_ofContext hctx)
            hrhsMono.1 (Convention.admits_ofContext ctx _))
        | arrow a b a' b' =>
          have hrest := hrest.resolve_right (by rintro ⟨_, htail, _⟩; cases htail)
          simp only [isMonomorphic, and_eq_true] at hlhsMono hrhsMono
          obtain ⟨hfirst, hsecond⟩ := hunderway.parts
            (hunderway.left.of_arrow hunderway.growth)
            (hunderway.right.of_arrow hunderway.growth)
            (fun g => by simp only [bindHoles, height]; omega) rfl rfl
            (by simp [Monomorphic, hlhsMono, hrhsMono])
          exact ihlimit hfirst (.inl (ihlimit hsecond (.inl hrest)))
        | app a b a' b' appLoc appLoc' =>
          have hrest := hrest.resolve_right (by rintro ⟨_, htail, _⟩; cases htail)
          simp only [isMonomorphic, and_eq_true] at hlhsMono hrhsMono
          obtain ⟨hfirst, hsecond⟩ := hunderway.parts
            (hunderway.left.of_app hunderway.growth)
            (hunderway.right.of_app hunderway.growth)
            (fun g => by simp only [bindHoles, height]; omega) rfl rfl
            (by simp [Monomorphic, hlhsMono, hrhsMono])
          exact ihlimit hfirst (.inl (ihlimit hsecond (.inl hrest)))
        | record a a' hlabels =>
          have hrest := hrest.resolve_right (by rintro ⟨_, htail, _⟩; cases htail)
          have hconfined : Confined known n ([(a, a')] ++ rest) :=
            hunderway.confined.parts (by simpa [Monomorphic] using ⟨hlhsMono, hrhsMono⟩)
              (by simp [holes])
          exact ihlimit (hunderway.part (.chunk (hunderway.left.of_record hunderway.growth))
            (.chunk (hunderway.right.of_record hunderway.growth))
            (hunderway.limited.part fun g => by simp [bindHoles, height]) hconfined)
            (.inl hrest)
        | fields hpulls =>
          obtain ⟨found, htaken, rfl, rfl⟩ | ⟨id, htail, hne, rfl, rfl, rfl⟩ :=
            hpulls.cases hctx
          · obtain ⟨hfield, hremainder⟩ := hunderway.taken htaken
            refine ihlimit hfield (.inl (ihlength _ (hlength ▸ Nat.lt_succ_self _) hremainder
              ?_ rfl))
            refine hrest.imp_right ?_
            rintro ⟨id, htail, hne⟩
            exact ⟨id, by rw [rowTail_of_taken htaken, htail], hne⟩
          · refine halts_extension fun hid => ?_
            obtain ⟨f', known', hnext, hapart, hsame⟩ := hunderway.extended htail hne hid
            exact ihlength _ (hlength ▸ hsame ▸ Nat.lt_succ_self _) hnext (.inr hapart) rfl

end

/-- The rules cannot be applied for ever: the equations behind the first one are reached with
as many placeholders as there are now, or there are fewer. -/
theorem Confined.halts (hctx : ∀ name, ctx.alias? name = none)
    (hconfined : Confined known n pending) : Halts ctx n pending := by
  induction hcard : known.card using Nat.strongRecOn generalizing known n pending with
  | ind most ihmost =>
    have hfewer {known : Finset Nat} {n : Nat} {pending : List Constraint} (hlt : known.card < most)
        (hconfined : Confined known n pending) : Halts ctx n pending :=
      ihmost _ hlt hconfined rfl
    induction pending with
    | nil => exact .intro fun m next hmoves => by cases hmoves
    | cons equation rest ihrest =>
      obtain ⟨lhs, rhs⟩ := equation
      have hmentioned := hconfined.mentioned _ mem_cons_self
      -- all sides are chunks before anything has grown
      have hchunk {ty : Ty} (hheight : ty.height ≤ max lhs.height rhs.height)
          (hholes : ∀ i ∈ ty.holes, i ∈ lhs.holes ∨ i ∈ rhs.holes) :
          Chunk known (max lhs.height rhs.height) .hole ty :=
        .of_height hheight fun i hi => hmentioned i (hholes i hi)
      have hlhs := hchunk (Nat.le_max_left ..) fun _ hi => .inl hi
      have hrhs := hchunk (Nat.le_max_right ..) fun _ hi => .inr hi
      have hunderway :
          Underway known (max lhs.height rhs.height) .hole _ most known n lhs rhs rest :=
        ⟨fun i _ => .hole i, .chunk hlhs, .chunk hrhs, hlhs.limited, Nat.le_of_eq hcard, hconfined⟩
      exact hunderway.halts hctx hfewer (.inl (ihrest hconfined.tail))

/-! ## Runs of the solver -/

/-- A result that does not come from lack of fuel. -/
def Finished {α : Type} (result : EStateM.Result Fault Checker α) : Prop :=
  ∀ fault final, result = .error fault final → fault.cause ≠ .outOfFuel

/-- A computation whose result does not depend on the fuel, if there is enough. -/
def Settles {α : Type} (enough : Nat) (x : Nat → CheckM α) : Prop :=
  ∀ checker, ∃ result, Finished result ∧ ∀ fuel ≥ enough, x fuel checker = result

section

variable {α β : Type} {enough : Nat}

theorem Settles.pure (a : α) : Settles enough fun _ => (pure a : CheckM α) :=
  fun checker => ⟨.ok a checker, fun _ _ hrun => (by cases hrun), fun _ _ => rfl⟩

theorem Settles.throw {fault : Fault} (hfault : fault.cause.isOfTypes) :
    Settles enough fun _ => (throw fault : CheckM α) := by
  refine fun checker => ⟨.error fault checker, fun found final hrun hcause => ?_, fun _ _ => rfl⟩
  cases hrun
  rw [hcause] at hfault
  cases hfault

theorem Settles.ofExcept {x : Except Fault α} (hx : Raises (·.isOfTypes) x) :
    Settles enough fun _ => CheckM.ofExcept x := by
  cases x with
  | ok a => exact .pure a
  | error fault => exact .throw (hx fault rfl)

theorem Settles.freshHole : Settles enough fun _ => CheckM.freshHole :=
  fun _ => ⟨_, fun _ _ hrun => (by cases hrun), fun _ _ => rfl⟩

theorem Settles.bind {x : Nat → CheckM α} {f : α → Nat → CheckM β} (hx : Settles enough x)
    (hf : ∀ a, Settles enough (f a)) : Settles enough fun fuel => x fuel >>= fun a => f a fuel := by
  intro checker
  obtain ⟨result, hfinished, hresult⟩ := hx checker
  cases result with
  | error fault final =>
    refine ⟨.error fault final, fun found final' hrun => ?_, fun fuel hfuel => ?_⟩
    · cases hrun
      exact hfinished fault final rfl
    · show EStateM.bind (x fuel) _ checker = _
      rw [EStateM.bind, hresult fuel hfuel]
  | ok a middle =>
    obtain ⟨result', hfinished', hresult'⟩ := hf a middle
    refine ⟨result', hfinished', fun fuel hfuel => ?_⟩
    show EStateM.bind (x fuel) _ checker = _
    rw [EStateM.bind, hresult fuel hfuel]
    exact hresult' fuel hfuel

theorem Settles.succ {x : Nat → CheckM α} (hx : Settles enough fun fuel => x (fuel + 1)) :
    Settles (enough + 1) x := by
  intro checker
  obtain ⟨result, hfinished, hresult⟩ := hx checker
  refine ⟨result, hfinished, fun fuel hfuel => ?_⟩
  obtain ⟨fuel, rfl⟩ : ∃ less, fuel = less + 1 := ⟨fuel - 1, by omega⟩
  exact hresult fuel (by omega)

end

section

variable {loc : Option Loc} {solver : Solver} {owners : Option Constraint}
  {solved : List Constraint}

theorem declaredType_eq_ident {name : String} {nameLoc : Loc} {declared : Ty}
    (hname : ctx.alias? name = none)
    (hdeclared : declaredType ctx loc name nameLoc = .ok declared) :
    declared = .ident name nameLoc := by
  unfold Context.alias? at hname
  unfold declaredType at hdeclared
  split at hdeclared
  · rename_i hfind
    rw [hfind] at hname
    cases hname
  · cases hdeclared
    rfl
  · cases hdeclared

variable {key : String} {type tail row : Ty}

theorem settles_notContained {α : Type} {enough : Nat} :
    Settles enough fun _ =>
      (do throw (← CheckM.ofExcept (notContained loc solver owners row key)) : CheckM α) := by
  simp only [ofExcept_bind_throw]
  exact .ofExcept raises_notContained

section

variable (hctx : ∀ name, ctx.alias? name = none)

include hctx

/-- Without declared names a row is searched for a field in as many steps as it has fields. -/
theorem settles_pullField :
    Settles (row.rowLength + 1) fun fuel =>
      pullField ctx loc solver key type tail owners fuel row := by
  induction row with
  | field k t base iht ihbase =>
    refine .succ ?_
    simp only [pullField]
    by_cases hk : k = key
    · simp only [if_pos hk]
      exact .pure _
    · simp only [if_neg hk]
      exact ihbase.bind fun _ => .pure _
  | hole id =>
    refine .succ ?_
    simp only [pullField]
    split
    · exact .throw rfl
    · exact .bind .freshHole fun _ => .pure _
  | ident name nameLoc =>
    -- The name is declared as no record, so that the search goes no further.
    refine .succ ?_
    simp only [pullField]
    cases hdeclared : declaredType ctx loc name nameLoc with
    | error fault => exact .throw (raises_declaredType _ _ fault hdeclared)
    | ok declared =>
      rw [declaredType_eq_ident (hctx name) hdeclared]
      exact settles_notContained
  | emptyRow => exact .succ settles_notContained
  | _ =>
    exact .succ (.bind (.ofExcept (raises_display _)) fun _ => .throw rfl)

/-- Only the search of a row depends on the fuel when an equation is taken apart. -/
theorem settles_decompose (lhs rhs : Ty) :
    Settles (rhs.rowLength + 1) fun fuel => decompose ctx loc fuel solver lhs rhs owners := by
  unfold decompose
  split
  · exact .ofExcept (raises_assign _ _)
  · exact .ofExcept (raises_assign _ _)
  · exact .pure _
  · exact .bind .freshHole fun _ => .pure _
  · exact .bind (.bind .freshHole fun _ => .pure _) fun _ => .pure _
  · exact .bind (.bind .freshHole fun _ => .pure _) fun _ => .pure _
  · exact .pure _
  · exact .bind (.ofExcept (raises_expandApplication _ _ _)) fun _ => .pure _
  · exact .bind (.ofExcept (raises_expandApplication _ _ _)) fun _ => .pure _
  · split
    · exact .pure _
    · exact .ofExcept (raises_incompatible _ _)
  · exact .bind (settles_pullField hctx) fun _ => .pure _
  · exact .ofExcept ((raises_displayed _).bind fun _ => (raises_display _).bind fun _ => .throw rfl)
  · exact .ofExcept ((raises_display _).bind fun _ => (raises_displayed _).bind fun _ => .throw rfl)
  · exact .ofExcept (raises_incompatible _ _)

theorem settles_step (equation : Equation) :
    Settles (equation.rhs.rowLength + 1) fun fuel => step ctx loc fuel solver equation := by
  obtain ⟨lhs, rhs, owners⟩ := equation
  simp only [step]
  split
  · exact .pure _
  · refine .bind (.ofExcept (raises_unfolding? _)) fun declared => ?_
    cases declared with
    | some declared => exact .pure _
    | none =>
      refine .bind (.ofExcept (raises_unfolding? _)) fun declared => ?_
      cases declared with
      | some declared => exact .pure _
      | none => exact settles_decompose hctx lhs rhs

end

/-- A step of the solver applies a rule to the first equation. -/
theorem moves_of_step {fuel : Nat} {equation : Equation} {rest : List Equation} {next : Solver}
    {checker final : Checker}
    (hrun : step ctx loc fuel ⟨rest, solved⟩ equation checker = .ok next final) :
    Moves ctx checker.counter (equations (equation :: rest)) final.counter
      (equations next.pending) := by
  obtain ⟨⟨new, hreduces, hpending, -⟩ | ⟨id, ty, hassigns, hcounter, hpending, -⟩, -⟩ :=
    step_progress hrun
  · rw [hpending]
    exact .reduce hreduces
  · rw [hpending, hcounter]
    exact .assign hassigns

/-- A run ends where the rules do. -/
theorem Halts.run {n : Nat} {pending : List Constraint} (hctx : ∀ name, ctx.alias? name = none)
    (hhalts : Halts ctx n pending) (solver : Solver) (checker : Checker)
    (hcounter : checker.counter = n) (hpending : equations solver.pending = pending) :
    ∃ enough result, Finished result ∧
      ∀ fuel ≥ enough, run ctx loc fuel solver checker = result := by
  induction hhalts generalizing solver checker with
  | intro hmoves ih =>
    obtain ⟨pending, solved⟩ := solver
    subst hcounter hpending
    cases pending with
    | nil =>
      refine ⟨1, .ok solved checker, fun _ _ hrun => (by cases hrun), fun fuel hfuel => ?_⟩
      obtain ⟨fuel, rfl⟩ : ∃ less, fuel = less + 1 := ⟨fuel - 1, by omega⟩
      rfl
    | cons equation rest =>
      obtain ⟨result, hfinished, hstep⟩ : ∃ result, Finished result ∧
          ∀ fuel ≥ equation.rhs.rowLength + 1,
            step ctx loc fuel ⟨rest, solved⟩ equation checker = result :=
        settles_step hctx equation checker
      cases result with
      | error fault final =>
        refine ⟨equation.rhs.rowLength + 2, .error fault final,
          fun found final' hrun => ?_, fun fuel hfuel => ?_⟩
        · cases hrun
          exact hfinished fault final rfl
        · obtain ⟨fuel, rfl⟩ : ∃ less, fuel = less + 1 := ⟨fuel - 1, by omega⟩
          simp only [Solver.run]
          show EStateM.bind _ _ checker = _
          rw [EStateM.bind, hstep fuel (by omega)]
      | ok next middle =>
        obtain ⟨enough, result, hfinished', hrest⟩ := ih _ _
          (moves_of_step (hstep _ (Nat.le_refl _))) next middle rfl rfl
        refine ⟨max enough (equation.rhs.rowLength + 1) + 1, result, hfinished',
          fun fuel hfuel => ?_⟩
        obtain ⟨fuel, rfl⟩ : ∃ less, fuel = less + 1 := ⟨fuel - 1, by omega⟩
        simp only [Solver.run]
        show EStateM.bind _ _ checker = _
        rw [EStateM.bind, hstep fuel (by omega)]
        exact hrest fuel (by omega)

end

end Solver

/-- Solving ends where all names are type parameters. With enough fuel it gives a result that
does not depend on the fuel any more: an answer, or a fault other than the lack of fuel. -/
theorem unify_ends {ctx : Context} {loc : Option Loc} {constraints : List Constraint}
    {checker : Checker} (hctx : ∀ entry ∈ ctx, entry.binding = .typeParameter)
    (hmono : Solver.Monomorphic constraints)
    (hissued : Solver.Issued checker.counter constraints) :
    ∃ enough result,
      (∀ fuel ≥ enough, unify fuel ctx loc constraints checker = result) ∧
      ∀ fault final, result = .error fault final → fault.cause ≠ .outOfFuel := by
  have halias : ∀ name, ctx.alias? name = none := by
    refine Context.alias?_eq_none_of_forall fun entry hentry type nameLoc isGlobal hbinding => ?_
    rw [hctx entry hentry] at hbinding
    cases hbinding
  have hconfined : Solver.Confined (Finset.range (checker.counter + 1)) checker.counter
      constraints := by
    refine ⟨hmono, fun c hc i hi => ?_, fun i hi => ?_⟩
    · have hle : i ≤ checker.counter := hi.elim ((hissued c hc).1 i) ((hissued c hc).2 i)
      exact Finset.mem_range.2 (Nat.lt_succ_of_le hle)
    · exact Nat.le_of_lt_succ (Finset.mem_range.1 hi)
  have hpending : Solver.equations (constraints.map fun c => ⟨c.1, c.2, none⟩) = constraints := by
    simp [Solver.equations, Function.comp_def]
  obtain ⟨enough, result, hfinished, hresult⟩ : ∃ enough result, Solver.Finished result ∧
      ∀ fuel ≥ enough, unify fuel ctx loc constraints checker = result :=
    (hconfined.halts halias).run halias ⟨_, []⟩ checker rfl hpending
  exact ⟨enough, result, hresult, hfinished⟩

/-- Two open rows that lack each other's fields, one of which has a record in it that ends as
the other one does, and a row that must end in a type parameter. -/
def tangledRows : List Constraint :=
  [(.record (.field "x" (.hole 1) (.hole 2)) none,
      .record (.field "y" (.record (.hole 2) none) (.hole 3)) none),
    (.record (.hole 3) none, .record (.field "x" (.hole 4) (.named "a")) none)]

theorem unify_ends_tangledRows :
    ∃ enough result,
      (∀ fuel ≥ enough,
        unify fuel [⟨0, "a", .typeParameter⟩] none tangledRows { counter := 4 } = result) ∧
      ∀ fault final, result = .error fault final → fault.cause ≠ .outOfFuel :=
  unify_ends (by simp) (by decide) (by decide)

end RowScript
