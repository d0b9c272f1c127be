import RowScript.Proofs.SolverRules

/-!
# What solving keeps

While equations are solved they mention only placeholders that were handed out and are not solved
yet, and they stay within a convention that was fit for them at the start.
-/

namespace RowScript

open List

variable {replacement : Ty}

namespace Ty.Convention

/-- Types that the convention is fit for: the names that a context declares are
names of the convention, and records have labels only if these are disregarded. -/
def Admits (convention : Convention) (ctx : Context) : Ty → Prop
  | .ident name _ => ∀ a, ctx.alias? name = some a → convention.alias? name = some a
  | .hole _ | .emptyRow => True
  | .arrow a b | .app a b _ | .field _ a b => convention.Admits ctx a ∧ convention.Admits ctx b
  | .generic _ body => convention.Admits ctx body
  | .record row label =>
    convention.Admits ctx row ∧ (convention.ignoresLabels = true ∨ label = none)

/-- A convention whose names stand for types that it is fit for itself. -/
structure Suits (convention : Convention) (ctx : Context) : Prop where
  closed : convention.IsClosed
  admits : ∀ name a, convention.alias? name = some a → convention.Admits ctx a

variable {convention : Convention} {ctx : Context} {ty : Ty}

theorem admits_ofContext (ctx : Context) (ty : Ty) : (ofContext ctx).Admits ctx ty := by
  induction ty with
  | ident name loc => exact fun a ha => ha
  | hole | emptyRow => trivial
  | arrow a b iha ihb | app a b _ iha ihb | field _ a b iha ihb => exact ⟨iha, ihb⟩
  | generic _ a ih => exact ih
  | record a label ih => exact ⟨ih, .inl rfl⟩

theorem Admits.bindHoles {f : Nat → Ty} (hty : convention.Admits ctx ty)
    (hf : ∀ i ∈ ty.holes, convention.Admits ctx (f i)) :
    convention.Admits ctx (ty.bindHoles f) := by
  induction ty with
  | ident | emptyRow => exact hty
  | hole i => exact hf i (by simp [holes])
  | arrow a b iha ihb | app a b _ iha ihb | field _ a b iha ihb =>
    simp only [holes, mem_append] at hf
    exact ⟨iha hty.1 fun i hi => hf i (.inl hi), ihb hty.2 fun i hi => hf i (.inr hi)⟩
  | generic _ a ih => exact ih hty hf
  | record a label ih => exact ⟨ih hty.1 hf, hty.2⟩

theorem Admits.replaceHole {id : Nat} (hty : convention.Admits ctx ty)
    (hreplacement : convention.Admits ctx replacement) :
    convention.Admits ctx (ty.replaceHole id replacement) := by
  apply hty.bindHoles
  intro i _
  by_cases hi : i = id
  · rwa [if_pos hi]
  · rw [if_neg hi]
    trivial

theorem Admits.replaceName {name : String} (hty : convention.Admits ctx ty)
    (hreplacement : convention.Admits ctx replacement) :
    convention.Admits ctx (ty.replaceName name replacement) := by
  induction ty with
  | ident n loc =>
    rw [Ty.replaceName]
    split
    · exact hreplacement
    · exact hty
  | hole | emptyRow => trivial
  | arrow a b iha ihb | app a b _ iha ihb | field _ a b iha ihb =>
    exact ⟨iha hty.1, ihb hty.2⟩
  | generic param a ih =>
    rw [Ty.replaceName]
    split
    · exact hty
    · exact ih hty
  | record a label ih => exact ⟨ih hty.1, hty.2⟩

end Ty.Convention

namespace Context

variable {ctx : Context} {loc : Option Loc}

/-- An application is expanded by opening a generic type: the callee itself, or the
type that the callee is declared as. -/
theorem unfoldApplication_eq_ok {callee arg expanded : Ty} {appLoc : Loc}
    (hexpanded : ctx.unfoldApplication loc callee arg appLoc = .ok expanded) :
    ∃ param body, expanded = body.replaceName param arg ∧
      (callee = .generic param body ∨
        ∃ name nameLoc, callee = .ident name nameLoc ∧
          ctx.alias? name = some (.generic param body)) := by
  unfold unfoldApplication at hexpanded
  split at hexpanded
  · rename_i name nameLoc
    split at hexpanded
    · rename_i declared _ _ hfind
      cases declared with
      | generic param body =>
        cases hexpanded
        exact ⟨param, body, rfl, .inr ⟨name, nameLoc, rfl, by simp [alias?, hfind]⟩⟩
      | _ => cases hexpanded
    · cases hexpanded
    · cases hexpanded
  · cases callee with
    | generic param body =>
      cases hexpanded
      exact ⟨param, body, rfl, .inl rfl⟩
    | _ => cases hexpanded

end Context

namespace Solver

variable {name : String} {new pending answer : List Constraint}

/-- A property of types that every rule of solving hands on. It may depend on the placeholder
that was handed out last. -/
structure Kept (ctx : Context) (P : Nat → Ty → Prop) : Prop where
  mono {n m : Nat} {ty : Ty} : P n ty → n ≤ m → P m ty
  /-- Placeholders are handed out in the presence of types that have the property. -/
  fresh {n : Nat} {ty : Ty} : P n ty → P (n + 1) (.hole (n + 1))
  arrow {n : Nat} {a b : Ty} : P n (.arrow a b) → P n a ∧ P n b
  app {n : Nat} {a b : Ty} {loc : Loc} : P n (.app a b loc) → P n a ∧ P n b
  field {n : Nat} {key : String} {a b : Ty} : P n (.field key a b) ↔ P n a ∧ P n b
  record {n : Nat} {row : Ty} {label : Option String} : P n (.record row label) → P n row
  opened {n : Nat} {param : String} {body ty : Ty} :
    P n (.generic param body) → P n ty → P n (body.replaceName param ty)
  declared {n : Nat} {name : String} {loc : Loc} {ty : Ty} :
    P n (.ident name loc) → ctx.alias? name = some ty → P n ty

namespace Kept

variable {ctx : Context} {P : Nat → Ty → Prop} {n m : Nat}

theorem expandApplication (hkept : Kept ctx P) {loc : Option Loc} {callee arg expanded : Ty}
    {appLoc : Loc} (hexpanded : ctx.expandApplication loc callee arg appLoc = .ok expanded)
    (hcallee : P n callee) (harg : P n arg) : P n expanded := by
  have hunfold : ∀ {callee arg expanded : Ty} {appLoc : Loc},
      ctx.unfoldApplication loc callee arg appLoc = .ok expanded → P n callee → P n arg →
      P n expanded := by
    intro callee arg expanded appLoc hexpanded hcallee harg
    obtain ⟨param, body, rfl, rfl | ⟨name, nameLoc, rfl, hname⟩⟩ :=
      Context.unfoldApplication_eq_ok hexpanded
    · exact hkept.opened hcallee harg
    · exact hkept.opened (hkept.declared hcallee hname) harg
  induction callee generalizing arg expanded appLoc with
  | app inner innerArg innerLoc ih =>
    simp only [Context.expandApplication, Except.bind_eq_ok] at hexpanded
    obtain ⟨middle, hmiddle, hexpanded⟩ := hexpanded
    obtain ⟨hinner, hinnerArg⟩ := hkept.app hcallee
    exact hunfold hexpanded (ih hmiddle hinner hinnerArg) harg
  | _ => exact hunfold hexpanded hcallee harg

theorem pulls (hkept : Kept ctx P) {key : String} {type tail row rest : Ty} {found : Constraint}
    (hpulls : Pulls ctx key type tail n row m found rest) (htype : P n type) (hrow : P n row) :
    (P m found.1 ∧ P m found.2) ∧ P m rest := by
  induction hpulls with
  | here t base =>
    obtain ⟨ht, hbase⟩ := hkept.field.mp hrow
    exact ⟨⟨htype, ht⟩, hbase⟩
  | behind t hkey hpulls ih =>
    obtain ⟨ht, hbase⟩ := hkept.field.mp hrow
    obtain ⟨hfound, hrest⟩ := ih hbase
    exact ⟨hfound, hkept.field.mpr ⟨hkept.mono ht hpulls.counter_le, hrest⟩⟩
  | extend htail =>
    have hfresh := hkept.fresh htype
    have htype := hkept.mono htype (Nat.le_succ n)
    exact ⟨⟨hkept.mono hrow (Nat.le_succ n), hkept.field.mpr ⟨htype, hfresh⟩⟩, hfresh⟩
  | declared nameLoc hname _ ih => exact ih (hkept.record (hkept.declared hrow hname))

/-- The equations that a rule leaves have the property if the sides of its equation do. -/
theorem reduces (hkept : Kept ctx P) {lhs rhs : Ty} (hreduces : Reduces ctx n lhs rhs m new)
    (hlhs : P n lhs) (hrhs : P n rhs) : ∀ c ∈ new, P m c.1 ∧ P m c.2 := by
  have hopened {param : String} {body : Ty} (hgeneric : P n (.generic param body)) :
      P (n + 1) (body.replaceName param (.hole (n + 1))) :=
    hkept.opened (hkept.mono hgeneric (Nat.le_succ n)) (hkept.fresh hgeneric)
  cases hreduces with
  | agree => simp
  | unfoldRight _ nameLoc hname => simpa using ⟨hlhs, hkept.declared hrhs hname⟩
  | unfoldLeft _ nameLoc hname => simpa using ⟨hkept.declared hlhs hname, hrhs⟩
  | arrow => simp [hkept.arrow hlhs, hkept.arrow hrhs]
  | generics => simpa using ⟨hopened hlhs, hopened hrhs⟩
  | genericLeft => simpa using ⟨hopened hlhs, hkept.mono hrhs (Nat.le_succ n)⟩
  | genericRight => simpa using ⟨hkept.mono hlhs (Nat.le_succ n), hopened hrhs⟩
  | app => simp [hkept.app hlhs, hkept.app hrhs]
  | expandLeft _ hexpanded =>
    obtain ⟨hcallee, harg⟩ := hkept.app hlhs
    simpa using ⟨hkept.expandApplication hexpanded hcallee harg, hrhs⟩
  | expandRight _ hexpanded =>
    obtain ⟨hcallee, harg⟩ := hkept.app hrhs
    simpa using ⟨hlhs, hkept.expandApplication hexpanded hcallee harg⟩
  | record => simpa using ⟨hkept.record hlhs, hkept.record hrhs⟩
  | fields hpulls =>
    obtain ⟨htype, hbase⟩ := hkept.field.mp hlhs
    obtain ⟨hfound, hrest⟩ := hkept.pulls hpulls htype hrhs
    simpa using ⟨hfound, hkept.mono hbase hpulls.counter_le, hrest⟩

/-- The answer has the property if the equations do and placeholders may be replaced. -/
theorem solves (hkept : Kept ctx P)
    (hreplace : ∀ {n id : Nat} {ty u : Ty}, P n ty → P n u → P n (u.replaceHole id ty))
    {solved : List Constraint} (hsolves : Solves ctx n pending solved m answer)
    (hpending : ∀ c ∈ pending, P n c.1 ∧ P n c.2) (hsolved : ∀ c ∈ solved, P n c.1 ∧ P n c.2) :
    ∀ c ∈ answer, P m c.1 ∧ P m c.2 := by
  induction hsolves with
  | done => exact hsolved
  | reduce hreduces _ ih =>
    obtain ⟨⟨hlhs, hrhs⟩, hrest⟩ := forall_mem_cons.mp hpending
    have hle := hreduces.counter_le
    have hmono {cs : List Constraint} (hcs : ∀ c ∈ cs, P _ c.1 ∧ P _ c.2) (c : Constraint)
        (hc : c ∈ cs) := (hcs c hc).imp (hkept.mono · hle) (hkept.mono · hle)
    exact ih (forall_mem_append.mpr ⟨hkept.reduces hreduces hlhs hrhs, hmono hrest⟩)
      (hmono hsolved)
  | @assign n _ id lhs rhs ty _ _ _ hassigns _ ih =>
    obtain ⟨⟨hlhs, hrhs⟩, hrest⟩ := forall_mem_cons.mp hpending
    have hsides : P n (.hole id) ∧ P n ty := by
      cases hassigns with
      | right => exact ⟨hrhs, hlhs⟩
      | left => exact ⟨hlhs, hrhs⟩
    refine ih (forall_mem_map.mpr fun c hc => ?_) (forall_mem_cons.mpr ⟨hsides, hsolved⟩)
    exact (hrest c hc).imp (hreplace hsides.2) (hreplace hsides.2)

end Kept

variable {convention : Ty.Convention} {ctx : Context}

/-- A type that an equation may mention: the convention is fit for it, and its
placeholders were handed out and are not solved. -/
structure Usable (convention : Ty.Convention) (ctx : Context) (n : Nat)
    (solved : List Constraint) (ty : Ty) : Prop where
  admits : convention.Admits ctx ty
  issued : ∀ i ∈ ty.holes, i ≤ n
  unsolved : ∀ i ∈ ty.holes, ∀ u, (Ty.hole i, u) ∉ solved

/-- Solved constraints mention only placeholders that were handed out. -/
def Issued (n : Nat) (solved : List Constraint) : Prop :=
  ∀ c ∈ solved, (∀ i ∈ c.1.holes, i ≤ n) ∧ ∀ i ∈ c.2.holes, i ≤ n

instance (n : Nat) (solved : List Constraint) : Decidable (Issued n solved) :=
  inferInstanceAs (Decidable (∀ c ∈ solved, (∀ i ∈ c.1.holes, i ≤ n) ∧ ∀ i ∈ c.2.holes, i ≤ n))

theorem Issued.mono {n m : Nat} {solved : List Constraint} (hissued : Issued n solved)
    (hle : n ≤ m) : Issued m solved :=
  fun c hc => ⟨fun i hi => Nat.le_trans ((hissued c hc).1 i hi) hle,
    fun i hi => Nat.le_trans ((hissued c hc).2 i hi) hle⟩

/-- The invariant of solving, for the equations left and the placeholders solved. -/
structure Tidy (convention : Ty.Convention) (ctx : Context) (n : Nat)
    (pending solved : List Constraint) : Prop where
  usable : ∀ c ∈ pending,
    Usable convention ctx n solved c.1 ∧ Usable convention ctx n solved c.2
  solvedForm : SolvedForm solved
  issued : Issued n solved

variable {n m id : Nat} {solved rest : List Constraint} {ty lhs rhs : Ty}

theorem Usable.mono (husable : Usable convention ctx n solved ty) (hle : n ≤ m) :
    Usable convention ctx m solved ty :=
  ⟨husable.admits, fun i hi => Nat.le_trans (husable.issued i hi) hle, husable.unsolved⟩

/-- A type is usable when all its placeholders are placeholders of usable types. -/
theorem Usable.of_holes (hadmits : convention.Admits ctx ty)
    (hholes : ∀ i ∈ ty.holes, ∃ u, Usable convention ctx n solved u ∧ i ∈ u.holes) :
    Usable convention ctx n solved ty where
  admits := hadmits
  issued i hi := by
    obtain ⟨u, hu, hiu⟩ := hholes i hi
    exact hu.issued i hiu
  unsolved i hi := by
    obtain ⟨u, hu, hiu⟩ := hholes i hi
    exact hu.unsolved i hiu

theorem Usable.fresh (hissued : Issued n solved) :
    Usable convention ctx (n + 1) solved (.hole (n + 1)) where
  admits := trivial
  issued i hi := by
    obtain rfl : i = n + 1 := by simpa [Ty.holes] using hi
    exact Nat.le_refl _
  unsolved i hi u hu := by
    obtain rfl : i = n + 1 := by simpa [Ty.holes] using hi
    have hle := (hissued _ hu).1 (n + 1) hi
    omega

theorem Usable.of_alias (hsuits : convention.Suits ctx) (hname : convention.alias? name = some ty) :
    Usable convention ctx n solved ty := by
  have hclosed := hsuits.closed name ty hname
  refine .of_holes (hsuits.admits name ty hname) fun i hi => ?_
  rw [hclosed] at hi
  cases hi

theorem Usable.of_parts {a b whole : Ty} (hholes : whole.holes = a.holes ++ b.holes)
    (hadmits : convention.Admits ctx a ∧ convention.Admits ctx b)
    (hwhole : Usable convention ctx n solved whole) :
    Usable convention ctx n solved a ∧ Usable convention ctx n solved b :=
  ⟨.of_holes hadmits.1 fun i hi => ⟨whole, hwhole, by simp [hholes, hi]⟩,
    .of_holes hadmits.2 fun i hi => ⟨whole, hwhole, by simp [hholes, hi]⟩⟩

theorem Usable.field {key : String} {base : Ty} (hty : Usable convention ctx n solved ty)
    (hbase : Usable convention ctx n solved base) :
    Usable convention ctx n solved (.field key ty base) := by
  refine .of_holes ⟨hty.admits, hbase.admits⟩ fun i hi => ?_
  rcases mem_append.mp hi with hi | hi
  · exact ⟨ty, hty, hi⟩
  · exact ⟨base, hbase, hi⟩

theorem Usable.replaceName (hty : Usable convention ctx n solved ty)
    (hreplacement : Usable convention ctx n solved replacement) :
    Usable convention ctx n solved (ty.replaceName name replacement) := by
  refine .of_holes (hty.admits.replaceName hreplacement.admits) fun i hi => ?_
  rcases Ty.mem_holes_replaceName hi with hi | hi
  · exact ⟨ty, hty, hi⟩
  · exact ⟨replacement, hreplacement, hi⟩

theorem Kept.usable (hsuits : convention.Suits ctx) :
    Kept ctx fun n ty => Issued n solved ∧ Usable convention ctx n solved ty where
  mono hty hle := ⟨hty.1.mono hle, hty.2.mono hle⟩
  fresh hty := ⟨hty.1.mono (Nat.le_succ _), .fresh hty.1⟩
  arrow hty := (hty.2.of_parts rfl hty.2.admits).imp (⟨hty.1, ·⟩) (⟨hty.1, ·⟩)
  app hty := (hty.2.of_parts rfl hty.2.admits).imp (⟨hty.1, ·⟩) (⟨hty.1, ·⟩)
  field := ⟨fun hty => (hty.2.of_parts rfl hty.2.admits).imp (⟨hty.1, ·⟩) (⟨hty.1, ·⟩),
    fun hparts => ⟨hparts.1.1, hparts.1.2.field hparts.2.2⟩⟩
  record hty := ⟨hty.1, hty.2.admits.1, hty.2.issued, hty.2.unsolved⟩
  opened hgeneric hty :=
    ⟨hty.1, .replaceName ⟨hgeneric.2.admits, hgeneric.2.issued, hgeneric.2.unsolved⟩ hty.2⟩
  declared hty hname := ⟨hty.1, .of_alias hsuits (hty.2.admits _ hname)⟩

/-- A placeholder that is given a type disappears from all other types. -/
theorem Usable.replaceHole {u : Ty} (hid : id ∉ ty.holes)
    (hty : Usable convention ctx n solved ty) (hu : Usable convention ctx n solved u) :
    Usable convention ctx n ((.hole id, ty) :: solved) (u.replaceHole id ty) where
  admits := hu.admits.replaceHole hty.admits
  issued i hi := by
    rcases Ty.mem_holes_replaceHole hi with ⟨hi, _⟩ | hi
    · exact hu.issued i hi
    · exact hty.issued i hi
  unsolved i hi v hv := by
    rcases Ty.mem_holes_replaceHole hi with ⟨hi, hne⟩ | hi
    · rcases mem_cons.mp hv with heq | hv
      · exact hne (by simpa using congrArg Prod.fst heq)
      · exact hu.unsolved i hi v hv
    · rcases mem_cons.mp hv with heq | hv
      · have hiid : i = id := by simpa using congrArg Prod.fst heq
        exact hid (hiid ▸ hi)
      · exact hty.unsolved i hi v hv

/-- The placeholder and the type of an assignment are the sides of its equation. -/
theorem Assigns.usable (hassigns : Assigns lhs rhs id ty)
    (hlhs : Usable convention ctx n solved lhs) (hrhs : Usable convention ctx n solved rhs) :
    id ∉ ty.holes ∧ Usable convention ctx n solved (.hole id) ∧
      Usable convention ctx n solved ty := by
  cases hassigns with
  | right hid => exact ⟨hid, hrhs, hlhs⟩
  | left hid => exact ⟨hid, hlhs, hrhs⟩

theorem Tidy.reduce (hsuits : convention.Suits ctx)
    (htidy : Tidy convention ctx n ((lhs, rhs) :: rest) solved)
    (hreduces : Reduces ctx n lhs rhs m new) :
    n ≤ m ∧ Tidy convention ctx m (new ++ rest) solved := by
  obtain ⟨hlhs, hrhs⟩ := htidy.usable (lhs, rhs) mem_cons_self
  have hle := hreduces.counter_le
  have hnew := (Kept.usable hsuits).reduces hreduces ⟨htidy.issued, hlhs⟩ ⟨htidy.issued, hrhs⟩
  refine ⟨hle, fun c hc => ?_, htidy.solvedForm, htidy.issued.mono hle⟩
  rcases mem_append.mp hc with hc | hc
  · exact (hnew c hc).imp And.right And.right
  · obtain ⟨hfirst, hsecond⟩ := htidy.usable c (mem_cons_of_mem _ hc)
    exact ⟨hfirst.mono hle, hsecond.mono hle⟩

theorem Tidy.assign (htidy : Tidy convention ctx n ((lhs, rhs) :: rest) solved)
    (hassigns : Assigns lhs rhs id ty) :
    Tidy convention ctx n (rest.map (replaceBoth id ty)) ((.hole id, ty) :: solved) := by
  obtain ⟨hlhs, hrhs⟩ := htidy.usable (lhs, rhs) mem_cons_self
  obtain ⟨hid, hhole, hty⟩ := hassigns.usable hlhs hrhs
  refine ⟨fun c hc => ?_, .cons htidy.solvedForm hid fun i u hu => ⟨?_, fun hi => ?_⟩,
    fun c hc => ?_⟩
  · obtain ⟨before, hbefore, rfl⟩ := mem_map.mp hc
    obtain ⟨hfirst, hsecond⟩ := htidy.usable before (mem_cons_of_mem _ hbefore)
    exact ⟨hty.replaceHole hid hfirst, hty.replaceHole hid hsecond⟩
  · rintro rfl
    exact hhole.unsolved i (by simp [Ty.holes]) u hu
  · exact hty.unsolved i hi u hu
  · rcases mem_cons.mp hc with rfl | hc
    · exact ⟨hhole.issued, hty.issued⟩
    · exact htidy.issued c hc

theorem Solves.exists_append (hsolves : Solves ctx n pending solved m answer) :
    ∃ newer, answer = newer ++ solved := by
  induction hsolves with
  | done solved => exact ⟨[], rfl⟩
  | reduce _ _ ih => exact ih
  | @assign _ _ id _ _ ty _ _ _ _ _ ih =>
    obtain ⟨newer, rfl⟩ := ih
    exact ⟨newer ++ [(.hole id, ty)], by simp⟩

theorem Solves.mem_answer {c : Constraint} (hsolves : Solves ctx n pending (c :: solved) m answer) :
    c ∈ answer := by
  obtain ⟨newer, rfl⟩ := hsolves.exists_append
  simp

/-- The answer of a run is a solved form over placeholders that were handed out. -/
theorem Solves.tidy (hsuits : convention.Suits ctx) (hsolves : Solves ctx n pending solved m answer)
    (htidy : Tidy convention ctx n pending solved) :
    n ≤ m ∧ SolvedForm answer ∧ Issued m answer := by
  induction hsolves with
  | done solved => exact ⟨Nat.le_refl _, htidy.solvedForm, htidy.issued⟩
  | reduce hreduces _ ih =>
    obtain ⟨hle, htidy'⟩ := htidy.reduce hsuits hreduces
    obtain ⟨hle', hform, hissued⟩ := ih htidy'
    exact ⟨Nat.le_trans hle hle', hform, hissued⟩
  | assign hassigns _ ih => exact ih (htidy.assign hassigns)

/-- Constraints over placeholders that were handed out are a tidy start. -/
theorem Tidy.start {constraints : List Constraint}
    (hadmits : ∀ c ∈ constraints, convention.Admits ctx c.1 ∧ convention.Admits ctx c.2)
    (hissued : Issued n constraints) : Tidy convention ctx n constraints [] where
  usable c hc :=
    ⟨⟨(hadmits c hc).1, (hissued c hc).1, by simp⟩,
      ⟨(hadmits c hc).2, (hissued c hc).2, by simp⟩⟩
  solvedForm := .nil
  issued := by simp [Issued]

end Solver

end RowScript
