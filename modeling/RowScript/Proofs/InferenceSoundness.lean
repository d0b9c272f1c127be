import RowScript.Proofs.TypeInvariants
import RowScript.Proofs.WrittenTypes

/-!
# Soundness of inference

A term that is solved has the type that was found for it, under every substitution that satisfies
the answer. Functions of one parameter need a written type here, and no type in the context or in
the term may be generic.
-/

namespace RowScript

open Context Term Ty Solver List Bool

/-- Types that are not generic and whose placeholders were handed out. -/
def Ty.IsPlain (n : Nat) (ty : Ty) : Prop := ty.isMonomorphic = true ∧ ∀ i ∈ ty.holes, i ≤ n

namespace Ty

variable {n m : Nat} {a b : Ty}

instance (n : Nat) (ty : Ty) : Decidable (ty.IsPlain n) :=
  inferInstanceAs (Decidable (ty.isMonomorphic = true ∧ ∀ i ∈ ty.holes, i ≤ n))

theorem IsPlain.mono (hplain : a.IsPlain n) (hle : n ≤ m) : a.IsPlain m :=
  ⟨hplain.1, fun i hi => Nat.le_trans (hplain.2 i hi) hle⟩

@[simp]
theorem isPlain_hole {id : Nat} : (hole id).IsPlain n ↔ id ≤ n := by
  simp [IsPlain, isMonomorphic, holes]

@[simp]
theorem isPlain_named {name : String} : (named name).IsPlain n := by
  simp [IsPlain, named, isMonomorphic, holes]

@[simp]
theorem isPlain_emptyRow : emptyRow.IsPlain n := by
  simp [IsPlain, isMonomorphic, holes]

@[simp]
theorem isPlain_arrow : (arrow a b).IsPlain n ↔ a.IsPlain n ∧ b.IsPlain n := by
  simp [IsPlain, isMonomorphic, holes, or_imp, forall_and, and_and_and_comm]

@[simp]
theorem isPlain_app {loc : Loc} : (app a b loc).IsPlain n ↔ a.IsPlain n ∧ b.IsPlain n := by
  simp [IsPlain, isMonomorphic, holes, or_imp, forall_and, and_and_and_comm]

@[simp]
theorem isPlain_field {key : String} : (field key a b).IsPlain n ↔ a.IsPlain n ∧ b.IsPlain n := by
  simp [IsPlain, isMonomorphic, holes, or_imp, forall_and, and_and_and_comm]

@[simp]
theorem isPlain_record {label : Option String} : (record a label).IsPlain n ↔ a.IsPlain n := by
  simp [IsPlain, isMonomorphic, holes]

end Ty

/-- Bindings of plain values, and of declared types that are neither generic nor have
placeholders. -/
def Binding.isPlain (n : Nat) : Binding → Bool
  | .typed type _ _ | .defined _ (some type) _ _ _ => decide (type.IsPlain n)
  | .typeAlias type _ _ => type.isMonomorphic && type.holes.isEmpty
  | .defined _ none _ _ _ | .typeParameter => true

namespace Context

variable {ctx : Context} {loc : Option Loc}

/-- The type of the value that a name stands for, if it stands for one with a type. -/
def value? (ctx : Context) (name : String) : Option Ty :=
  match ctx.find? name with
  | some (.typed type _ _) | some (.defined _ (some type) _ _ _) => some type
  | _ => none

/-- The types of the values in a context under a substitution. -/
def env (ctx : Context) (s : Nat → Ty) : Env := fun name => (ctx.value? name).map (·.bindHoles s)

/-- Contexts that inference is sound for: no type is generic, declared types have no
placeholders, and those of values were handed out. -/
structure IsPlain (ctx : Context) (n : Nat) : Prop where
  declared : ctx.DeclaresMonomorphic
  values : ∀ name type, ctx.value? name = some type → type.IsPlain n

theorem IsPlain.mono {n m : Nat} (hplain : ctx.IsPlain n) (hle : n ≤ m) : ctx.IsPlain m :=
  ⟨hplain.declared, fun name type hname => (hplain.values name type hname).mono hle⟩

theorem isPlain_of_forall {n : Nat} (hctx : ∀ entry ∈ ctx, entry.binding.isPlain n) :
    ctx.IsPlain n where
  declared name type hname := by
    obtain ⟨_, _, hfind⟩ := exists_find?_of_alias? hname
    obtain ⟨entry, hentry, hbinding⟩ := exists_mem_of_find? hfind
    have hplain := hctx entry hentry
    simpa [hbinding, Binding.isPlain] using hplain
  values name type hname := by
    unfold value? at hname
    split at hname <;> cases hname
    all_goals
      rename_i hfind
      obtain ⟨entry, hentry, hbinding⟩ := exists_mem_of_find? hfind
      have hplain := hctx entry hentry
      simpa [hbinding, Binding.isPlain] using hplain

theorem value?_of_valueType {name : String} {type : Ty}
    (hrun : ctx.valueType name loc = .ok type) : ctx.value? name = some type := by
  unfold valueType at hrun
  unfold value?
  split at hrun <;> cases hrun
  · rename_i hfind
    rw [hfind]
  · rename_i hfind
    rw [hfind]

section Bind

variable {name : String} {type : Ty} {nameLoc : Loc} {isGlobal : Bool} {stamp : Nat}

theorem value?_cons_typed (other : String) :
    value? (⟨stamp, name, .typed type nameLoc isGlobal⟩ :: ctx) other =
      if other = name then some type else ctx.value? other := by
  unfold value?
  rw [find?_cons]
  by_cases hname : other = name
  · simp [hname]
  · simp [hname]

/-- Binding a value to a new name does not change what names of types stand for. -/
theorem ofContext_cons_typed (hunbound : ctx.find? name = none) :
    Convention.ofContext (⟨stamp, name, .typed type nameLoc isGlobal⟩ :: ctx) =
      Convention.ofContext ctx := by
  have halias : alias? (⟨stamp, name, .typed type nameLoc isGlobal⟩ :: ctx) = ctx.alias? := by
    funext other
    unfold alias?
    rw [find?_cons]
    by_cases hname : other = name
    · simp [hname, hunbound]
    · simp [hname]
  rw [Convention.ofContext, halias, Convention.ofContext]

theorem env_cons_typed (s : Nat → Ty) :
    env (⟨stamp, name, .typed type nameLoc isGlobal⟩ :: ctx) s =
      (ctx.env s).extend name (type.bindHoles s) := by
  funext other
  unfold env Env.extend
  rw [value?_cons_typed]
  by_cases hname : other = name
  · simp [hname]
  · simp [hname]

theorem env_eq_none (hunbound : ctx.find? name = none) (s : Nat → Ty) : ctx.env s name = none := by
  simp [env, value?, hunbound]

theorem IsPlain.cons_typed {n : Nat} (hplain : ctx.IsPlain n) (htype : type.IsPlain n) :
    IsPlain (⟨stamp, name, .typed type nameLoc isGlobal⟩ :: ctx) n where
  declared other a ha := hplain.declared other a (alias?_of_cons_typed ha)
  values other a ha := by
    rw [value?_cons_typed] at ha
    split at ha
    · cases ha
      exact htype
    · exact hplain.values other a ha

end Bind

end Context

namespace Solver

variable {convention : Ty.Convention} {s : Nat → Ty} {c : Constraint}
  {constraints other : List Constraint}

@[simp]
theorem satisfies_cons : Satisfies convention s (c :: constraints) ↔
    Equal convention .type (c.1.bindHoles s) (c.2.bindHoles s) ∧
      Satisfies convention s constraints := by
  simp [Satisfies]

@[simp]
theorem satisfies_append : Satisfies convention s (constraints ++ other) ↔
    Satisfies convention s constraints ∧ Satisfies convention s other :=
  forall_mem_append

end Solver

namespace Inference

open Solver (Satisfies)

/-- Functions that inference is sound for: one with a parameter has a written type,
and a written type is a plain function type. -/
def ascribes (n : Nat) (param : Option Param) (ascribed : Option Ty) : Bool :=
  match ascribed with
  | some (.arrow a b) => decide ((arrow a b).IsPlain n)
  | some _ => false
  | none => param.isNone

/-- The term has the type under every substitution that satisfies the constraints. -/
def IsSound (ctx : Context) (term : Term) (type : Ty) (constraints : List Constraint) : Prop :=
  ∀ s, Satisfies (.ofContext ctx) s constraints →
    HasType (.ofContext ctx) s (ctx.env s) term (type.bindHoles s)

variable {ctx : Context} {loc : Option Loc} {term : Term} {type baseType : Ty}
  {constraints : List Constraint} {final checker : Checker} {n m start : Nat} {key : String}

/-- The written type of a function in the form that the body is checked against. It stands
for the same as the type that was written. -/
theorem normalize_ascribed (hctx : ctx.IsPlain n) (hle : start ≤ n) {param : Option Param}
    {ascribed : Ty} (hascribes : ascribes start param (some ascribed))
    (hnormalize : ctx.normalize loc ascribed = .ok type) :
    type.IsPlain n ∧
      ∀ s, Equal (.ofContext ctx) .type (ascribed.bindHoles s) (type.bindHoles s) := by
  have hplain : ascribed.IsPlain n := by
    unfold ascribes at hascribes
    split at hascribes
    · rename_i a b heq
      cases heq
      exact (of_decide_eq_true hascribes).mono hle
    · cases hascribes
    · rename_i heq
      cases heq
  obtain ⟨hmono, hequal⟩ := normalize_equal hctx.declared hplain.1 hnormalize
  have hholes := mem_holes_normalize hctx.declared.suits.closed hnormalize
  exact ⟨⟨hmono, fun i hi => hplain.2 i (hholes i hi)⟩,
    fun s => (hequal .type).bindHoles hctx.declared.suits.closed s⟩

/-- Solving plain constraints gives a solved form of plain constraints, and whatever satisfies
these satisfies the constraints. -/
theorem solves_plain {answer : List Constraint} (hctx : ctx.IsPlain n)
    (hplain : ∀ c ∈ constraints, c.1.IsPlain n ∧ c.2.IsPlain n)
    (hsolves : Solves ctx n constraints [] m answer) :
    SolvedForm answer ∧ (∀ c ∈ answer, c.1.IsPlain m ∧ c.2.IsPlain m) ∧
      ∀ s, Satisfies (.ofContext ctx) s answer → Satisfies (.ofContext ctx) s constraints := by
  have hsuits := hctx.declared.suits
  have hmono : (Convention.ofContext ctx).IsMonomorphic := fun name type hname =>
    (hctx.declared name type hname).1
  have hpending : Monomorphic constraints := fun c hc => ⟨(hplain c hc).1.1, (hplain c hc).2.1⟩
  have htidy : Tidy (.ofContext ctx) ctx n constraints [] :=
    .start (fun c _ => ⟨Convention.admits_ofContext ctx c.1,
      Convention.admits_ofContext ctx c.2⟩)
      fun c hc => ⟨(hplain c hc).1.2, (hplain c hc).2.2⟩
  obtain ⟨hle, hform, hissued⟩ := hsolves.tidy hsuits htidy
  have hanswer := hsolves.monomorphic hsuits hmono htidy hpending (by simp [Monomorphic])
  refine ⟨hform, fun c hc => ?_, fun s hs => hsolves.satisfies hsuits hmono htidy hpending hs⟩
  exact ⟨⟨(hanswer c hc).1, (hissued c hc).1⟩, ⟨(hanswer c hc).2, (hissued c hc).2⟩⟩

/-- Inference from a counter on only finds plain types. -/
def plain (start : Nat) : InferenceInvariant where
  OfType n ty := ty.IsPlain n
  start := start
  mono := IsPlain.mono
  hole _ hle := isPlain_hole.mpr hle
  hole_of_mem hty hi := isPlain_hole.mpr (hty.2 _ hi)
  bindHoles hty hf := by
    refine ⟨isMonomorphic_bindHoles hty.1 fun i hi => (hf i hi).1, fun i hi => ?_⟩
    obtain ⟨j, hj, hi⟩ := mem_holes_bindHoles.mp hi
    exact (hf j hj).2 i hi
  opened hgeneric _ := by cases hgeneric.1
  OfContext n ctx := start ≤ n ∧ ctx.IsPlain n
  start_le hctx := hctx.1
  allows := ascribes start
  allows_none _ hgeneric := by cases hgeneric.1
  literal _ := isPlain_named
  emptyRow := isPlain_emptyRow
  arrow := isPlain_arrow
  app := isPlain_app
  field := isPlain_field
  record := isPlain_record
  quantified _ hallows _ := by cases hallows
  context_mono hctx hle := ⟨Nat.le_trans hctx.1 hle, hctx.2.mono hle⟩
  value hctx hrun := hctx.2.values _ _ (value?_of_valueType hrun)
  bind hctx htype := ⟨hctx.1, hctx.2.cons_typed htype⟩
  written hctx hallows hrun := (normalize_ascribed hctx.2 hctx.1 hallows hrun).1
  solves hctx hconstraints hsolves := (solves_plain hctx.2 hconstraints hsolves).2.1

/-- Whatever is solved is sound, and the answer is a solved form. -/
def SolvesSoundly (start : Nat) (solve : Context → Term → CheckM Solved) : Prop :=
  ∀ ⦃ctx term checker solved final⦄, solve ctx term checker = .ok solved final →
    (plain start).OfContext checker.counter ctx → term.allFunctions (ascribes start) = true →
    SolvedForm solved.principal ∧ IsSound ctx term solved.type solved.principal

theorem instantiate_eq_ok {ty body : Ty} (hmono : ty.isMonomorphic)
    (hrun : ty.instantiate loc checker = .ok body final) : body = ty ∧ final = checker := by
  cases ty with
  | generic => simp [isMonomorphic] at hmono
  | _ =>
    cases loc <;> cases hrun <;> exact ⟨rfl, rfl⟩

/-! ## Each form of term -/

/-- A record with one more field is sound if its parts are, whichever rule adds the
field. -/
theorem IsSound.extend {value baseTerm : Term} {valueType : Ty}
    {valueConstraints baseConstraints : List Constraint}
    (hvalue : IsSound ctx value valueType valueConstraints)
    (hbase : IsSound ctx baseTerm baseType baseConstraints)
    (hrule : ∀ s a row, HasType (.ofContext ctx) s (ctx.env s) value a → HasType (.ofContext ctx) s
      (ctx.env s) baseTerm (.record row none) → HasType (.ofContext ctx) s (ctx.env s) term (.record
      (.field key a row) none)) :
    IsSound ctx term (.record (.field key (.hole (n + 1)) (.hole (n + 2))) none)
      ((.hole (n + 1), valueType) :: (.record (.hole (n + 2)) none, baseType) ::
        valueConstraints ++ baseConstraints) := by
  intro s hs
  simp only [cons_append, satisfies_cons, satisfies_append] at hs
  obtain ⟨hfield, hrow, hsvalue, hsbase⟩ := hs
  exact hrule s _ _ ((hvalue s hsvalue).convert hfield.symm) ((hbase s hsbase).convert hrow.symm)

/-- A field that is asked for is found in the record, whichever rule asks for it. -/
theorem IsSound.select {record : Term} (hbase : IsSound ctx record baseType constraints)
    (hrule : ∀ s, HasType (.ofContext ctx) s (ctx.env s) record ((Ty.record (.field key (.hole (n +
      1)) (.hole (n + 2))) none).bindHoles s) → HasType (.ofContext ctx) s (ctx.env s) term
      (type.bindHoles s)) :
    IsSound ctx term type
      ((.record (.field key (.hole (n + 1)) (.hole (n + 2))) none, baseType) :: constraints) := by
  intro s hs
  obtain ⟨hrecord, hs⟩ := satisfies_cons.mp hs
  exact hrule s ((hbase s hs).convert hrecord.symm)

/-- A name that is not bound yet is bound to the resolved type of what it stands for. -/
theorem IsSound.letOnce {name : String} {value body : Term} {nameLoc : Loc} {stamp : Nat}
    {bound : Ty} {principal : List Constraint} (loc : Loc)
    (hbound : IsSound ctx value bound principal) (hform : SolvedForm principal)
    (hvalue : value.isValue = false) (hunbound : ctx.find? name = none)
    (hbody : IsSound (⟨stamp, name, .typed (bound.applying principal) nameLoc false⟩ :: ctx) body
      type constraints) :
    IsSound ctx (.letIn name value body nameLoc loc) type (principal ++ constraints) := by
  intro s hs
  obtain ⟨hsbound, hsbody⟩ := satisfies_append.mp hs
  have hbodyType := hbody s (by rwa [ofContext_cons_typed hunbound])
  rw [ofContext_cons_typed hunbound, env_cons_typed] at hbodyType
  -- `s` does not tell the resolved type from the inferred one
  have hequal := hform.equal_bindHoles_applying (fun i u hu => hsbound (.hole i, u) hu) bound
  exact .letOnce nameLoc loc hvalue (env_eq_none hunbound s)
    ((hbound s hsbound).convert hequal.symm) hbodyType

section

variable {solve : Context → Term → CheckM Solved} (hplain : (plain start).Solves solve)
  (hsolve : SolvesSoundly start solve) (hctx : (plain start).OfContext checker.counter ctx)

include hplain hsolve hctx

/-- Elements that are solved one after the other all have the type that their types
are equal to. -/
theorem elements_sound {elements : List Term} {results : List Solved}
    (hterms : ∀ element ∈ elements, element.allFunctions (ascribes start))
    (hall : SolvesAll solve ctx elements checker results final) (s : Nat → Ty) (a : Ty)
    (hs : ∀ result ∈ results, Satisfies (.ofContext ctx) s result.principal ∧
      Equal (.ofContext ctx) .type a (result.type.bindHoles s)) :
    ∀ element ∈ elements, HasType (.ofContext ctx) s (ctx.env s) element a := by
  induction hall with
  | nil => simp
  | cons hresult _ ih =>
    rw [forall_mem_cons] at hterms hs ⊢
    obtain ⟨⟨hsresult, hequal⟩, hsrest⟩ := hs
    have hctx' := (plain start).context_mono hctx (hplain hresult hctx hterms.1).le
    exact ⟨((hsolve hresult hctx hterms.1).2 s hsresult).convert hequal.symm,
      ih hctx' hterms.2 hsrest⟩

omit hplain in
/-- Functions: those with a parameter have a written type, which is not generic. -/
theorem function_sound {param : Option Param} {body : Term} {ascribed : Option Ty} {loc : Loc}
    {inferred : Inferred}
    (hsteps : Steps solve ctx (.function param body ascribed loc) checker inferred final)
    (hterm : (Term.function param body ascribed loc).allFunctions (ascribes start)) :
    IsSound ctx (.function param body ascribed loc) inferred.type inferred.constraints := by
  simp only [allFunctions, and_eq_true] at hterm
  cases hsteps with
  | @thunk _ loc _ _ _ hbody =>
    exact fun s hs => .thunk loc ((hsolve hbody hctx hterm.2).2 s hs)
  | settled | lettered => cases hterm.1
  | @writtenThunk _ loc _ arg ret _ _ _ htype hbody =>
    have hwritten := (normalize_ascribed hctx.2 hctx.1 hterm.1 htype).2
    intro s hs
    simp only [satisfies_cons] at hs
    obtain ⟨hreturns, hunit, hs⟩ := hs
    have hthunk : Equal (.ofContext ctx) .type ((arrow arg ret).bindHoles s)
        (.arrow .unit (ret.bindHoles s)) := .arrow hunit (.refl ..)
    exact (HasType.ascribedThunk loc ((hwritten s).trans hthunk)
      (((hsolve hbody hctx hterm.2).2 s hs).convert hreturns)).convert hthunk.symm
  | @written _ _ loc _ _ _ _ _ _ htype hbindable hbody =>
    obtain ⟨htype, hwritten⟩ := normalize_ascribed hctx.2 hctx.1 hterm.1 htype
    have hunbound := find?_eq_none_of_checkBindable hbindable
    have hsound := (hsolve hbody ((plain start).bind hctx (isPlain_arrow.mp htype).1) hterm.2).2
    intro s hs
    obtain ⟨hreturns, hs⟩ := satisfies_cons.mp hs
    have hbodyType := hsound s (by rwa [ofContext_cons_typed hunbound])
    rw [ofContext_cons_typed hunbound, env_cons_typed] at hbodyType
    exact .function loc (hwritten s) (env_eq_none hunbound s) (hbodyType.convert hreturns)
  | writtenGeneric htype _ =>
    cases (normalize_ascribed hctx.2 hctx.1 hterm.1 htype).1.1

/-! ## Whole terms -/

/-- One level of inference is sound if the subterms are solved soundly. -/
theorem sound_of_steps {inferred : Inferred}
    (hsteps : Steps solve ctx term checker inferred final)
    (hterm : term.allFunctions (ascribes start)) :
    IsSound ctx term inferred.type inferred.constraints := by
  have hlater {n m : Nat} := @InferenceInvariant.context_mono (plain start) n m ctx
  have hstep := hsteps
  cases hsteps with
  | @reference name loc type _ htype =>
    exact fun s _ => .reference loc (by simp [env, value?_of_valueType htype])
  | boolean => exact fun s _ => .boolean ..
  | number => exact fun s _ => .number ..
  | string => exact fun s _ => .string ..
  | unit => exact fun s _ => .unit ..
  | emptyRecord => exact fun s _ => .emptyRecord ..
  | thunk | settled | lettered | writtenThunk | written | writtenGeneric =>
    exact function_sound hsolve hctx hstep hterm
  | @application _ _ loc _ _ _ _ _ _ _ hfunc harg hopen =>
    simp only [allFunctions, and_eq_true] at hterm
    have hfn := hplain hfunc hctx hterm.1
    obtain ⟨rfl, rfl⟩ := instantiate_eq_ok hfn.ofType.1 hopen
    intro s hs
    simp only [cons_append, satisfies_cons, satisfies_append] at hs
    obtain ⟨hequal, hsfn, hsa⟩ := hs
    exact .application loc (((hsolve hfunc hctx hterm.1).2 s hsfn).convert hequal)
      ((hsolve harg (hlater hctx hfn.le) hterm.2).2 s hsa)
  | @conditional _ _ _ loc _ _ _ _ _ _ _ hcondition hconsequence halternative =>
    simp only [allFunctions, and_eq_true] at hterm
    have hctx₁ := hlater hctx (hplain hcondition hctx hterm.1.1).le
    have hctx₂ := hlater hctx₁ (hplain hconsequence hctx₁ hterm.1.2).le
    intro s hs
    simp only [cons_append, satisfies_cons, satisfies_append] at hs
    obtain ⟨hequal, hbranches, ⟨hsc, hsa⟩, hsb⟩ := hs
    exact .conditional loc (((hsolve hcondition hctx hterm.1.1).2 s hsc).convert hequal)
      (((hsolve hconsequence hctx₁ hterm.1.2).2 s hsa).convert hbranches)
      ((hsolve halternative hctx₂ hterm.2).2 s hsb)
  | @letValue name _ body nameLoc loc _ _ _ _ _ hvalue hbindable hbody hbound =>
    simp only [allFunctions, and_eq_true] at hterm
    have hcopied := allFunctions_replace (x := name) hterm.1 body hterm.2
    have hctx' := hlater hctx (hplain hbody hctx hcopied).le
    intro s hs
    obtain ⟨hsresult, hsbound⟩ := satisfies_append.mp hs
    have hname := env_eq_none (find?_eq_none_of_checkBindable hbindable) s
    have hvalueType := (hsolve hbound hctx' hterm.1).2 s hsbound
    have hbodyType := (hsolve hbody hctx hcopied).2 s hsresult
    exact .letValue nameLoc loc hvalue hname (hvalueType.not_captured hbodyType) hvalueType
      hbodyType
  | @letOnce _ _ _ _ loc _ _ _ _ _ _ _ hvalue hbound hopen hbindable hbody =>
    simp only [allFunctions, and_eq_true] at hterm
    have hfound := hplain hbound hctx hterm.1
    obtain ⟨hform, hsound⟩ := hsolve hbound hctx hterm.1
    have hsingle := (plain start).applying hfound.ofType hfound.ofConstraints
    obtain ⟨rfl, rfl⟩ := instantiate_eq_ok hsingle.1 hopen
    exact hsound.letOnce loc hform hvalue (find?_eq_none_of_checkBindable hbindable)
      (hsolve hbody ((plain start).bind (hlater hctx hfound.le) hsingle) hterm.2).2
  | @extend _ _ _ loc _ _ _ _ _ hrecord _ hval =>
    simp only [allFunctions, and_eq_true] at hterm
    have hctx' := hlater hctx (hplain hrecord hctx hterm.2).le
    exact (hsolve hval hctx' hterm.1).2.extend (hsolve hrecord hctx hterm.2).2
      fun s a row => .extend loc
  | @overwrite _ _ _ loc _ _ _ _ _ _ _ hrecord _ hbase hval =>
    simp only [allFunctions, and_eq_true] at hterm
    have hctx₁ := hlater hctx (hplain hrecord hctx hterm.2).le
    have hctx₂ := hlater hctx₁ (hplain hbase hctx₁ hterm.2).le
    exact (hsolve hval hctx₂ hterm.1).2.extend (hsolve hbase hctx₁ hterm.2).2
      fun s a row => .update loc loc
  | @restrict _ _ loc _ _ _ hrecord =>
    exact (hsolve hrecord hctx hterm).2.select fun s => .restrict loc
  | @access _ _ loc _ _ _ hrecord =>
    exact (hsolve hrecord hctx hterm).2.select fun s => .select loc
  | @array elements loc _ _ _ helements =>
    intro s hs
    obtain ⟨hequal, hsprincipal⟩ := satisfies_append.mp hs
    have hctx' := hlater hctx (Nat.le_succ _)
    refine .array loc (elements_sound hplain hsolve hctx' (allFunctionsIn_iff.mp hterm) helements
      s _ fun result hresult => ⟨fun c hc => ?_, ?_⟩)
    · exact hsprincipal c (mem_flatMap.mpr ⟨result, hresult, hc⟩)
    · exact hequal _ (mem_map.mpr ⟨result, hresult, rfl⟩)

end

theorem solvesSoundly_solve (start fuel : Nat) : SolvesSoundly start (solve fuel) := by
  refine solve_induction (fun {fuel} _ _ _ _ _ _ _ ih hsteps hunify hctx hterm => ?_) fuel
  have hplain := (plain start).solves_solve fuel
  have hfinds := InferenceInvariant.finds_of_steps hplain hsteps hctx hterm
  obtain ⟨hform, -, hsatisfies⟩ := solves_plain (hctx.2.mono hfinds.le) hfinds.ofConstraints
    (unify_solves hunify).1
  exact ⟨hform, fun s hs => sound_of_steps hplain ih hctx hsteps hterm s (hsatisfies s hs)⟩

end Inference

/-- A term that is solved has the type found for it, under the types found for the
placeholders of the context. -/
theorem solve_hasType {fuel : Nat} {ctx : Context} {term : Term} {checker final : Checker}
    {solved : Solved} (hctx : ctx.IsPlain checker.counter)
    (hterm : term.allFunctions (Inference.ascribes checker.counter) = true)
    (hrun : solve fuel ctx term checker = .ok solved final) :
    HasType (.ofContext ctx) (fun i => (Ty.hole i).applying solved.principal)
      (ctx.env fun i => (Ty.hole i).applying solved.principal) term
      (solved.type.applying solved.principal) := by
  obtain ⟨hform, hsound⟩ :=
    Inference.solvesSoundly_solve checker.counter fuel hrun ⟨Nat.le_refl _, hctx⟩ hterm
  rw [applying_eq_bindHoles]
  exact hsound _ (hform.satisfies _)

/-- Points, one of them as the record that points are declared as, and a value that is
not known. -/
def shapeContext : Context :=
  let point : Ty := .record (.field "x" .number (.field "y" .number .emptyRow)) none
  [⟨5, "origin", .typed point .synthetic false⟩, ⟨4, "unknown", .typed (.hole 1) .synthetic false⟩,
    ⟨3, "Point", .typeAlias point .synthetic false⟩, ⟨2, "Array", .typeParameter⟩,
    ⟨1, "Boolean", .typeParameter⟩, ⟨0, "Number", .typeParameter⟩]

/-- The value `first` is used for points and put in twice; `shifted` is no value and
has one type. -/
def shapeTerm : Term :=
  let at_ : Loc := .synthetic
  let first : Term := .function (some ⟨"point", at_⟩)
    (.fieldAccess "x" (.reference "point" at_) at_) (some (.arrow (.named "Point") .number)) at_
  let shifted : Term := .recordExtend "x"
    (.application (.reference "first" at_) (.reference "origin" at_) at_)
    (.reference "origin" at_) at_
  .letIn "first" first
    (.letIn "shifted"
      (.conditional (.reference "unknown" at_) shifted (.reference "origin" at_) at_)
      (.array [.application (.reference "first" at_) (.reference "shifted" at_) at_,
        .fieldAccess "y" (.reference "shifted" at_) at_] at_) at_ at_) at_ at_

/-- The term is solved, gives an array of numbers and is typed as one. -/
theorem solve_hasType_shape :
    ∃ solved final, solve 60 shapeContext shapeTerm { counter := 1 } = .ok solved final ∧
      solved.type.applying solved.principal = .arrayOf .number ∧
      HasType (.ofContext shapeContext) (fun i => (Ty.hole i).applying solved.principal)
        (shapeContext.env fun i => (Ty.hole i).applying solved.principal) shapeTerm
        (solved.type.applying solved.principal) := by
  have hyields : (solve 60 shapeContext shapeTerm).yields { counter := 1 } (fun solved _ =>
      solved.type.applying solved.principal = .arrayOf .number) = true := by decide +kernel
  obtain ⟨solved, final, hrun, htype⟩ := CheckM.exists_of_yields hyields
  have hctx : shapeContext.IsPlain 1 := isPlain_of_forall (by decide)
  exact ⟨solved, final, hrun, of_decide_eq_true htype, solve_hasType hctx (by decide) hrun⟩

/-! ## Where inference is not sound -/

/-- The term is solved, but it does not have the type found for it. -/
def Mistyped (ctx : Context) (term : Term) (checker : Checker) : Prop :=
  ∃ fuel solved final, solve fuel ctx term checker = .ok solved final ∧
    ¬ HasType (.ofContext ctx) (fun i => (hole i).applying solved.principal)
      (ctx.env fun i => (hole i).applying solved.principal) term
      (solved.type.applying solved.principal)

theorem Context.alias?_eq_none_of_forall {ctx : Context}
    (hctx : ∀ entry ∈ ctx, ∀ type nameLoc isGlobal,
      entry.binding ≠ .typeAlias type nameLoc isGlobal) (name : String) :
    ctx.alias? name = none := by
  unfold alias?
  split
  · rename_i hfind
    obtain ⟨entry, hentry, hbinding⟩ := exists_mem_of_find? hfind
    exact absurd hbinding (hctx entry hentry _ _ _)
  · rfl

def clashRecord (p q r : Ty) : Ty :=
  .record (.field "p" p (.field "q" q (.field "r" r .emptyRow))) none

/-- A record with a placeholder that the checker did not hand out. -/
def clashLeft : Ty :=
  clashRecord (.hole 1) (.record (.field "k" .number (.hole 8)) none)
    (.record (.field "k" .number (.hole 8)) none)

def clashRight : Ty :=
  clashRecord .boolean (.record (.field "j" .string (.hole 9)) none)
    (.record (.field "k" .number (.field "j" .string .emptyRow)) none)

def clashContext : Context :=
  [⟨4, "y", .typed clashRight .synthetic false⟩, ⟨3, "x", .typed clashLeft .synthetic false⟩,
    ⟨2, "Boolean", .typeParameter⟩, ⟨1, "String", .typeParameter⟩, ⟨0, "Number", .typeParameter⟩]

def clashTerm : Term :=
  .conditional (.boolean .synthetic) (.reference "x" .synthetic) (.reference "y" .synthetic)
    .synthetic

/-- The placeholder of the context is solved twice, first as `Boolean` and then as the
end of a row. -/
def clashAnswer : List Constraint :=
  [(.hole 1, .emptyRow), (.hole 8, .field "j" .string (.hole 1)),
    (.hole 9, .field "k" .number (.hole 1)), (.hole 1, .boolean)]

theorem clash_mistyped : Mistyped clashContext clashTerm {} := by
  have hrun : solve 40 clashContext clashTerm {} =
      .ok ⟨clashRight, clashAnswer, clashContext⟩ { counter := 1 } := rfl
  refine ⟨40, _, _, hrun, fun hterm => ?_⟩
  obtain ⟨hx, hy⟩ := hterm.branches_of_conditional
  obtain ⟨a, ha, hequal⟩ := hx.equal_of_reference
  obtain ⟨b, hb, hequal'⟩ := hy.equal_of_reference
  have halias : ∀ name, clashContext.alias? name = none :=
    alias?_eq_none_of_forall (by simp [clashContext])
  have hcount := (hequal.trans hequal'.symm).count_names halias "Boolean"
  cases ha
  cases hb
  revert hcount
  decide

def thunkContext : Context := [⟨1, "()", .typeParameter⟩, ⟨0, "Number", .typeParameter⟩]

/-- A function without parameter that is written to return whatever is wanted. -/
def thunkTerm : Term :=
  .function none (.number .synthetic) (some (.generic "a" (.arrow .unit (.named "a")))) .synthetic

theorem thunk_mistyped : Mistyped thunkContext thunkTerm {} := by
  have hrun : solve 40 thunkContext thunkTerm {} =
      .ok ⟨.generic "a" (.arrow .unit (.named "a")), [(.hole 1, .number)], thunkContext⟩
        { counter := 1 } := rfl
  refine ⟨40, _, _, hrun, fun hterm => ?_⟩
  obtain ⟨b, hbody, hequal⟩ := hterm.body_of_ascribedThunk
  have halias : ∀ name, thunkContext.alias? name = none :=
    alias?_eq_none_of_forall (by simp [thunkContext])
  have hthunk : Equal (.ofContext thunkContext) .type (.arrow .unit .number) (.arrow .unit b) :=
    .arrow (.refl ..) hbody.equal_of_number
  have hcount := (hthunk.trans hequal).count_names halias "Number"
  revert hcount
  decide

/-- Functions of one parameter have a written type that is a function type and not
generic. Nothing is asked of functions without parameter. -/
def Inference.ascribesParameters (param : Option Param) (ascribed : Option Ty) : Bool :=
  match param, ascribed with
  | none, _ => true
  | some _, some (.arrow a b) => (arrow a b).isMonomorphic
  | some _, _ => false

/-- Inference is not sound for all contexts without generic types. A placeholder of the
context gets two types if the checker hands it out again, and a generic type that is
written for a function without parameter is believed. -/
theorem solve_mistypes :
    (clashContext.DeclaresMonomorphic ∧
      (∀ name type, clashContext.value? name = some type → type.isMonomorphic = true) ∧
      clashTerm.allFunctions Inference.ascribesParameters = true ∧
      Mistyped clashContext clashTerm {}) ∧
    (thunkContext.DeclaresMonomorphic ∧
      (∀ name type, thunkContext.value? name = some type → type.isMonomorphic = true) ∧
      thunkTerm.allFunctions Inference.ascribesParameters = true ∧
      Mistyped thunkContext thunkTerm {}) := by
  have hclash : clashContext.IsPlain 9 := isPlain_of_forall (by decide)
  have hthunk : thunkContext.IsPlain 0 := isPlain_of_forall (by decide)
  exact ⟨⟨hclash.declared, fun name type hname => (hclash.values name type hname).1, rfl,
    clash_mistyped⟩, hthunk.declared, fun name type hname => (hthunk.values name type hname).1,
    rfl, thunk_mistyped⟩

end RowScript
