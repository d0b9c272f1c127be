import RowScript.Proofs.PairedSolving
import RowScript.Proofs.ClosedTypes

/-!
# Inference in two contexts

A term is inferred in two contexts in which the names that it uses mean the same. A `Vocabulary`
says which names a term may use, and which of them its written types may leave free.
-/

namespace RowScript

open Context CheckM Inference List Bool Term

namespace Term

mutual

/-- Whether every name that a term refers to or binds passes a check. -/
def allNames (p : String → Bool) : Term → Bool
  | .reference name _ => p name
  | .boolean _ | .number _ | .string _ | .unit _ | .emptyRecord _ => true
  | .function param body _ _ => param.all (p ·.name) && allNames p body
  | .letIn name value body _ _ => p name && allNames p value && allNames p body
  | .application a b _ | .recordExtend _ a b _ => allNames p a && allNames p b
  | .conditional a b c _ => allNames p a && allNames p b && allNames p c
  | .recordRestrict _ record _ | .fieldAccess _ record _ => allNames p record
  | .array elements _ => allNamesIn p elements

def allNamesIn (p : String → Bool) : List Term → Bool
  | [] => true
  | term :: rest => allNames p term && allNamesIn p rest

end

variable {p : String → Bool}

theorem allNamesIn_iff {terms : List Term} :
    allNamesIn p terms ↔ ∀ term ∈ terms, term.allNames p := by
  induction terms with
  | nil => simp [allNamesIn]
  | cons term rest ih => simp [allNamesIn, ih]

theorem hereditary_allNames : Hereditary (·.allNames p = true) := fun term => by
  cases term <;> simp [allNames, bare, children, allNamesIn_iff, Bool.and_assoc]

theorem allNames_of_forall (hp : ∀ name, p name) (term : Term) : term.allNames p := by
  refine Hereditary.imp (P := fun _ => True) (by simp [Hereditary]) hereditary_allNames
    (fun term _ => ?_) term trivial
  cases term <;> simp [allNames, allNamesIn, bare, hp]

end Term

/-- The names that terms may use, and those that written types may leave free. -/
structure Vocabulary where
  used : String → Bool
  free : String → Bool
  used_of_free : ∀ name, free name → used name
  literals : ∀ name ∈ literalTypes, free name
  letters : ∀ name ∈ typeVariableNames, free name = false

namespace Vocabulary

variable (words : Vocabulary)

/-- The names that may be free in a type. -/
def Knows (name : String) : Prop := words.free name = true

instance : DecidablePred words.Knows := fun name =>
  inferInstanceAs (Decidable (words.free name = true))

/-- A written type in these words. -/
def writes (type : Ty) : Bool :=
  type.holes.isEmpty && type.names.all words.used && decide (type.ClosedOver words.Knows)

/-- A term in these words. -/
structure Spells (term : Term) : Prop where
  names : term.allNames words.used
  types : term.allFunctions (fun _ ascribed => ascribed.all words.writes)

variable {words} {name : String}

theorem Spells.replace {body value : Term} (hbody : words.Spells body)
    (hvalue : words.Spells value) : words.Spells (body.replace name value) :=
  ⟨hereditary_allNames.replaced (replaced_replace ..) hvalue.names hbody.names,
    allFunctions_replace hvalue.types body hbody.types⟩

theorem like_named {holes : Nat → Nat → Prop} (hname : name ∈ literalTypes) :
    (Ty.named name).Like words.Knows holes (.named name) :=
  .ident ⟨rfl, words.literals name hname⟩ rfl

end Vocabulary

/-- Two contexts in which the names of a vocabulary mean the same. Values have types that are
alike. -/
structure Context.Pair (words : Vocabulary) (holes : Nat → Nat → Prop) (ctx ctx' : Context) :
    Prop where
  uses : ctx.SameTypeUses (fun name => words.used name = true) ctx'
  declares : ctx.DeclaresClosed words.Knows
  closed : (Ty.Convention.ofContext ctx).IsClosed
  values : ∀ name loc, words.used name → ExceptAccords (Ty.Like words.Knows holes)
    (ctx.valueType name loc) (ctx'.valueType name loc)

namespace Context

variable {words : Vocabulary} {holes more : Nat → Nat → Prop} {ctx ctx' : Context} {a b : Ty}
  {name : String} {loc : Option Loc}

namespace Pair

variable (hpair : Pair words holes ctx ctx')

include hpair

theorem extend (hmore : ∀ i j, holes i j → more i j) :
    Pair words more ctx ctx' where
  uses := hpair.uses
  declares := hpair.declares
  closed := hpair.closed
  values name loc hname :=
    (hpair.values name loc hname).imp fun _ _ hlike => Ty.Alike.extend hlike hmore

theorem knownUses : ctx.SameTypeUses words.Knows ctx' :=
  ⟨fun name hname => hpair.uses.same name (words.used_of_free name hname), hpair.declares⟩

theorem bind (hlike : a.Like words.Knows holes b) (stamp stamp' : Nat) (name : String)
    (nameLoc : Loc) :
    Pair words holes (⟨stamp, name, .typed a nameLoc false⟩ :: ctx)
      (⟨stamp', name, .typed b nameLoc false⟩ :: ctx') where
  uses := by
    refine ⟨fun other hother => ?_, fun other type hother halias =>
      hpair.uses.closed other type hother (alias?_of_cons_typed halias)⟩
    have hsame := hpair.uses.same other hother
    simp only [typeUse?, find?_cons] at hsame ⊢
    split
    · rfl
    · exact hsame
  declares other type hother halias :=
    hpair.declares other type hother (alias?_of_cons_typed halias)
  closed other type halias := hpair.closed other type (alias?_of_cons_typed halias)
  values other loc hother := by
    by_cases hname : other = name
    · simp only [valueType, find?_cons, if_pos hname]
      exact hlike
    · have hvalue := hpair.values other loc hother
      simpa only [valueType, find?_cons, if_neg hname] using hvalue

theorem bindName (hname : words.used name) (hlike : a.Like words.Knows holes b) (nameLoc : Loc) :
    Accord holes (Pair words) (bindName ctx name (.typed a nameLoc false) loc) fun _ =>
      bindName ctx' name (.typed b nameLoc false) loc := by
  unfold CheckM.bindName
  rw [hpair.uses.checkBindable hname]
  refine accord_ofExcept_bind (R := fun _ _ => True) (exceptAccords_same fun _ _ => trivial)
    fun _ _ _ => ?_
  exact accord_const fun _ _ hpairing => ⟨False.elim, holes, fun _ _ hij => hij, hpairing,
    hpair.bind hlike _ _ name nameLoc⟩

end Pair

end Context

/-- What is inferred in both contexts. -/
structure InferredAlike (words : Vocabulary) (holes : Nat → Nat → Prop)
    (inferred inferred' : Inferred) : Prop where
  type : inferred.type.Like words.Knows holes inferred'.type
  constraints :
    ConstraintsAlike words.Knows (· = ·) holes inferred.constraints inferred'.constraints

/-- What is solved in both contexts. The contexts as seen from inside do not matter. -/
structure SolvedAlike (words : Vocabulary) (holes : Nat → Nat → Prop) (solved solved' : Solved) :
    Prop where
  type : solved.type.Like words.Knows holes solved'.type
  principal : ConstraintsAlike words.Knows (· = ·) holes solved.principal solved'.principal

/-- Two ways to solve terms that go together for a vocabulary. -/
def SolvesAlike (words : Vocabulary) (solve : Context → Term → CheckM Solved)
    (solve' : Nat → Context → Term → CheckM Solved) : Prop :=
  ∀ ⦃holes : Nat → Nat → Prop⦄ ⦃ctx ctx' : Context⦄ ⦃term : Term⦄, Relator.BiUnique holes →
    Pair words holes ctx ctx' → words.Spells term →
      Accord holes (SolvedAlike words) (solve ctx term) (solve' · ctx' term)

section Steps

variable {words : Vocabulary} {holes more : Nat → Nat → Prop} {ctx ctx' : Context} {a b : Ty}
  {constraints constraints' : List Constraint} {loc : Option Loc} {param : Option Param}
  {body value record : Term} {elements : List Term} {key : String}

theorem ConstraintsAlike.extend
    (halike : ConstraintsAlike words.Knows (· = ·) holes constraints constraints')
    (hmore : ∀ i j, holes i j → more i j) :
    ConstraintsAlike words.Knows (· = ·) more constraints constraints' :=
  halike.imp fun _ _ hequal => ⟨hequal.1.extend hmore, hequal.2.extend hmore⟩

theorem SolvedAlike.extend {solved solved' : Solved}
    (halike : SolvedAlike words holes solved solved')
    (hmore : ∀ i j, holes i j → more i j) : SolvedAlike words more solved solved' :=
  ⟨halike.type.extend hmore, ConstraintsAlike.extend halike.principal hmore⟩

theorem instantiateFirst_accords (n : Nat) (hlike : a.Like words.Knows holes b) :
    Accord holes (fun more result result' => result.2.Like words.Knows more result'.2 ∧
      result.1.length = result'.1.length) (a.instantiateFirst n) fun _ =>
        b.instantiateFirst n := by
  induction n generalizing a b holes with
  | zero => exact accord_pure ⟨hlike, rfl⟩
  | succ n ih =>
    have hwhole := hlike
    cases hlike with
    | generic hpair hbody =>
      refine accord_freshHole.bind fun more hmore _ i j hij => ?_
      refine (ih ((hbody.mono (fun _ _ hloc => hloc) hmore).opened (.hole hij))).bind
        fun all hall _ result result' hresult => accord_pure ⟨hresult.1, ?_⟩
      simp [hresult.2]
    | _ => exact accord_pure ⟨hwhole, rfl⟩

theorem instantiate_accords (hlike : a.Like words.Knows holes b) :
    Accord holes (fun more a b => a.Like words.Knows more b) (a.instantiate loc) fun _ =>
      b.instantiate loc := by
  unfold Ty.instantiate
  rw [Ty.Alike.length_params_eq hlike]
  refine (instantiateFirst_accords _ hlike).bind fun more _ _ result result' hresult => ?_
  obtain ⟨names, body⟩ := result
  obtain ⟨names', body'⟩ := result'
  obtain ⟨hbody, hlength⟩ := hresult
  cases loc with
  | none => exact accord_pure hbody
  | some loc =>
    cases names with
    | nil =>
      obtain rfl := length_eq_zero_iff.mp hlength.symm
      exact accord_pure hbody
    | cons first rest =>
      cases names' with
      | nil => cases hlength
      | cons first' rest' =>
        exact accord_modify_pure (fun _ => rfl) (fun _ => rfl) hbody

theorem nextTypeVariable_accords (words : Vocabulary) (taken taken' : List String) :
    ExceptAccords (fun x y => (x ∉ taken ∧ y ∉ taken') ∧ ¬words.Knows x ∧ ¬words.Knows y)
      (ctx.nextTypeVariable loc taken) (ctx'.nextTypeVariable loc taken') := by
  have hfault {ctx : Context} {taken : List String} (fault : Fault)
      (hrun : ctx.nextTypeVariable loc taken = .error fault) :
      fault.cause = .outOfTypeVariables := by
    unfold nextTypeVariable at hrun
    split at hrun <;> cases hrun
    rfl
  have hletter {ctx : Context} {taken : List String} {x : String}
      (hrun : ctx.nextTypeVariable loc taken = .ok x) : x ∉ taken ∧ ¬words.Knows x := by
    unfold nextTypeVariable at hrun
    split at hrun <;> cases hrun
    rename_i hfree
    obtain ⟨hx, hfresh⟩ := mem_freeTypeVariables (hfree ▸ mem_cons_self)
    exact ⟨hfresh, by simp [Vocabulary.Knows, words.letters x hx]⟩
  exact exceptAccords_of_letters hfault hfault fun x y hx hy =>
    ⟨⟨(hletter hx).1, (hletter hy).1⟩, (hletter hx).2, (hletter hy).2⟩

variable {solve : Context → Term → CheckM Solved} {solve' : Nat → Context → Term → CheckM Solved}
  (hsolve : SolvesAlike words solve solve')
  (hunique : Relator.BiUnique holes) (hpair : Context.Pair words holes ctx ctx')

include hsolve hunique hpair

theorem function_accords (loc : Loc) (hparam : param.all (words.used ·.name))
    (hbody : words.Spells body) :
    Accord holes (InferredAlike words) (Inference.function solve ctx param body loc) fun n =>
      Inference.function (solve' n) ctx' param body loc := by
  cases param with
  | none =>
    refine (hsolve hunique hpair hbody).bind fun more _ _ result result' halike => ?_
    exact accord_pure ⟨.arrow (Vocabulary.like_named (by decide)) halike.type, halike.principal⟩
  | some param =>
    refine accord_freshHole.bind fun fresh hfresh _ i j hij => ?_
    refine ((hpair.extend hfresh).bindName hparam (.hole hij) param.loc).bind
      fun known hknown hunique inside inside' hinside => ?_
    refine (hsolve hunique hinside hbody).bind fun more hmore hunique result result' halike => ?_
    have hij := hmore _ _ (hknown _ _ hij)
    have hsolution := solutionFor_alike hunique halike.principal hij
    generalize solutionFor i result.principal = found at hsolution ⊢
    generalize solutionFor j result'.principal = found' at hsolution ⊢
    cases hsolution with
    | some harg =>
      refine accord_ofStamped_bind fun _ _ => accord_pure ?_
      exact ⟨.arrow harg (halike.type.replaceHole hunique hij harg), halike.principal⟩
    | none =>
      refine accord_ofExcept_bind (nextTypeVariable_accords words _ _) fun x y hletters => ?_
      refine accord_ofStamped_bind fun _ _ => accord_pure ?_
      exact ⟨halike.type.quantified (fun _ => rfl) hunique hij hletters.1.1 hletters.1.2
        hletters.2, halike.principal⟩

theorem ascribedFunction_accords {ascribed : Ty} (loc : Loc)
    (hparam : param.all (words.used ·.name)) (hbody : words.Spells body)
    (hascribed : words.writes ascribed) :
    Accord holes (InferredAlike words)
      (ascribedFunction solve ctx param body ascribed loc) fun n =>
      ascribedFunction (solve' n) ctx' param body ascribed loc := by
  simp only [Vocabulary.writes, Bool.and_eq_true, List.isEmpty_iff, List.all_eq_true,
    decide_eq_true_eq] at hascribed
  obtain ⟨⟨hholes, hnames⟩, hclosed⟩ := hascribed
  unfold ascribedFunction
  rw [hpair.uses.normalize hnames]
  have hnormal : ExceptAccords (fun type type' => type = type' ∧ type.Like words.Knows holes type)
      (ctx.normalize (some loc) ascribed) (ctx.normalize (some loc) ascribed) := by
    refine exceptAccords_same fun type hrun => ⟨rfl, Ty.like_self ?_ ?_⟩
    · have hsubset := mem_holes_normalize hpair.closed hrun
      rw [hholes] at hsubset
      exact List.eq_nil_iff_forall_not_mem.mpr fun i hi => List.not_mem_nil (hsubset i hi)
    · exact closedOver_normalize hpair.declares hclosed hrun
  refine accord_ofExcept_bind hnormal ?_
  rintro type _ ⟨rfl, hlike⟩
  cases type with
  | arrow arg ret =>
    have htype := hlike
    cases hlike with
    | arrow harg hret =>
      dsimp only
      rw [hpair.knownUses.checkIfName (Ty.Like.closedOver harg),
        hpair.knownUses.checkIfName (Ty.Like.closedOver hret)]
      refine accord_ofExcept_bind (R := fun _ _ => True)
        (exceptAccords_same fun _ _ => trivial) fun _ _ _ => ?_
      refine accord_ofExcept_bind (R := fun _ _ => True)
        (exceptAccords_same fun _ _ => trivial) fun _ _ _ => ?_
      cases param with
      | none =>
        refine (hsolve hunique hpair hbody).bind fun more hmore _ _ _ halike => ?_
        exact accord_pure ⟨htype.extend hmore, .cons ⟨halike.type, hret.extend hmore⟩
          (.cons ⟨harg.extend hmore, Vocabulary.like_named (by decide)⟩ halike.principal)⟩
      | some param =>
        dsimp only
        split
        · exact accord_throw ⟨rfl, rfl, by simp⟩
        · refine (hpair.bindName hparam harg param.loc).bind
            fun known hknown hunique _ _ hinside => ?_
          refine (hsolve hunique hinside hbody).bind fun more hmore _ _ _ halike => ?_
          have hall : ∀ i j, holes i j → more i j :=
            fun i j hij => hmore i j (hknown i j hij)
          exact accord_pure ⟨htype.extend hall, .cons ⟨halike.type, hret.extend hall⟩
            halike.principal⟩
  | generic typeParam inner =>
    have hplain : words.Spells (.function param body none loc) := by
      refine ⟨?_, ?_⟩
      · rw [Term.allNames, hparam, hbody.names, Bool.and_self]
      · exact hbody.types
    refine (hsolve hunique hpair hplain).bind fun more hmore _ _ _ halike => ?_
    exact accord_pure ⟨hlike.extend hmore, .cons ⟨halike.type, hlike.extend hmore⟩
      halike.principal⟩
  | _ => exact accord_throw ⟨rfl, rfl, by simp⟩

theorem mapM_accords (helements : ∀ term ∈ elements, words.Spells term) :
    Accord holes (fun more => Forall₂ (SolvedAlike words more)) (elements.mapM (solve ctx))
      fun n => elements.mapM (solve' n ctx') := by
  induction elements generalizing holes with
  | nil => exact accord_pure .nil
  | cons first rest ih =>
    rw [forall_mem_cons] at helements
    simp only [mapM_cons]
    refine (hsolve hunique hpair helements.1).bind fun more hmore hunique _ _ hfirst => ?_
    refine (ih hunique (hpair.extend hmore) helements.2).bind fun all hall _ _ _ hrest => ?_
    exact accord_pure (.cons (hfirst.extend hall) hrest)

theorem application_accords {func arg : Term} (loc : Loc) (hfunc : words.Spells func)
    (harg : words.Spells arg) :
    Accord holes (InferredAlike words) (step solve ctx (.application func arg loc)) fun n =>
      step (solve' n) ctx' (.application func arg loc) := by
  refine (hsolve hunique hpair hfunc).bind fun first hfirst hunique fn fn' hfn => ?_
  refine (hsolve hunique (hpair.extend hfirst) harg).bind fun second hsecond _ a a' ha => ?_
  refine accord_freshHole.bind fun third hthird _ ret ret' hret => ?_
  have hfn := (hfn.extend hsecond).extend hthird
  have ha := ha.extend hthird
  refine (instantiate_accords hfn.type).bind fun more hmore _ type type' htype => ?_
  refine accord_ofStamped_bind fun _ _ => accord_pure ?_
  have hret := hmore _ _ hret
  have hfn := hfn.extend hmore
  have ha := ha.extend hmore
  exact ⟨.hole hret, rel_append (.cons ⟨htype, .arrow ha.type (.hole hret)⟩ hfn.principal)
    ha.principal⟩

theorem conditional_accords {condition consequence alternative : Term} (loc : Loc)
    (hcondition : words.Spells condition) (hconsequence : words.Spells consequence)
    (halternative : words.Spells alternative) :
    Accord holes (InferredAlike words)
      (step solve ctx (.conditional condition consequence alternative loc)) fun n =>
      step (solve' n) ctx' (.conditional condition consequence alternative loc) := by
  refine (hsolve hunique hpair hcondition).bind fun first hfirst hunique c c' hc => ?_
  have hpair := hpair.extend hfirst
  refine (hsolve hunique hpair hconsequence).bind fun second hsecond hunique a a' ha => ?_
  have hpair := hpair.extend hsecond
  refine (hsolve hunique hpair halternative).bind fun more hmore _ b b' hb => ?_
  have hc := (hc.extend hsecond).extend hmore
  have ha := ha.extend hmore
  refine accord_ofStamped_bind fun _ _ => accord_pure ⟨hb.type, ?_⟩
  exact rel_append (rel_append (.cons ⟨hc.type, Vocabulary.like_named (by decide)⟩
    (.cons ⟨ha.type, hb.type⟩ hc.principal)) ha.principal) hb.principal

theorem letIn_accords {name : String} (nameLoc loc : Loc) (hname : words.used name)
    (hvalue : words.Spells value) (hbody : words.Spells body) :
    Accord holes (InferredAlike words)
      (step solve ctx (.letIn name value body nameLoc loc)) fun n =>
      step (solve' n) ctx' (.letIn name value body nameLoc loc) := by
  simp only [step]
  split
  · rw [hpair.uses.checkBindable hname]
    refine accord_ofExcept_bind (R := fun _ _ => True) (exceptAccords_same fun _ _ => trivial)
      fun _ _ _ => ?_
    refine (hsolve hunique hpair (hbody.replace hvalue)).bind
      fun first hfirst hunique result result' hresult => ?_
    refine (hsolve hunique (hpair.extend hfirst) hvalue).bind
      fun more hmore _ bound bound' hbound => ?_
    refine accord_ofStamped_bind fun _ _ => accord_pure ?_
    have hresult := hresult.extend hmore
    exact ⟨hresult.type, rel_append hresult.principal hbound.principal⟩
  · refine (hsolve hunique hpair hvalue).bind fun first hfirst hunique bound bound' hbound => ?_
    refine (instantiate_accords (hbound.type.applying hunique hbound.principal)).bind
      fun second hsecond _ single single' hsingle => ?_
    refine (((hpair.extend hfirst).extend hsecond).bindName hname hsingle nameLoc).bind
      fun third hthird hunique inside inside' hinside => ?_
    refine (hsolve hunique hinside hbody).bind fun more hmore _ result result' hresult => ?_
    refine accord_ofStamped_bind fun _ _ => accord_pure ?_
    have hbound := ((hbound.extend hsecond).extend hthird).extend hmore
    exact ⟨hresult.type, rel_append hbound.principal hresult.principal⟩

/-- A record is extended by a field once it is known to lack it. -/
theorem extension_accords {base base' : Solved} (hvalue : words.Spells value)
    (hbase : SolvedAlike words holes base base') :
    Accord holes (InferredAlike words) (extended solve ctx key value base) fun n =>
      extended (solve' n) ctx' key value base' := by
  refine (hsolve hunique hpair hvalue).bind fun first hfirst _ val val' hval => ?_
  refine accord_freshHole.bind fun second hsecond _ a a' ha => ?_
  refine accord_freshHole.bind fun more hmore _ r r' hr => ?_
  refine accord_ofStamped_bind fun _ _ => accord_pure ?_
  have hbase := ((hbase.extend hfirst).extend hsecond).extend hmore
  have hval := (hval.extend hsecond).extend hmore
  have ha := hmore _ _ ha
  exact ⟨.record (.field (.hole ha) (.hole hr)), .cons ⟨.hole ha, hval.type⟩
    (.cons ⟨.record (.hole hr), hbase.type⟩ (rel_append hval.principal hbase.principal))⟩

theorem recordExtend_accords (loc : Loc) (hvalue : words.Spells value)
    (hrecord : words.Spells record) :
    Accord holes (InferredAlike words)
      (step solve ctx (.recordExtend key value record loc)) fun n =>
      step (solve' n) ctx' (.recordExtend key value record loc) := by
  simp only [step_recordExtend]
  refine (hsolve hunique hpair hrecord).bind fun first hfirst hunique known known' hknown => ?_
  have hpair := hpair.extend hfirst
  rw [(hknown.type.applying hunique hknown.principal).hasField_eq key]
  split
  · have hrestrict : words.Spells (.recordRestrict key record loc) := ⟨hrecord.names, hrecord.types⟩
    refine (hsolve hunique hpair hrestrict).bind fun second hsecond hunique base base' hbase => ?_
    exact extension_accords hsolve hunique (hpair.extend hsecond) hvalue hbase
  · exact extension_accords hsolve hunique hpair hvalue hknown

omit hunique in
theorem array_accords (loc : Loc) (helements : ∀ term ∈ elements, words.Spells term) :
    Accord holes (InferredAlike words) (step solve ctx (.array elements loc)) fun n =>
      step (solve' n) ctx' (.array elements loc) := by
  refine accord_freshHole.bind fun first hfirst hunique element element' helement => ?_
  refine (mapM_accords hsolve hunique (hpair.extend hfirst) helements).bind
    fun more hmore _ solved solved' hsolved => ?_
  refine accord_ofStamped_bind fun _ _ => accord_pure ?_
  have helement := hmore _ _ helement
  refine ⟨.app (Vocabulary.like_named (by decide)) (.hole helement) rfl, rel_append ?_ ?_⟩
  · refine rel_map (fun s s' hs => ?_) hsolved
    exact ⟨.hole helement, hs.type⟩
  · exact rel_flatMap hsolved fun s s' hs => hs.principal

theorem step_accords {term : Term} (hterm : words.Spells term) :
    Accord holes (InferredAlike words) (Inference.step solve ctx term) fun n =>
      Inference.step (solve' n) ctx' term := by
  obtain ⟨hnames, htypes⟩ := hterm
  cases term with
  | reference name loc =>
    refine accord_ofExcept_bind (hpair.values name (some loc) hnames) fun _ _ hlike => ?_
    exact accord_pure ⟨hlike, .nil⟩
  | boolean | number | string | unit =>
    exact accord_pure ⟨Vocabulary.like_named (by decide), .nil⟩
  | emptyRecord => exact accord_pure ⟨.record .emptyRow, .nil⟩
  | function param body ascribed loc =>
    simp only [Term.allNames, Term.allFunctions, and_eq_true] at hnames htypes
    cases ascribed with
    | none =>
      exact function_accords hsolve hunique hpair loc hnames.1 ⟨hnames.2, htypes.2⟩
    | some ascribed =>
      exact ascribedFunction_accords hsolve hunique hpair loc hnames.1 ⟨hnames.2, htypes.2⟩
        htypes.1
  | application func arg loc =>
    simp only [Term.allNames, Term.allFunctions, and_eq_true] at hnames htypes
    exact application_accords hsolve hunique hpair loc ⟨hnames.1, htypes.1⟩ ⟨hnames.2, htypes.2⟩
  | conditional condition consequence alternative loc =>
    simp only [Term.allNames, Term.allFunctions, and_eq_true] at hnames htypes
    exact conditional_accords hsolve hunique hpair loc ⟨hnames.1.1, htypes.1.1⟩
      ⟨hnames.1.2, htypes.1.2⟩ ⟨hnames.2, htypes.2⟩
  | letIn name value body nameLoc loc =>
    simp only [Term.allNames, Term.allFunctions, and_eq_true] at hnames htypes
    exact letIn_accords hsolve hunique hpair nameLoc loc hnames.1.1 ⟨hnames.1.2, htypes.1⟩
      ⟨hnames.2, htypes.2⟩
  | recordExtend key value record loc =>
    simp only [Term.allNames, Term.allFunctions, and_eq_true] at hnames htypes
    exact recordExtend_accords hsolve hunique hpair loc ⟨hnames.1, htypes.1⟩ ⟨hnames.2, htypes.2⟩
  | recordRestrict key record loc | fieldAccess key record loc =>
    have hrecord : words.Spells record := ⟨hnames, htypes⟩
    refine (hsolve hunique hpair hrecord).bind fun first hfirst _ base base' hbase => ?_
    refine accord_freshHole.bind fun second hsecond _ a a' ha => ?_
    refine accord_freshHole.bind fun more hmore _ r r' hr => accord_pure ⟨?_, ?_⟩
    · first
      | exact .record (.hole hr)
      | exact .hole (hmore _ _ ha)
    · have hbase := (hbase.extend hsecond).extend hmore
      exact .cons ⟨.record (.field (.hole (hmore _ _ ha)) (.hole hr)), hbase.type⟩ hbase.principal
  | array elements loc =>
    rw [Term.allNames, Term.allNamesIn_iff] at hnames
    rw [Term.allFunctions, Term.allFunctionsIn_iff] at htypes
    exact array_accords hsolve hpair loc fun term hterm =>
      ⟨hnames term hterm, htypes term hterm⟩

end Steps

/-- Terms are solved alike in contexts in which their names mean the same. -/
theorem solve_accords (words : Vocabulary) (fuel : Nat) :
    SolvesAlike words (solve fuel) solve := by
  induction fuel with
  | zero => exact fun _ _ _ _ _ _ _ _ _ _ => .inl (.inl rfl)
  | succ fuel ih =>
    intro holes ctx ctx' term hunique hpair hterm
    refine Accord.succ ?_ fun _ => rfl
    refine (step_accords ih hunique hpair hterm).bind
      fun first hfirst hunique inferred inferred' hinferred => ?_
    refine (unify_accords hpair.knownUses hpair.closed hunique hinferred.constraints).later.bind
      fun more hmore _ principal principal' hprincipal => accord_pure ?_
    exact ⟨hinferred.type.extend hmore, hprincipal⟩

end RowScript
