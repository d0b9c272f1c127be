import RowScript.Checker.Commands
import RowScript.Proofs.InnerContexts
import RowScript.Proofs.Minting
import RowScript.Proofs.WrittenTypes

/-!
# Checked commands leave no placeholders

While a command is checked, placeholders get into types everywhere. When the command is done they
are gone: generalization gives every placeholder that it can reach a name, and it reaches all of
them.
-/

namespace RowScript

open Context CheckM Naming List Checker

open Context (Heap Grown Fits SettledInside Settles Meets)

section Naming

variable {naming : Naming} {types : List Ty} {free : List String} {loc : Option Loc} {ty : Ty}

theorem Naming.exists_name_of_ofTypes (hrun : ofTypes types free loc = .ok naming)
    (hty : ty ∈ types) {id : Nat} (hid : id ∈ ty.holes) : ∃ name, naming.lookup id = some name := by
  simp only [ofTypes] at hrun
  split at hrun
  · cases hrun
  · rename_i henough
    cases hrun
    have hmem : id ∈ (types.flatMap Ty.holes).eraseDups :=
      mem_eraseDups.mpr (mem_flatMap.mpr ⟨ty, hty, hid⟩)
    rw [← map_fst_zip (Nat.le_of_not_lt henough)] at hmem
    obtain ⟨named, hnamed, rfl⟩ := mem_map.mp hmem
    refine Option.ne_none_iff_exists'.mp fun hnone => ?_
    simpa using lookup_eq_none_iff.mp hnone named hnamed

theorem Ty.holes_withNames (hnames : ∀ id ∈ ty.holes, ∃ name, naming.lookup id = some name) :
    (ty.withNames naming).holes = [] := by
  refine eq_nil_iff_forall_not_mem.mpr fun id hid => ?_
  obtain ⟨j, hj, hid⟩ := Ty.mem_holes_bindHoles.mp hid
  obtain ⟨name, hname⟩ := hnames j hj
  simp [hname, Ty.named, Ty.holes] at hid

theorem Ty.holes_quantify : (ty.quantify naming).holes = ty.holes := by
  induction naming generalizing ty with
  | nil => rfl
  | cons first rest ih => exact ih

theorem Naming.declare_eq_append (naming : Naming) (ctx : Context) (stamp : Nat) :
    ∃ added, (naming.declare ctx stamp).1 = added ++ ctx ∧
      ∀ entry ∈ added, entry.binding = .typeParameter := by
  induction naming generalizing ctx stamp with
  | nil => exact ⟨[], rfl, by simp⟩
  | cons first rest ih =>
    obtain ⟨added, hctx, hadded⟩ := ih (⟨stamp, first.2, .typeParameter⟩ :: ctx) (stamp + 1)
    refine ⟨added ++ [⟨stamp, first.2, .typeParameter⟩], ?_, ?_⟩
    · rw [append_assoc]
      exact hctx
    · simpa [or_imp, forall_and] using hadded

variable {added ctx : Context}

theorem Context.meets_of_append (hadded : ∀ entry ∈ added, entry.binding = .typeParameter)
    (hmeets : Meets (added ++ ctx) ty) : Meets ctx ty := by
  induction added with
  | nil => exact hmeets
  | cons entry rest ih =>
    obtain ⟨hentry, hrest⟩ := forall_mem_cons.mp hadded
    cases hmeets with
    | here _ htype => simp [hentry, Binding.type?] at htype
    | inner _ hinner _ => simp [hentry, Binding.inner?] at hinner
    | older hmeets => exact ih hrest hmeets

theorem Context.isSettled_append (hadded : ∀ entry ∈ added, entry.binding = .typeParameter)
    (hctx : ctx.isSettled) : isSettled (added ++ ctx) := by
  induction added with
  | nil => exact hctx
  | cons entry rest ih =>
    obtain ⟨hentry, hrest⟩ := forall_mem_cons.mp hadded
    exact isSettled_cons.mpr ⟨hentry ▸ settledInside_typeParameter, ih hrest⟩

/-- Naming settles a type without placeholders, and one whose placeholders have names
once it is resolved. -/
theorem Naming.settles_rename? {assignment : Assignment}
    (hnames : ty.holes = [] ∨
      ∀ id ∈ (assignment.resolve ty).holes, ∃ name, naming.lookup id = some name) :
    Settles (naming.rename? assignment) ty := by
  by_cases hclosed : ty.holes = []
  · simp [Settles, rename?, mapped, hclosed]
  · have hholes := Ty.holes_withNames (hnames.resolve_left hclosed)
    simpa [Settles, rename?, mapped, hclosed] using hholes

theorem Context.Heap.nameContext {start : Option Nat} {next : Nat} {S : Context → Prop}
    {assignment : Assignment}
    (hheap : Heap start next S) (hctx : S ctx) (own others : Naming)
    (hsettles : ∀ ty, Meets ctx ty → Settles (naming.rename? assignment) ty) :
    Grown start S (nameContext own others naming assignment ctx next).2 fun T =>
      T (nameContext own others naming assignment ctx next).1 ∧
        (start.isSome →
          (nameContext own others naming assignment ctx next).1.isSettled) := by
  refine (hheap.declare own hctx).trans fun T hT _ hdeclared => ?_
  obtain ⟨added, heq, hadded⟩ := own.declare_eq_append ctx next
  have hmapped := hT.mapTypes hdeclared (start.isSome = true) id fun _ ty hmeets =>
    hsettles ty (meets_of_append hadded (heq ▸ hmeets))
  refine hmapped.trans fun T' hT' _ himage => ?_
  refine (hT'.declare others himage.mem).trans fun T'' hT'' _ hresult =>
    hT''.grown ⟨hresult, fun hstart => ?_⟩
  obtain ⟨added', heq', hadded'⟩ := others.declare_eq_append
    ((own.declare ctx next).1.mapTypes (naming.rename? assignment) (own.declare ctx next).2).1
    ((own.declare ctx next).1.mapTypes (naming.rename? assignment) (own.declare ctx next).2).2
  have hsettled := isSettled_append hadded' (himage.settled hstart)
  rw [← heq'] at hsettled
  exact hsettled

end Naming

section Generalize

variable {solved : List Constraint} {ty : Ty} {ctx : Context} {loc : Option Loc}
  {start : Option Nat} {stamp stamp' : Nat} {result : Generalized} {S : Context → Prop}

theorem generalize_eq_ok (hrun : generalize solved ty ctx loc stamp = .ok (result, stamp')) :
    ∃ own others,
      let assignment := Assignment.ofConstraints solved
      let resolved := assignment.resolve ty
      ofTypes (resolved :: ctx.reachableTypes.map assignment.resolve)
        (ctx.freeTypeVariables resolved.names) loc = .ok result.naming ∧
      result.type = (resolved.withNames result.naming).quantify own ∧
      nameContext own others result.naming assignment ctx stamp = (result.ctx, stamp') := by
  rw [generalize_eq_bind, Except.bind_eq_ok] at hrun
  obtain ⟨naming, hnaming, hrun⟩ := hrun
  cases hrun
  exact ⟨_, _, hnaming, rfl, rfl⟩

/-- What is generalized has no placeholders, neither in its type nor in its context. -/
theorem generalize_settled (hrun : generalize solved ty ctx loc stamp = .ok (result, stamp'))
    (hheap : Heap start stamp S) (hctx : S ctx) :
    result.type.holes = [] ∧
      Grown start S stamp' fun T =>
        T result.ctx ∧ (start.isSome → result.ctx.isSettled) := by
  obtain ⟨own, others, hnaming, htype, hnamed⟩ := generalize_eq_ok hrun
  constructor
  · rw [htype, Ty.holes_quantify]
    exact Ty.holes_withNames fun id hid =>
      exists_name_of_ofTypes hnaming mem_cons_self hid
  · -- what is not collected has no placeholders, and naming leaves it alone
    have hsettles : ∀ ty, Meets ctx ty →
        Settles (result.naming.rename? (Assignment.ofConstraints solved)) ty := by
      refine hheap.of_reachableTypes hctx (fun _ hclosed => settles_rename? (.inl hclosed))
        fun found hfound => settles_rename? (.inr fun id hid => ?_)
      exact exists_name_of_ofTypes hnaming
        (mem_cons_of_mem _ (mem_map_of_mem hfound)) hid
    have hgrown := hheap.nameContext hctx own others hsettles
    rwa [hnamed] at hgrown

end Generalize

/-- A checker remembers no placeholders: not in the instantiations that it logged, and
not in the contexts of the expressions it checked. -/
def Checker.isSettled (checker : Checker) : Bool :=
  checker.instantiations.all (fun use => use.2.all (·.2.holes.isEmpty)) &&
    checker.evaluated.all (·.2.isSettled)

theorem Checker.isSettled_congr {checker other : Checker}
    (hsame : other.remembered = checker.remembered) : other.isSettled = checker.isSettled := by
  obtain ⟨hinstantiations, hevaluated⟩ := Prod.mk.inj hsame
  rw [isSettled, hinstantiations, hevaluated, isSettled]

theorem all_setKey {κ ν : Type} [DecidableEq κ] {p : ν → Bool} {table : List (κ × ν)} {key : κ}
    {value : ν} (htable : table.all (p ·.2)) (hvalue : p value) :
    (setKey key value table).all (p ·.2) := by
  rw [all_eq_true] at htable ⊢
  intro entry hentry
  rcases mem_cons.mp hentry with rfl | hentry
  · exact hvalue
  · exact htable entry (mem_filter.mp hentry).1

theorem foldlM_keeps {α β : Type} {f : β → α → Option β} {P : β → Prop}
    (hstep : ∀ a b b', P b → f b a = some b' → P b') {items : List α} {b b' : β} (hb : P b)
    (hrun : items.foldlM f b = some b') : P b' := by
  induction items generalizing b with
  | nil =>
    cases hrun
    exact hb
  | cons item rest ih =>
    simp only [foldlM_cons, Option.bind_eq_bind, Option.bind_eq_some_iff] at hrun
    obtain ⟨middle, hfirst, hrun⟩ := hrun
    exact ih (hstep item b middle hb hfirst) hrun

theorem Checker.all_instanceTypes? {assignment names : Assignment} {use : Instance}
    {types : List (String × Ty)} (hrun : instanceTypes? assignment names use = some types) :
    types.all (·.2.holes.isEmpty) := by
  refine foldlM_keeps (P := fun types : List (String × Ty) => types.all (·.2.holes.isEmpty) = true)
    (fun hole logged logged' hlogged hstep => ?_) rfl hrun
  simp only at hstep
  split at hstep
  · rename_i hclosed
    cases hstep
    exact all_setKey (p := fun type : Ty => type.holes.isEmpty) hlogged hclosed
  · cases hstep

theorem Checker.isSettled_recordInstances {checker : Checker} {principal : List Constraint}
    {naming : Naming} (hchecker : checker.isSettled) :
    (checker.recordInstances principal naming).isSettled := by
  rw [isSettled, Bool.and_eq_true] at hchecker ⊢
  refine ⟨?_, hchecker.2⟩
  refine foldlRecOn (motive := fun table : List (Loc × List (String × Ty)) =>
    table.all (fun use => use.2.all (·.2.holes.isEmpty)) = true) _ _ hchecker.1 ?_
  intro table htable use _
  split
  · rename_i types htypes
    exact all_setKey (p := fun types : List (String × Ty) => types.all (·.2.holes.isEmpty)) htable
      (all_instanceTypes? htypes)
  · exact htable

/-- Between commands: neither the context nor what is remembered has placeholders, and
the stamps of the context were drawn. -/
structure AtRest (ctx : Context) (checker : Checker) : Prop where
  context : ctx.isSettled
  stamps : ctx.stampsBelow checker.stamp
  remembered : checker.isSettled

/-- No type that is written in a binding has a placeholder. -/
def Binding.isClosed : Binding → Bool
  | .typed type _ _ | .typeAlias type _ _ => type.holes.isEmpty
  | .defined term _ _ _ _ => term.isClosed
  | .typeParameter => true

/-- No type that is written in a command has a placeholder. -/
def Command.isClosed : Command → Bool
  | .evaluate term _ => term.isClosed
  | .bind _ binding _ => binding.isClosed

section Commands

variable {fuel : Nat} {ctx ctx' : Context} {checker final : Checker} {term : Term}
  {result : Generalized} {binding new : Binding} {loc : Option Loc} {command : Command}
  {commands rest : List Command}

theorem checkTerm_eq_ok (hrun : checkTerm fuel ctx term checker = .ok result final) :
    ∃ solved middle stamp, solve fuel ctx term checker = .ok solved middle ∧
      generalize solved.principal solved.type solved.inner (some term.loc) middle.stamp =
        .ok (result, stamp) ∧
      final = Checker.recordInstances solved.principal result.naming { middle with stamp } := by
  simp only [checkTerm, CheckM.generalize, CheckM.bind_eq_ok, CheckM.get_eq_ok,
    CheckM.ofExcept_eq_ok, CheckM.modify_eq_ok, CheckM.pure_eq_ok] at hrun
  obtain ⟨solved, middle, hsolved, _, _, ⟨_, _, ⟨rfl, rfl⟩, ⟨generalized, stamp⟩, _,
    ⟨hgeneralize, rfl⟩, _, _, rfl, rfl, rfl⟩, _, _, rfl, rfl, rfl⟩ := hrun
  exact ⟨solved, middle, stamp, hsolved, hgeneralize, rfl⟩

/-- What a name stands for once it is checked. -/
inductive CheckedBinding (fuel : Nat) (ctx : Context) (loc : Option Loc) (checker : Checker) :
    Binding → Binding → Checker → Prop where
  | defined {term : Term} {type : Option Ty} {nameLoc : Loc} {inner : Option Context}
      {isGlobal : Bool} {result : Generalized} {final : Checker}
      (hterm : checkTerm fuel ctx term checker = .ok result final) :
      CheckedBinding fuel ctx loc checker (.defined term type nameLoc inner isGlobal)
        (.defined term (some result.type) nameLoc (some result.ctx) isGlobal) final
  | typed {type normal : Ty} {nameLoc : Loc} {isGlobal : Bool}
      (htype : ctx.normalize loc type = .ok normal) :
      CheckedBinding fuel ctx loc checker (.typed type nameLoc isGlobal)
        (.typed normal nameLoc isGlobal) checker
  | typeAlias {type normal : Ty} {nameLoc : Loc} {isGlobal : Bool}
      (htype : ctx.normalize loc type = .ok normal) :
      CheckedBinding fuel ctx loc checker (.typeAlias type nameLoc isGlobal)
        (.typeAlias normal nameLoc isGlobal) checker
  | typeParameter : CheckedBinding fuel ctx loc checker .typeParameter .typeParameter checker

theorem checkedBinding_of_ok (hrun : checkBinding fuel ctx binding loc checker = .ok new final) :
    CheckedBinding fuel ctx loc checker binding new final := by
  cases binding with
  | defined =>
    simp only [checkBinding, bind_eq_ok, pure_eq_ok] at hrun
    obtain ⟨result, _, hterm, rfl, rfl⟩ := hrun
    exact .defined hterm
  | typed =>
    simp only [checkBinding, bind_eq_ok, ofExcept_eq_ok, pure_eq_ok] at hrun
    obtain ⟨normal, _, ⟨htype, rfl⟩, rfl, rfl⟩ := hrun
    exact .typed htype
  | typeAlias =>
    simp only [checkBinding, bind_eq_ok, ofExcept_eq_ok, pure_eq_ok] at hrun
    obtain ⟨normal, _, ⟨htype, rfl⟩, rfl, rfl⟩ := hrun
    exact .typeAlias htype
  | typeParameter =>
    obtain ⟨rfl, rfl⟩ := pure_eq_ok.mp hrun
    exact .typeParameter

/-- What is left behind once a command is checked. -/
inductive CheckedCommand (fuel : Nat) (ctx : Context) (checker : Checker) :
    Command → Context → Checker → Prop where
  | evaluate {term : Term} {loc : Loc} {result : Generalized} {middle : Checker}
      (hterm : checkTerm fuel ctx term { checker with instances := [] } = .ok result middle) :
      CheckedCommand fuel ctx checker (.evaluate term loc) ctx
        { middle with evaluated := setKey loc result.ctx middle.evaluated }
  | bind {name : String} {binding new : Binding} {loc : Loc} {middle : Checker}
      (hbinding : checkBinding fuel ctx binding (some loc) { checker with instances := [] } =
        .ok new middle)
      (hname : ctx.find? name = none) :
      CheckedCommand fuel ctx checker (.bind name binding loc) (⟨middle.stamp, name, new⟩ :: ctx)
        { middle with stamp := middle.stamp + 1 }

theorem checkedCommand_of_ok (hrun : checkCommand fuel ctx command checker = .ok ctx' final) :
    CheckedCommand fuel ctx checker command ctx' final := by
  simp only [checkCommand, bind_eq_ok, modify_eq_ok] at hrun
  obtain ⟨_, _, rfl, hrun⟩ := hrun
  cases command with
  | evaluate =>
    simp only [bind_eq_ok, modify_eq_ok, pure_eq_ok] at hrun
    obtain ⟨result, middle, hterm, _, _, rfl, rfl, rfl⟩ := hrun
    exact .evaluate hterm
  | bind =>
    simp only [bind_eq_ok, bindName_eq_ok] at hrun
    obtain ⟨new, middle, hbinding, hbindable, rfl, rfl⟩ := hrun
    exact .bind hbinding (find?_eq_none_of_checkBindable hbindable)

/-- What each command preserves, the commands together preserve. -/
theorem checkCommands_induction {P : Context → Checker → Prop}
    (hstep : ∀ command ∈ commands, ∀ ⦃ctx checker ctx' final⦄, P ctx checker → checkCommand fuel ctx
      command checker = .ok ctx' final → P ctx' final) (hstart : P ctx checker)
    (hrun : checkCommands fuel ctx commands checker = .ok ctx' final) : P ctx' final := by
  induction commands generalizing ctx checker with
  | nil =>
    obtain ⟨rfl, rfl⟩ := pure_eq_ok.mp hrun
    exact hstart
  | cons command rest ih =>
    rw [forall_mem_cons] at hstep
    simp only [checkCommands, foldlM_cons, bind_eq_ok] at hrun
    obtain ⟨middleCtx, middle, hfirst, hrun⟩ := hrun
    exact ih hstep.2 (hstep.1 hstart hfirst) hrun

/-- A term that is checked gets a type and a context without placeholders. -/
theorem checkTerm_settled (hrest : AtRest ctx checker) (hterm : term.isClosed)
    (hrun : checkTerm fuel ctx term checker = .ok result final) :
    result.type.holes = [] ∧ result.ctx.isSettled ∧ final.isSettled ∧
      ∃ T, Heap (some checker.stamp) final.stamp T ∧ T ctx ∧ T result.ctx := by
  obtain ⟨solved, middle, stamp, hsolved, hgeneralize, rfl⟩ := checkTerm_eq_ok hrun
  -- all settled contexts belong to the heap at the start, and none is dropped from it
  obtain ⟨hremembered, -, T, hT, hle, hinner⟩ := solvesInHeap_solve fuel hsolved (fun _ => hterm)
    (Heap.initial checker.stamp) ⟨hrest.context, hrest.stamps⟩
  obtain ⟨htype, T', hT', hle', hresult, hsettled⟩ :=
    generalize_settled hgeneralize hT hinner.mem
  refine ⟨htype, hsettled rfl, isSettled_recordInstances ?_, T', hT',
    hle' _ (hle _ ⟨hrest.context, hrest.stamps⟩), hresult⟩
  exact (isSettled_congr hremembered).trans hrest.remembered

theorem Context.isClosed_of_isSettled (hctx : ctx.isSettled) :
    (Ty.Convention.ofContext ctx).IsClosed := by
  intro name type hname
  obtain ⟨_, _, hfind⟩ := exists_find?_of_alias? hname
  obtain ⟨entry, hentry, hbinding⟩ := exists_mem_of_find? hfind
  exact (settledInside_of_mem hctx hentry).holes_of_type (by rw [hbinding]; rfl)

/-- A declared type is settled if it was written without placeholders. -/
theorem AtRest.holes_normalize {type normalized : Ty} (hrest : AtRest ctx checker)
    (htype : type.holes.isEmpty) (hrun : ctx.normalize loc type = .ok normalized) :
    normalized.holes = [] := by
  have hholes := mem_holes_normalize (isClosed_of_isSettled hrest.context) hrun
  rw [isEmpty_iff.mp htype] at hholes
  exact eq_nil_iff_forall_not_mem.mpr fun i hi => not_mem_nil (hholes i hi)

/-- What a name is to stand for is settled once it is checked. -/
theorem checkBinding_settled (hrest : AtRest ctx checker) (hbinding : binding.isClosed)
    (hrun : checkBinding fuel ctx binding loc checker = .ok new final) :
    SettledInside new ∧ final.isSettled ∧
      ∃ T, Heap (some checker.stamp) final.stamp T ∧ T ctx ∧ Fits (some checker.stamp) T new := by
  have hctx := And.intro hrest.context hrest.stamps
  cases checkedBinding_of_ok hrun with
  | @defined _ _ nameLoc _ isGlobal result _ hterm =>
    obtain ⟨htype, hsettled, hchecker, T, hT, hctx, hresult⟩ :=
      checkTerm_settled hrest hbinding hterm
    have hnew : SettledInside (.defined _ _ nameLoc (some result.ctx) isGlobal) :=
      settledInside_defined hbinding htype fun _ hinner =>
        Option.some.inj hinner ▸ hsettled
    exact ⟨hnew, hchecker, T, hT, hctx, fits_of_settledInside hnew fun _ hinner =>
      Option.some.inj hinner ▸ hresult⟩
  | @typed _ _ nameLoc isGlobal htype =>
    have hnew : SettledInside (.typed _ nameLoc isGlobal) :=
      settledInside_typed (hrest.holes_normalize hbinding htype)
    exact ⟨hnew, hrest.remembered, _, Heap.initial _, hctx,
      fits_of_settledInside hnew fun _ hinner => by cases hinner⟩
  | @typeAlias _ _ nameLoc isGlobal htype =>
    have hnew : SettledInside (.typeAlias _ nameLoc isGlobal) :=
      settledInside_typeAlias (hrest.holes_normalize hbinding htype)
    exact ⟨hnew, hrest.remembered, _, Heap.initial _, hctx,
      fits_of_settledInside hnew fun _ hinner => by cases hinner⟩
  | typeParameter =>
    exact ⟨settledInside_typeParameter, hrest.remembered, _, Heap.initial _, hctx,
      fits_typeParameter⟩

theorem checkCommand_atRest (hrest : AtRest ctx checker) (hcommand : command.isClosed)
    (hrun : checkCommand fuel ctx command checker = .ok ctx' final) : AtRest ctx' final := by
  have hcleared : AtRest ctx { checker with instances := [] } :=
    ⟨hrest.context, hrest.stamps, hrest.remembered⟩
  cases checkedCommand_of_ok hrun with
  | evaluate hterm =>
    obtain ⟨-, hsettled, hchecker, T, hT, hctx, -⟩ := checkTerm_settled hcleared hcommand hterm
    refine ⟨hrest.context, hT.stampsBelow ctx hctx, ?_⟩
    rw [Checker.isSettled, Bool.and_eq_true] at hchecker ⊢
    exact ⟨hchecker.1, all_setKey (p := fun ctx : Context => ctx.isSettled) hchecker.2 hsettled⟩
  | @bind name _ _ _ _ hbinding _ =>
    obtain ⟨hnew, hchecker, T, hT, hctx, hfits⟩ := checkBinding_settled hcleared hcommand hbinding
    obtain ⟨T', hT', -, hextended⟩ := hT.push name hctx hfits
    refine ⟨isSettled_cons.mpr ⟨hnew, hrest.context⟩, ?_, hchecker⟩
    exact hT'.stampsBelow _ hextended

theorem checkCommands_cons_ok {next : Context} {middle : Checker}
    (hfirst : checkCommand fuel ctx command checker = .ok next middle) :
    checkCommands fuel ctx (command :: rest) checker = checkCommands fuel next rest middle := by
  show EStateM.bind (checkCommand fuel ctx command) _ checker = _
  unfold EStateM.bind
  rw [hfirst]
  rfl

theorem checkCommands_cons_error {fault : Fault}
    (hfirst : checkCommand fuel ctx command checker = .error fault final) :
    checkCommands fuel ctx (command :: rest) checker = .error fault final := by
  show EStateM.bind (checkCommand fuel ctx command) _ checker = _
  unfold EStateM.bind
  rw [hfirst]

theorem checkCommands_atRest (hrest : AtRest ctx checker)
    (hcommands : ∀ command ∈ commands, command.isClosed)
    (hrun : checkCommands fuel ctx commands checker = .ok ctx' final) : AtRest ctx' final :=
  checkCommands_induction (fun command hcommand _ _ _ _ hrest hfirst =>
    checkCommand_atRest hrest (hcommands command hcommand) hfirst) hrest hrun

/-- No placeholder outlives the commands that it was made for. If there is none in the
context at the start, in what the checker remembers and in what the commands say, then
there is none in the context at the end, in the log of instantiations and in the
contexts of checked expressions, at any depth, and all defined values have types. The
stamps of the context are those of the checker again, so more commands may follow. -/
theorem checkCommands_settled {commands : List Command} (hctx : ctx.isSettled = true)
    (hstamps : ctx.stampsBelow checker.stamp = true) (hchecker : checker.isSettled = true)
    (hcommands : ∀ command ∈ commands, command.isClosed = true)
    (hrun : checkCommands fuel ctx commands checker = .ok ctx' final) :
    ctx'.isSettled = true ∧ final.isSettled = true ∧ ctx'.stampsBelow final.stamp = true := by
  have hrest := checkCommands_atRest ⟨hctx, hstamps, hchecker⟩ hcommands hrun
  exact ⟨hrest.context, hrest.remembered, hrest.stamps⟩

end Commands

/-- Two declared types, as they stand before a script is checked. -/
def keepContext : Context :=
  [⟨1, "()", .typeAlias (.record .emptyRow none) .synthetic true⟩,
    ⟨0, "Number", .typeAlias (.record .emptyRow (some "Number")) .synthetic true⟩]

/-- The function `keep` is used on a number. It has a local function, whose context is
kept inside and binds the parameter of `keep` to a placeholder while it is inferred. -/
def keepScript : List Command :=
  let at_ : Loc := .synthetic
  let same : Term := .function (some ⟨"y", at_⟩) (.reference "y" at_) none at_
  let kept : Term := .application (.reference "same" at_) (.reference "x" at_) at_
  let keep : Term := .function (some ⟨"x", at_⟩)
    (.letIn "same" same (.recordExtend "kept" kept (.emptyRecord at_) at_) at_ at_) none at_
  [.bind "keep" (.defined keep none at_ none false) at_,
    .evaluate (.application (.reference "keep" at_) (.number at_) at_) at_]

/-- The script is checked, something is remembered of it, and nothing has a placeholder. -/
theorem checkCommands_settled_keep :
    ∃ ctx' final, checkCommands 60 keepContext keepScript { stamp := 2 } = .ok ctx' final ∧
      (final.instantiations.length = 1 ∧ final.evaluated.length = 1) ∧
      ctx'.isSettled = true ∧ final.isSettled = true ∧ ctx'.stampsBelow final.stamp = true := by
  have hyields : (checkCommands 60 keepContext keepScript).yields { stamp := 2 } (fun _ final =>
      final.instantiations.length = 1 ∧ final.evaluated.length = 1) = true := by decide +kernel
  obtain ⟨ctx', final, hrun, hremembered⟩ := exists_of_yields hyields
  exact ⟨ctx', final, hrun, of_decide_eq_true hremembered,
    checkCommands_settled rfl rfl rfl (by decide) hrun⟩

end RowScript
