import RowScript.Proofs.RenumberedRuns

/-!
# The counter of placeholders does not matter

However many placeholders a checker has handed out, it accepts or refuses the same commands, with
the same results and reports up to the number of a placeholder that would have to contain itself.
-/

namespace RowScript

open Context Ty Renumbering List Checker

open Renumbering (Carries carries_pure carries_ofExcept carries_modify carries_bindName
  carriesTerms_solve plain_normalize normalize_context)

namespace Renumbering

variable {ρ : Renumbering} {ctx : Context} {fuel : Nat} {command : Command}

theorem generalize_carries (solved : List Constraint) (type : Ty) (loc : Option Loc) :
    ρ.Carries ρ.generalized (CheckM.generalize solved type ctx loc)
      (CheckM.generalize (ρ.constraints solved) (ρ.ty type) (ρ.context ctx) loc) := by
  have hget : ρ.Carries ρ.checker (get : CheckM Checker) get := fun _ => .inl rfl
  refine hget.bind fun known => ?_
  refine (carries_ofExcept (ρ.generalize_context solved type ctx loc known.stamp)).bind
    fun result => ?_
  obtain ⟨result, stamp⟩ := result
  have hmodify : ρ.Carries (fun value => value)
      (modify fun checker => { checker with stamp } : CheckM PUnit)
      (modify fun checker => { checker with stamp }) := carries_modify fun _ => rfl
  exact hmodify.bind fun _ => carries_pure rfl

theorem setKey_map {κ ν ν' : Type} [DecidableEq κ] (φ : ν → ν') (key : κ) (value : ν)
    (table : List (κ × ν)) :
    setKey key (φ value) (table.map fun entry => (entry.1, φ entry.2)) =
      (setKey key value table).map fun entry => (entry.1, φ entry.2) := by
  simp only [setKey, map_cons, filter_map]
  rfl

/-- A loop that can stop, carried over step by step. -/
theorem foldlM_map {α β γ δ : Type} {f : γ → α → Option γ} {g : δ → β → Option δ} {φ : α → β}
    {ψ : γ → δ} (hstep : ∀ state item, g (ψ state) (φ item) = (f state item).map ψ) (items : List α)
    (state : γ) : (items.map φ).foldlM g (ψ state) = (items.foldlM f state).map ψ := by
  induction items generalizing state with
  | nil => rfl
  | cons item rest ih =>
    rw [map_cons, foldlM_cons, foldlM_cons, hstep]
    cases f state item with
    | none => rfl
    | some next => exact ih next

theorem instanceTypes?_use (assigned names : Assignment) (logged : Instance) :
    Checker.instanceTypes? (ρ.assignment assigned) (ρ.assignment names) (ρ.use logged) =
      (Checker.instanceTypes? assigned names logged).map ρ.taken := by
  refine foldlM_map (ψ := ρ.taken) (fun types hole => ?_) logged.holes []
  have htype : (ρ.assignment names).resolve ((ρ.assignment assigned).resolve
      (.hole (hole.2 + ρ.shift))) = ρ.ty (names.resolve (assigned.resolve (.hole hole.2))) := by
    rw [← ty_hole, resolve_assignment, resolve_assignment]
  have hset : setKey hole.1 (ρ.ty (names.resolve (assigned.resolve (.hole hole.2))))
      (ρ.taken types) =
      ρ.taken (setKey hole.1 (names.resolve (assigned.resolve (.hole hole.2))) types) :=
    setKey_map ρ.ty hole.1 _ types
  simp only [htype, isEmpty_holes_ty, hset]
  split <;> rfl

theorem recordInstances_checker (principal : List Constraint) (names : Naming) (known : Checker) :
    (ρ.checker known).recordInstances (ρ.constraints principal) (ρ.naming names) =
      ρ.checker (known.recordInstances principal names) := by
  have hnames : ((ρ.naming names).map fun given => (given.1, named given.2)) =
      ρ.assignment (names.map fun given => (given.1, named given.2)) := by
    simp [naming, assignment]
  simp only [recordInstances, checker, hnames, ofConstraints_constraints]
  refine congrArg (Checker.mk _ _ _ · _) ?_
  rw [foldl_map]
  refine foldl_hom (map fun entry : Loc × List (String × Ty) =>
    (entry.1, ρ.taken entry.2)) fun table logged => ?_
  rw [instanceTypes?_use]
  cases instanceTypes? (Assignment.ofConstraints principal)
      (names.map fun given => (given.1, named given.2)) logged with
  | none => rfl
  | some types => exact setKey_map ρ.taken logged.loc types table

variable (hctx : (Convention.ofContext ctx).IsClosed)

include hctx

theorem checkTerm_carries {term : Term} (hterm : term.isClosed) :
    ρ.Carries ρ.generalized (checkTerm fuel ctx term) (checkTerm fuel (ρ.context ctx) term) := by
  refine (carriesTerms_solve fuel ctx term hctx hterm).bind fun result => ?_
  refine (generalize_carries _ _ _).bind fun generalized => ?_
  exact (carries_modify (recordInstances_checker _ _)).bind fun _ => carries_pure rfl

/-- A written type without placeholders is the same declared type in both runs. -/
theorem normalize_carries {type : Ty} (htype : type.holes.isEmpty) (loc : Option Loc)
    (make : Ty → Binding) (hmake : ∀ type, ρ.binding (make type) = make (ρ.ty type)) :
    ρ.Carries ρ.binding
      (CheckM.ofExcept (ctx.normalize loc type) >>= fun type => pure (make type))
      (CheckM.ofExcept ((ρ.context ctx).normalize loc type) >>= fun type => pure (make type)) := by
  rw [normalize_context hctx]
  refine ((plain_normalize type).carries (φ := fun type => type) fun _ _ => rfl).bind_of_ok
    fun normalized known middle hrun => carries_pure ?_
  have hholes := mem_holes_normalize hctx (CheckM.ofExcept_eq_ok.mp hrun).1
  rw [isEmpty_iff.mp htype] at hholes
  rw [hmake, ρ.ty_of_holes_eq_nil (eq_nil_iff_forall_not_mem.mpr fun i hi =>
    not_mem_nil (hholes i hi))]

theorem checkBinding_carries {old : Binding} (hbinding : old.isClosed) (loc : Option Loc) :
    ρ.Carries ρ.binding (checkBinding fuel ctx old loc)
      (checkBinding fuel (ρ.context ctx) old loc) := by
  cases old with
  | defined term type nameLoc inner isGlobal =>
    exact (checkTerm_carries hctx hbinding).bind fun _ => carries_pure rfl
  | typed type nameLoc isGlobal =>
    exact normalize_carries hctx hbinding loc (.typed · nameLoc isGlobal) fun _ => rfl
  | typeAlias type nameLoc isGlobal =>
    exact normalize_carries hctx hbinding loc (.typeAlias · nameLoc isGlobal) fun _ => rfl
  | typeParameter => exact carries_pure rfl

theorem checkCommand_carries (hcommand : command.isClosed) :
    ρ.Carries ρ.context (checkCommand fuel ctx command)
      (checkCommand fuel (ρ.context ctx) command) := by
  have hclear : ρ.Carries (fun value => value)
      (modify fun checker => { checker with instances := [] } : CheckM PUnit)
      (modify fun checker => { checker with instances := [] }) := carries_modify fun _ => rfl
  refine hclear.bind fun _ => ?_
  cases command with
  | evaluate term loc =>
    refine (checkTerm_carries hctx hcommand).bind fun result => ?_
    have hkeep : ρ.Carries (fun value => value)
        (modify fun checker =>
          { checker with evaluated := setKey loc result.ctx checker.evaluated } : CheckM PUnit)
        (modify fun checker =>
          { checker with evaluated := setKey loc (ρ.context result.ctx) checker.evaluated }) :=
      carries_modify fun known =>
        congrArg (Checker.mk _ _ _ _ ·) (setKey_map ρ.context loc result.ctx known.evaluated)
    exact hkeep.bind fun _ => carries_pure rfl
  | bind name old loc =>
    exact (checkBinding_carries hctx hcommand _).bind fun _ => carries_bindName rfl _

/-- A binding that declares no type with placeholders keeps declared types closed. -/
theorem isClosed_cons {stamp : Nat} {name : String} {new : Binding}
    (hnew : ∀ type nameLoc isGlobal, new = .typeAlias type nameLoc isGlobal → type.holes = []) :
    (Convention.ofContext (⟨stamp, name, new⟩ :: ctx)).IsClosed := by
  intro other declared hdeclared
  obtain ⟨_, _, hfind⟩ := exists_find?_of_alias? hdeclared
  rw [Context.find?_cons] at hfind
  split at hfind
  · exact hnew _ _ _ (Option.some.inj hfind)
  · exact hctx other declared (alias?_of_find? hfind)

theorem isClosed_checkCommand {known final : Checker} {ctx' : Context} (hcommand : command.isClosed)
    (hrun : checkCommand fuel ctx command known = .ok ctx' final) :
    (Convention.ofContext ctx').IsClosed := by
  cases checkedCommand_of_ok hrun with
  | evaluate => exact hctx
  | bind hbinding =>
    refine isClosed_cons hctx fun type nameLoc isGlobal halias => ?_
    subst halias
    cases checkedBinding_of_ok hbinding with
    | typeAlias htype =>
      have hholes := mem_holes_normalize hctx htype
      rw [isEmpty_iff.mp hcommand] at hholes
      exact eq_nil_iff_forall_not_mem.mpr fun i hi => not_mem_nil (hholes i hi)

theorem checkCommands_carries {commands : List Command}
    (hcommands : ∀ command ∈ commands, command.isClosed) :
    ρ.Carries ρ.context (checkCommands fuel ctx commands)
      (checkCommands fuel (ρ.context ctx) commands) := by
  induction commands generalizing ctx with
  | nil => exact carries_pure rfl
  | cons command rest ih =>
    obtain ⟨hcommand, hrest⟩ := forall_mem_cons.mp hcommands
    refine (checkCommand_carries hctx hcommand).bind_of_ok fun next known middle hrun => ?_
    exact ih (isClosed_checkCommand hctx hcommand hrun) hrest

end Renumbering

/-- A binding without placeholders, with or without a type. What is inside is not
looked at. -/
def Binding.isHoleFree : Binding → Bool
  | .typed type _ _ | .typeAlias type _ _ => type.holes.isEmpty
  | .defined term type _ _ _ => term.isClosed && type.all (·.holes.isEmpty)
  | .typeParameter => true

/-- No type has a placeholder, at any depth. -/
def Context.isHoleFree (ctx : Context) : Bool :=
  allEntries (fun _ binding => binding.isHoleFree) ctx

/-- A checker remembers no placeholders. -/
def Checker.isHoleFree (checker : Checker) : Bool :=
  checker.instantiations.all (fun use => use.2.all (·.2.holes.isEmpty)) &&
    checker.evaluated.all (·.2.isHoleFree)

namespace Renumbering

/-- Placeholders move up, and nothing is filled in. -/
def shiftBy (d : Nat) : Renumbering := ⟨d, none, by simp⟩

/-- Missing types are filled in, and placeholders stay. -/
def filling : Renumbering := ⟨0, some .emptyRow, by simp [holes]⟩

theorem inner?_binding (ρ : Renumbering) (old : Binding) :
    (ρ.binding old).inner? = old.inner?.map ρ.context := by
  cases old with
  | defined _ _ _ inner _ => cases inner <;> rfl
  | _ => rfl

/-- A check on renumbered bindings, as a check on the bindings themselves. -/
theorem allEntries_context (ρ : Renumbering) {p q : Nat → Binding → Bool}
    (hsame : ∀ stamp old, p stamp (ρ.binding old) = q stamp old) (ctx : Context) :
    allEntries p (ρ.context ctx) = allEntries q ctx := by
  rw [Bool.eq_iff_iff]
  induction ctx using induct with
  | nil => exact .rfl
  | cons first older ihinner ih =>
    rw [context_cons, allEntries_cons, allEntries_cons, entry_stamp, entry_binding, hsame, ih,
      inner?_binding]
    refine and_congr .rfl (and_congr ?_ .rfl)
    cases hinner : first.binding.inner? with
    | none => simp
    | some inner => simpa using ihinner inner hinner

@[simp] theorem filling_ty (type : Ty) : filling.ty type = type := bindHoles_hole type

theorem isSettled_filling (ctx : Context) : (filling.context ctx).isSettled = ctx.isHoleFree := by
  refine allEntries_context filling (fun _ old => ?_) ctx
  cases old with
  | typed | typeAlias => simp [binding, Binding.isSettled, Binding.isHoleFree]
  | defined term type nameLoc inner isGlobal =>
    cases inner <;> cases type <;>
      simp [binding, valueTy, Binding.isSettled, Binding.isHoleFree, filling, holes]
  | typeParameter => rfl

theorem isSettled_filling_checker (checker : Checker) :
    (filling.checker checker).isSettled = checker.isHoleFree := by
  simp [Checker.isSettled, Checker.isHoleFree, Renumbering.checker, taken, all_map,
    Function.comp_def, isSettled_filling]

theorem shiftBy_valueTy (d : Nat) {type : Option Ty}
    (htype : type.all (·.holes.isEmpty)) : (shiftBy d).valueTy type = type := by
  cases type with
  | none => rfl
  | some type =>
    have hholes : type.holes = [] := by simpa using htype
    simp [valueTy, shiftBy, ty_of_holes_eq_nil _ hholes]

theorem shiftBy_context (d : Nat) (ctx : Context) (hctx : ctx.isHoleFree) :
    (shiftBy d).context ctx = ctx := by
  induction ctx using induct with
  | nil => rfl
  | cons first older ihinner ih =>
    obtain ⟨stamp, name, old⟩ := first
    obtain ⟨hold, hinner, holder⟩ := allEntries_cons.mp hctx
    rw [context_cons, entry, ih holder]
    cases old with
    | typed | typeAlias => rw [binding, ty_of_holes_eq_nil _ (isEmpty_iff.mp hold)]
    | defined term type _ inner _ =>
      rw [Binding.isHoleFree, Bool.and_eq_true] at hold
      cases inner with
      | none => rw [binding, shiftBy_valueTy d hold.2]
      | some inner => rw [binding, shiftBy_valueTy d hold.2, ihinner inner rfl (hinner inner rfl)]
    | typeParameter => rfl

theorem shiftBy_remembered (d : Nat) {checker : Checker} (hchecker : checker.isHoleFree) :
    ((shiftBy d).checker checker).remembered = checker.remembered := by
  rw [Checker.isHoleFree, Bool.and_eq_true, all_eq_true, all_eq_true] at hchecker
  obtain ⟨hinstantiations, hevaluated⟩ := hchecker
  have htaken : ∀ logged ∈ checker.instantiations,
      (logged.1, (shiftBy d).taken logged.2) = logged := by
    intro logged hlogged
    have htypes := all_eq_true.mp (hinstantiations logged hlogged)
    refine Prod.ext rfl ((map_congr_left fun type htype => ?_).trans (map_id _))
    exact Prod.ext rfl (ty_of_holes_eq_nil _ (isEmpty_iff.mp (htypes type htype)))
  have hcontexts : ∀ checked ∈ checker.evaluated,
      (checked.1, (shiftBy d).context checked.2) = checked := fun checked hchecked =>
    Prod.ext rfl (shiftBy_context d checked.2 (hevaluated checked hchecked))
  exact Prod.ext ((map_congr_left htaken).trans (map_id _))
    ((map_congr_left hcontexts).trans (map_id _))

end Renumbering

/-- Two faults that are reported alike. Only the number of a placeholder that would have
to contain itself may differ. -/
structure Fault.Alike (fault other : Fault) : Prop where
  kind : other.cause.kind = fault.cause.kind
  loc : other.loc = fault.loc
  message : other.cause.message = fault.cause.message ∨
    ∃ id id', fault.cause = .circular id ∧ other.cause = .circular id'

/-- Commands are refused: those before `command` are accepted, and `command` is refused
with a fault, whatever comes after it. -/
structure Refuses (fuel : Nat) (ctx : Context) (checker : Checker) (accepted : List Command)
    (command : Command) (rest : List Command) (fault : Fault) : Prop where
  accepts : ∃ middle known, checkCommands fuel ctx accepted checker = .ok middle known
  refuses : ∃ final, checkCommands fuel ctx (accepted ++ [command]) checker = .error fault final
  whole : ∃ final, checkCommands fuel ctx (accepted ++ command :: rest) checker =
    .error fault final

section Counters

variable {fuel : Nat} {ctx ctx' : Context} {commands : List Command} {checker final : Checker}
  {fault : Fault}

theorem Context.isClosed_of_isHoleFree (hctx : ctx.isHoleFree) :
    (Convention.ofContext ctx).IsClosed := by
  intro name type hname
  have hsettled : (filling.context ctx).isSettled := by
    rw [isSettled_filling, hctx]
  refine isClosed_of_isSettled hsettled name type ?_
  obtain ⟨_, _, hfind⟩ := exists_find?_of_alias? hname
  simp only [Convention.ofContext, alias?, find?_context, hfind]
  exact congrArg some (filling_ty type)

/-- After commands that were accepted nothing has a placeholder, as before. -/
theorem isHoleFree_checkCommands (hctx : ctx.isHoleFree) (hstamps : ctx.stampsBelow checker.stamp)
    (hchecker : checker.isHoleFree) (hcommands : ∀ command ∈ commands, command.isClosed)
    (hrun : checkCommands fuel ctx commands checker = .ok ctx' final) :
    ctx'.isHoleFree ∧ final.isHoleFree := by
  have hcarries := @checkCommands_carries .filling ctx fuel (isClosed_of_isHoleFree hctx) commands
    hcommands checker
  -- with the missing types filled in, the context is settled at the start and so at the end
  have hrest : AtRest (filling.context ctx) (filling.checker checker) := by
    refine ⟨?_, ?_, ?_⟩
    · rw [isSettled_filling, hctx]
    · rw [← hstamps]
      exact allEntries_context _ (fun _ _ => rfl) ctx
    · rw [isSettled_filling_checker, hchecker]
  rw [hrun] at hcarries
  rcases hcarries with hfilled | ⟨-, name, loc, stopped, hstop⟩
  · have hfinal := checkCommands_atRest hrest hcommands hfilled
    have hcontext := hfinal.context
    have hremembered := hfinal.remembered
    rw [isSettled_filling] at hcontext
    rw [isSettled_filling_checker] at hremembered
    exact ⟨hcontext, hremembered⟩
  · cases hstop

/-- A run that starts with the counter at `d` is the renumbered run from zero. -/
theorem checkCommands_shiftBy (fuel d : Nat) (hctx : ctx.isHoleFree) (hchecker : checker.isHoleFree)
    (hcommands : ∀ command ∈ commands, command.isClosed) :
    checkCommands fuel ctx commands { checker with counter := d, instances := [] } =
      (shiftBy d).outcome (shiftBy d).context
        (checkCommands fuel ctx commands { checker with counter := 0, instances := [] }) := by
  have hcarries := @checkCommands_carries (.shiftBy d) ctx fuel (isClosed_of_isHoleFree hctx)
    commands hcommands { checker with counter := 0, instances := [] }
  have hstart : (shiftBy d).checker { checker with counter := 0, instances := [] } =
      { checker with counter := d, instances := [] } := by
    obtain ⟨hinstantiations, hevaluated⟩ :=
      Prod.mk.inj (shiftBy_remembered d hchecker)
    refine (Checker.mk.injEq ..).mpr ⟨?_, rfl, rfl, hinstantiations, hevaluated⟩
    exact Nat.zero_add d
  rw [hstart, shiftBy_context d ctx hctx] at hcarries
  exact hcarries.resolve_right fun hexcuses => by cases hexcuses.1

theorem Renumbering.alike_fault (ρ ρ' : Renumbering) (fault : Fault) :
    (ρ.fault fault).Alike (ρ'.fault fault) := by
  obtain ⟨cause, loc⟩ := fault
  cases cause with
  | circular id => exact ⟨rfl, rfl, .inr ⟨_, _, rfl, rfl⟩⟩
  | _ => exact ⟨rfl, rfl, .inl rfl⟩

/-- The first command forgets the uses logged for the command before it. -/
theorem checkCommands_ok_of_cleared (checker : Checker)
    (hrun : checkCommands fuel ctx commands { checker with instances := [] } = .ok ctx' final) :
    ∃ final', checkCommands fuel ctx commands checker = .ok ctx' final' ∧
      final'.remembered = final.remembered := by
  cases commands with
  | nil =>
    obtain ⟨rfl, rfl⟩ := CheckM.pure_eq_ok.mp hrun
    exact ⟨checker, rfl, rfl⟩
  | cons command rest => exact ⟨final, hrun, rfl⟩

theorem checkCommands_error_of_cleared (checker : Checker)
    (hrun : checkCommands fuel ctx commands { checker with instances := [] } = .error fault final) :
    checkCommands fuel ctx commands checker = .error fault final := by
  cases commands with
  | nil => cases hrun
  | cons command rest => exact hrun

theorem exists_refuses (hrun : checkCommands fuel ctx commands checker = .error fault final) :
    ∃ accepted command rest, commands = accepted ++ command :: rest ∧
      Refuses fuel ctx checker accepted command rest fault := by
  induction commands generalizing ctx checker with
  | nil => cases hrun
  | cons command rest ih =>
    cases hfirst : checkCommand fuel ctx command checker with
    | error found stopped =>
      rw [checkCommands_cons_error hfirst] at hrun
      cases hrun
      exact ⟨[], command, rest, rfl, ⟨ctx, checker, rfl⟩,
        ⟨final, checkCommands_cons_error hfirst⟩, final, checkCommands_cons_error hfirst⟩
    | ok next middle =>
      rw [checkCommands_cons_ok hfirst] at hrun
      obtain ⟨accepted, refused, later, rfl, haccepts, hrefuses, hwhole⟩ := ih hrun
      refine ⟨command :: accepted, refused, later, rfl, ?_, ?_, ?_⟩
      · rwa [checkCommands_cons_ok hfirst]
      · rwa [cons_append, checkCommands_cons_ok hfirst]
      · rwa [cons_append, checkCommands_cons_ok hfirst]

/-- What is accepted from the counter zero is accepted from any counter. -/
theorem checkCommands_ok_of_zero (hctx : ctx.isHoleFree) (hstamps : ctx.stampsBelow checker.stamp)
    (hchecker : checker.isHoleFree) (hcommands : ∀ command ∈ commands, command.isClosed)
    (hrun : checkCommands fuel ctx commands { checker with counter := 0, instances := [] } =
      .ok ctx' final) (d : Nat) :
    ∃ final', checkCommands fuel ctx commands { checker with counter := d } = .ok ctx' final' ∧
      final'.remembered = final.remembered := by
  obtain ⟨hctx', hfinal⟩ := @isHoleFree_checkCommands _ _ _ _
    { checker with counter := 0, instances := [] } _ hctx hstamps hchecker hcommands hrun
  have hshifted := checkCommands_shiftBy fuel d hctx hchecker hcommands
  rw [hrun, outcome, shiftBy_context d ctx' hctx'] at hshifted
  obtain ⟨final', hrun', hremembered⟩ :=
    checkCommands_ok_of_cleared { checker with counter := d } hshifted
  exact ⟨final', hrun', hremembered.trans (shiftBy_remembered d hfinal)⟩

theorem checkCommands_error_of_zero (hctx : ctx.isHoleFree) (hchecker : checker.isHoleFree)
    (hcommands : ∀ command ∈ commands, command.isClosed)
    (hrun : checkCommands fuel ctx commands { checker with counter := 0, instances := [] } = .error
      fault final) (d : Nat) :
    ∃ final', checkCommands fuel ctx commands { checker with counter := d } =
      .error ((shiftBy d).fault fault) final' := by
  have hshifted := checkCommands_shiftBy fuel d hctx hchecker hcommands
  rw [hrun, outcome] at hshifted
  exact ⟨_, checkCommands_error_of_cleared { checker with counter := d } hshifted⟩

/-- What is refused from the counter zero is refused from any counter, at the same
command. -/
theorem Refuses.of_zero {accepted : List Command} {command : Command} {rest : List Command}
    (hctx : ctx.isHoleFree) (hstamps : ctx.stampsBelow checker.stamp)
    (hchecker : checker.isHoleFree)
    (hcommands : ∀ other ∈ accepted ++ command :: rest, other.isClosed)
    (hrefuses : Refuses fuel ctx { checker with counter := 0, instances := [] } accepted command
      rest fault) (d : Nat) :
    Refuses fuel ctx { checker with counter := d } accepted command rest
      ((shiftBy d).fault fault) := by
  obtain ⟨⟨middle, known, haccepts⟩, ⟨stopped, hthere⟩, ⟨final, hwhole⟩⟩ := hrefuses
  refine ⟨?_, ?_, ?_⟩
  · obtain ⟨final', hrun, -⟩ := checkCommands_ok_of_zero hctx hstamps hchecker
      (fun other hother => hcommands other (mem_append_left _ hother)) haccepts d
    exact ⟨middle, final', hrun⟩
  · refine checkCommands_error_of_zero hctx hchecker (fun other hother => hcommands other ?_)
      hthere d
    rw [mem_append, mem_singleton] at hother
    rw [mem_append, mem_cons]
    exact hother.imp_right .inl
  · exact checkCommands_error_of_zero hctx hchecker hcommands hwhole d

/-- The counter of placeholders does not matter. From any two counters the same commands
are accepted, with equal contexts, logs of instantiations and contexts of checked
expressions, or the same command is refused, with the same kind of fault at the same
range and, but for the number of a placeholder, with the same message. -/
theorem checkCommands_counter_irrelevant (hctx : ctx.isHoleFree = true)
    (hstamps : ctx.stampsBelow checker.stamp = true) (hchecker : checker.isHoleFree = true)
    (hcommands : ∀ command ∈ commands, command.isClosed = true) (start start' : Nat) :
    (∃ ctx' final final',
      checkCommands fuel ctx commands { checker with counter := start } = .ok ctx' final ∧
      checkCommands fuel ctx commands { checker with counter := start' } = .ok ctx' final' ∧
      final'.instantiations = final.instantiations ∧ final'.evaluated = final.evaluated) ∨
    ∃ accepted command rest fault fault', commands = accepted ++ command :: rest ∧
      Refuses fuel ctx { checker with counter := start } accepted command rest fault ∧
      Refuses fuel ctx { checker with counter := start' } accepted command rest fault' ∧
      fault.Alike fault' := by
  cases hrun : checkCommands fuel ctx commands { checker with counter := 0, instances := [] } with
  | ok ctx' final =>
    obtain ⟨first, hfirst, hremembered⟩ :=
      checkCommands_ok_of_zero hctx hstamps hchecker hcommands hrun start
    obtain ⟨second, hsecond, hremembered'⟩ :=
      checkCommands_ok_of_zero hctx hstamps hchecker hcommands hrun start'
    obtain ⟨hinstantiations, hevaluated⟩ := Prod.mk.inj (hremembered'.trans hremembered.symm)
    exact .inl ⟨ctx', first, second, hfirst, hsecond, hinstantiations, hevaluated⟩
  | error fault final =>
    obtain ⟨accepted, command, rest, rfl, hrefuses⟩ := exists_refuses hrun
    refine .inr ⟨accepted, command, rest, _, _, rfl,
      hrefuses.of_zero hctx hstamps hchecker hcommands start,
      hrefuses.of_zero hctx hstamps hchecker hcommands start', ?_⟩
    exact Renumbering.alike_fault _ _ fault

end Counters

/-- The function `keep` is declared and used alike by a new checker and by one that has
handed out a thousand placeholders. -/
theorem checkCommands_counter_irrelevant_keep :
    ∃ ctx' final final',
      checkCommands 60 keepContext keepScript { stamp := 2, counter := 0 } = .ok ctx' final ∧
      checkCommands 60 keepContext keepScript { stamp := 2, counter := 1000 } = .ok ctx' final' ∧
      final'.instantiations = final.instantiations ∧ final'.evaluated = final.evaluated ∧
      final.instantiations.length = 1 := by
  have hyields : (checkCommands 60 keepContext keepScript).yields { stamp := 2 } (fun _ final =>
      final.instantiations.length = 1) = true := by decide +kernel
  obtain ⟨ctx', final, hrun, hlogged⟩ := CheckM.exists_of_yields hyields
  rcases @checkCommands_counter_irrelevant 60 keepContext keepScript { stamp := 2 } rfl rfl rfl
    (by decide) 0 1000 with
    ⟨found, first, second, hfirst, hsecond, hinstantiations, hevaluated⟩ |
    ⟨accepted, command, rest, fault, fault', hcommands, ⟨-, -, stopped, hstop⟩, -⟩
  · cases hrun.symm.trans hfirst
    exact ⟨ctx', final, second, hrun, hsecond, hinstantiations, hevaluated,
      of_decide_eq_true hlogged⟩
  · rw [← hcommands] at hstop
    cases hrun.symm.trans hstop

end RowScript
