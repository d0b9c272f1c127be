import RowScript.Proofs.FreeNames
import RowScript.Proofs.ScriptCommands
import RowScript.Proofs.SettledCommands

/-!
# Inferred types are closed

A type parameter is bound where it is given its name, so only names of built-in types stay free in
the types of values, if functions carry no written types.
-/

namespace RowScript

open Context Ty Inference List

variable {binding : Binding}

/-- What a binding gives to inference is closed. A declared type matters only if its
name may be met in types. -/
def Binding.ClosedAs (known : String → Prop) (name : String) : Binding → Prop
  | .typed type _ _ => type.ClosedOver known
  | .defined _ type _ _ _ => ∃ inferred, type = some inferred ∧ inferred.ClosedOver known
  | .typeAlias type _ _ => known name → type.ClosedOver known
  | .typeParameter => True

namespace Context

variable {known : String → Prop} {ctx : Context} {loc : Option Loc} {name : String}

/-- All values in a context have closed types, and so have the known names. -/
def ClosedOver (known : String → Prop) (ctx : Context) : Prop :=
  ∀ entry ∈ ctx, entry.binding.ClosedAs known entry.name

variable (hctx : ctx.ClosedOver known)

include hctx

theorem ClosedOver.find? (hfind : ctx.find? name = some binding) : binding.ClosedAs known name := by
  obtain ⟨entry, hentry, rfl⟩ := Option.map_eq_some_iff.mp hfind
  have hname := find?_some hentry
  simp only [decide_eq_true_eq] at hname
  exact hname ▸ hctx entry (mem_of_find?_eq_some hentry)

theorem ClosedOver.declares : ctx.DeclaresClosed known := by
  intro name type hname halias
  obtain ⟨_, _, hfind⟩ := exists_find?_of_alias? halias
  exact hctx.find? hfind hname

theorem ClosedOver.valueType {type : Ty} (hrun : ctx.valueType name loc = .ok type) :
    type.ClosedOver known := by
  unfold Context.valueType at hrun
  split at hrun <;> cases hrun
  · rename_i hfind
    exact hctx.find? hfind
  · rename_i hfind
    obtain ⟨inferred, heq, hclosed⟩ := hctx.find? hfind
    cases heq
    exact hclosed

theorem ClosedOver.bindTyped {type : Ty} (htype : type.ClosedOver known) {stamp : Nat}
    {nameLoc : Loc} {isGlobal : Bool} :
    ClosedOver known (⟨stamp, name, .typed type nameLoc isGlobal⟩ :: ctx) :=
  forall_mem_cons.mpr ⟨htype, hctx⟩

end Context

/-- Only the names that a type mentions can be free in it. -/
instance (known : String → Prop) [DecidablePred known] (ty : Ty) :
    Decidable (ty.ClosedOver known) :=
  decidable_of_iff (∀ name ∈ ty.names, ty.mentionsName name = true → known name)
    ⟨fun hnames name hname => hnames name (mem_names_of_mentionsName hname) hname,
      fun hclosed name _ hname => hclosed name hname⟩

/-- Functions whose written type, if there is one, is closed. -/
def Inference.writesClosed (known : String → Prop) [DecidablePred known] (_ : Option Param)
    (ascribed : Option Ty) : Bool :=
  ascribed.all fun type => decide (type.ClosedOver known)

/-- Functions without a written type. -/
def Inference.isUnascribed (_ : Option Param) (ascribed : Option Ty) : Bool := ascribed.isNone

/-- A function of a parameter that nothing constrains is generic in the name that the
parameter's type gets. The name may be free in the type of the result, and is bound then. -/
theorem Ty.ClosedOver.quantified {known : String → Prop} {ret : Ty} {id : Nat} (name : String)
    (hret : ret.ClosedOver known) :
    (Ty.generic name ((named name).functionTo (ret.replaceHole id (.named name)))).ClosedOver
      known := by
  have hname : (named name).ClosedOver fun n => n = name ∨ known n := by simp
  have hreplaced : (ret.replaceHole id (.named name)).ClosedOver fun n => n = name ∨ known n :=
    (hret.mono fun _ => Or.inr).replaceHole hname
  exact closedOver_generic.mpr (hname.functionTo hreplaced)

/-- Inference hands closedness on, if the names of literal types are known. -/
def InferenceInvariant.closedOver (known : String → Prop) [DecidablePred known]
    (hliteral : ∀ name ∈ literalTypes, known name) : InferenceInvariant where
  toTypeInvariant := .closedOver known
  OfContext _ ctx := ctx.ClosedOver known
  start_le _ := Nat.zero_le _
  allows := writesClosed known
  allows_none _ _ := rfl
  literal hname := closedOver_named.mpr (hliteral _ hname)
  emptyRow := closedOver_emptyRow
  arrow := closedOver_arrow
  app := closedOver_app
  field := closedOver_field
  record := closedOver_record
  quantified name _ := ClosedOver.quantified name
  context_mono hctx _ := hctx
  value hctx hrun := hctx.valueType hrun
  bind hctx htype := hctx.bindTyped htype
  written hctx hallows hrun := closedOver_normalize hctx.declares (of_decide_eq_true hallows) hrun
  solves hctx hconstraints hsolves :=
    hsolves.closedOver hctx.declares hconstraints constraintsClosedOver_nil

/-- What is solved in a closed context is closed, if the names of literal types are known. -/
theorem solve_closed {known : String → Prop} [DecidablePred known]
    (hliteral : ∀ name ∈ literalTypes, known name) {fuel : Nat} {ctx : Context}
    {term : Term} {checker final : Checker} {solved : Solved} (hctx : ctx.ClosedOver known)
    (hterm : term.allFunctions (writesClosed known))
    (hrun : solve fuel ctx term checker = .ok solved final) :
    solved.type.ClosedOver known ∧ ConstraintsClosedOver known solved.principal := by
  have hfinds := (InferenceInvariant.closedOver known hliteral).solves_solve fuel hrun hctx hterm
  exact ⟨hfinds.ofType, hfinds.ofConstraints⟩

section Generalize

variable {known : String → Prop} {naming : Naming} {ty : Ty} {solved : List Constraint}
  {ctx : Context} {loc : Option Loc} {stamp stamp' : Nat} {result : Generalized}

/-- The parameters of a type that is made generic are bound in it. -/
theorem Ty.closedOver_quantify
    (hty : ty.ClosedOver fun name => name ∈ naming.map (·.2) ∨ known name) :
    (ty.quantify naming).ClosedOver known := by
  induction naming generalizing ty with
  | nil => exact hty.mono fun name hname => hname.resolve_left not_mem_nil
  | cons first rest ih =>
    apply ih
    rw [closedOver_generic]
    refine hty.mono fun name hname => ?_
    simpa [or_assoc] using hname

/-- Generalization names the placeholders of the type, and makes the type generic in
these names. -/
theorem generalize_type (hrun : generalize solved ty ctx loc stamp = .ok (result, stamp')) :
    (∀ id ∈ (ty.applying solved).holes, ∃ name, result.naming.lookup id = some name) ∧
      result.type = ((ty.applying solved).withNames result.naming).quantify
        (result.naming.filter fun named => (ty.applying solved).occurs named.1) := by
  rw [generalize_eq_bind, Except.bind_eq_ok] at hrun
  obtain ⟨naming, hnaming, hrun⟩ := hrun
  cases hrun
  exact ⟨fun id hid => Naming.exists_name_of_ofTypes hnaming mem_cons_self hid, rfl⟩

theorem generalize_closed (hty : ty.ClosedOver known) (hsolved : ConstraintsClosedOver known solved)
    (hrun : generalize solved ty ctx loc stamp = .ok (result, stamp')) :
    result.type.ClosedOver known := by
  obtain ⟨hnames, htype⟩ := generalize_type hrun
  rw [htype]
  apply closedOver_quantify
  apply ClosedOver.bindHoles ((hty.applying hsolved).mono fun _ => Or.inr)
  intro id hid
  obtain ⟨name, hname⟩ := hnames id hid
  obtain ⟨newer, older, hnaming, -⟩ := lookup_eq_some_iff.mp hname
  have hmem : (id, name) ∈ result.naming := by simp [hnaming]
  have hown : (id, name) ∈ result.naming.filter fun named =>
      (ty.applying solved).occurs named.1 :=
    mem_filter.mpr ⟨hmem, by simpa [occurs] using hid⟩
  simp only [hname, closedOver_named]
  exact .inl (mem_map_of_mem hown)

end Generalize

/-- Commands without written types on functions. -/
def Command.isUnascribed : Command → Bool
  | .evaluate term _ | .bind _ (.defined term _ _ _ _) _ =>
    term.allFunctions Inference.isUnascribed
  | .bind .. => true

/-- Global declarations: closed types of values and of names. -/
def Command.DeclaresClosed (known : String → Prop) : Command → Prop
  | .bind _ (.typed type _ _) _ | .bind _ (.typeAlias type _ _) _ => type.ClosedOver known
  | .evaluate .. | .bind .. => False

/-- Commands whose written types are closed. A declared type matters only if its name
may be met in types. -/
def Command.WritesClosed (known : String → Prop) [DecidablePred known] : Command → Prop
  | .evaluate term _ | .bind _ (.defined term _ _ _ _) _ =>
    term.allFunctions (writesClosed known) = true
  | .bind _ (.typed type _ _) _ => type.ClosedOver known
  | .bind name (.typeAlias type _ _) _ => known name → type.ClosedOver known
  | .bind _ .typeParameter _ => True

section Commands

variable {known : String → Prop} [DecidablePred known] {fuel : Nat} {ctx ctx' : Context}
  {checker final : Checker} {command : Command} {commands : List Command} {name : String}

theorem Command.DeclaresClosed.writesClosed {declared : String → Prop}
    (hcommand : command.DeclaresClosed declared) (hdeclared : ∀ name, declared name → known name) :
    command.WritesClosed known := by
  cases command with
  | evaluate => cases hcommand
  | bind name binding =>
    cases binding with
    | typed => exact hcommand.mono hdeclared
    | typeAlias => exact fun _ => hcommand.mono hdeclared
    | defined | typeParameter => cases hcommand

section

variable (hliteral : ∀ name ∈ literalTypes, known name) (hctx : ctx.ClosedOver known)

include hliteral hctx

theorem checkTerm_closed {term : Term} {result : Generalized}
    (hterm : term.allFunctions (writesClosed known))
    (hrun : checkTerm fuel ctx term checker = .ok result final) : result.type.ClosedOver known := by
  obtain ⟨solved, middle, stamp, hsolved, hgeneralize, -⟩ := checkTerm_eq_ok hrun
  have hclosed := solve_closed hliteral hctx hterm hsolved
  exact generalize_closed hclosed.1 hclosed.2 hgeneralize

/-- A command whose written types are closed keeps a context closed. -/
theorem checkCommand_closed (hcommand : command.WritesClosed known)
    (hrun : checkCommand fuel ctx command checker = .ok ctx' final) : ctx'.ClosedOver known := by
  cases checkedCommand_of_ok hrun with
  | evaluate => exact hctx
  | bind hbinding =>
    refine forall_mem_cons.mpr ⟨?_, hctx⟩
    cases checkedBinding_of_ok hbinding with
    | defined hterm => exact ⟨_, rfl, checkTerm_closed hliteral hctx hcommand hterm⟩
    | typed htype => exact closedOver_normalize hctx.declares hcommand htype
    | typeAlias htype =>
      exact fun hname => closedOver_normalize hctx.declares (hcommand hname) htype
    | typeParameter => trivial

theorem checkCommands_closed_of_writes
    (hcommands : ∀ command ∈ commands, command.WritesClosed known)
    (hrun : checkCommands fuel ctx commands checker = .ok ctx' final) : ctx'.ClosedOver known :=
  checkCommands_induction (P := fun ctx _ => ctx.ClosedOver known)
    (fun command hcommand _ _ _ _ hctx hfirst =>
      checkCommand_closed hliteral hctx (hcommands command hcommand) hfirst) hctx hrun

end

/-- A name that is bound hides nothing, because it was free. -/
theorem Context.alias?_cons_of_isSome {stamp : Nat} {other : String}
    (hunbound : ctx.find? name = none) (halias : (ctx.alias? other).isSome) :
    (alias? (⟨stamp, name, binding⟩ :: ctx) other).isSome := by
  have hne : other ≠ name := by
    rintro rfl
    simp [alias?, hunbound] at halias
  simpa [alias?, find?_cons, hne] using halias

/-- A command binds at most one name, which was free. -/
theorem checkCommand_isSome_alias? (hrun : checkCommand fuel ctx command checker = .ok ctx' final)
    (halias : (ctx.alias? name).isSome) : (ctx'.alias? name).isSome := by
  cases checkedCommand_of_ok hrun with
  | evaluate => exact halias
  | bind _ hname => exact alias?_cons_of_isSome hname halias

/-- Where all known names are declared, the types that a script declares do not matter. -/
theorem Command.writesClosed_of_isUnascribed
    (hknown : ∀ name, known name → (ctx.alias? name).isSome)
    (hunascribed : command.isUnascribed) (hdefinition : command.isDefinition)
    (hrun : checkCommand fuel ctx command checker = .ok ctx' final) :
    command.WritesClosed known := by
  have hfunctions : ∀ (param : Option Param) (ascribed : Option Ty),
      Inference.isUnascribed param ascribed = true → writesClosed known param ascribed = true := by
    rintro _ (_ | _) hnone
    · rfl
    · cases hnone
  cases checkedCommand_of_ok hrun with
  | evaluate => exact Term.allFunctions_imp hfunctions _ hunascribed
  | @bind name _ _ _ _ hbinding hfree =>
    cases checkedBinding_of_ok hbinding with
    | defined => exact Term.allFunctions_imp hfunctions _ hunascribed
    | typeAlias =>
      -- the name is new, so it is none of the known ones
      intro hname
      have halias := hknown name hname
      simp [alias?, hfree] at halias
    | typed | typeParameter => cases hdefinition

theorem checkCommands_closed (hliteral : ∀ name ∈ literalTypes, known name)
    (hctx : ctx.ClosedOver known) (hknown : ∀ name, known name → (ctx.alias? name).isSome)
    (hunascribed : ∀ command ∈ commands, command.isUnascribed)
    (hdefinitions : ∀ command ∈ commands, command.isDefinition)
    (hrun : checkCommands fuel ctx commands checker = .ok ctx' final) :
    ctx'.ClosedOver known ∧ ∀ name, known name → (ctx'.alias? name).isSome := by
  refine checkCommands_induction (P := fun ctx _ =>
    ctx.ClosedOver known ∧ ∀ name, known name → (ctx.alias? name).isSome = true)
    (fun command hcommand _ _ _ _ hctx hfirst => ⟨?_, fun name hname => ?_⟩) ⟨hctx, hknown⟩ hrun
  · have hwrites := Command.writesClosed_of_isUnascribed hctx.2 (hunascribed command hcommand)
      (hdefinitions command hcommand) hfirst
    exact checkCommand_closed hliteral hctx.1 hwrites hfirst
  · exact checkCommand_isSome_alias? hfirst (hctx.2 name hname)

end Commands

/-- The names of the built-in types, in the order of their declarations. -/
def builtinTypes : List String := ["()", "String", "Number", "Boolean", "Array", "JSONT"]

instance (known : String → Prop) [DecidablePred known] :
    (command : Command) → Decidable (command.DeclaresClosed known)
  | .bind _ (.typed type _ _) _ | .bind _ (.typeAlias type _ _) _ =>
    inferInstanceAs (Decidable (type.ClosedOver known))
  | .evaluate .. | .bind _ (.defined ..) _ | .bind _ .typeParameter _ =>
    inferInstanceAs (Decidable False)

/-- The name of a type that a command declares. -/
def Command.declaredType? : Command → Option String
  | .bind name (.typeAlias ..) _ => some name
  | _ => none

theorem checkCommands_isSome_alias? {fuel : Nat} {ctx ctx' : Context} {checker final : Checker}
    {commands : List Command} {name : String}
    (hrun : checkCommands fuel ctx commands checker = .ok ctx' final)
    (hname : (ctx.alias? name).isSome ∨ name ∈ commands.filterMap Command.declaredType?) :
    (ctx'.alias? name).isSome := by
  induction commands generalizing ctx checker with
  | nil =>
    obtain ⟨rfl, -⟩ := CheckM.pure_eq_ok.mp hrun
    exact hname.resolve_right List.not_mem_nil
  | cons command rest ih =>
    simp only [checkCommands, List.foldlM_cons, CheckM.bind_eq_ok] at hrun
    obtain ⟨middleCtx, middle, hfirst, hrun⟩ := hrun
    apply ih hrun
    rcases hname with halias | hname
    · exact .inl (checkCommand_isSome_alias? hfirst halias)
    · obtain ⟨declaring, hdeclaring, hdeclared⟩ := List.mem_filterMap.mp hname
      rcases List.mem_cons.mp hdeclaring with rfl | hdeclaring
      · left
        unfold Command.declaredType? at hdeclared
        split at hdeclared
        · cases hdeclared
          cases checkedCommand_of_ok hfirst with
          | bind hbinding =>
            cases checkedBinding_of_ok hbinding
            simp [alias?, Context.find?_cons]
        · cases hdeclared
      · exact .inr (List.mem_filterMap.mpr ⟨declaring, hdeclaring, hdeclared⟩)

/-- The built-in types and values mention built-in types only. -/
theorem preludeText_declares : ∃ commands,
    parseDeclarations preludeText.toList = .ok commands ∧
      (∀ command ∈ commands, command.DeclaresClosed (· ∈ builtinTypes)) ∧
      commands.filterMap Command.declaredType? = builtinTypes := by
  have hpasses : Except.passes (parseDeclarations preludeText.toList) (fun commands =>
      decide ((∀ command ∈ commands, command.DeclaresClosed (· ∈ builtinTypes)) ∧
        commands.filterMap Command.declaredType? = builtinTypes)) = true := by
    rewrite [preludeChars.2]
    decide +kernel
  obtain ⟨commands, hcommands, hdeclares⟩ := Except.exists_of_passes hpasses
  exact ⟨commands, hcommands, of_decide_eq_true hdeclares⟩

variable {globals : Context}

/-- The built-in values are closed over every set of names with the built-in types. -/
theorem preludeContext_closedOver {known : String → Prop} [DecidablePred known]
    (hknown : ∀ name ∈ builtinTypes, known name) {fuel : Nat} {checker final : Checker}
    (hrun : preludeContext fuel checker = .ok globals final) :
    globals.ClosedOver known ∧ ∀ name ∈ builtinTypes, (globals.alias? name).isSome := by
  obtain ⟨commands, hcommands, hdeclares, hnames⟩ := preludeText_declares
  simp only [preludeContext, globalContext, CheckM.bind_eq_ok, CheckM.ofExcept_eq_ok] at hrun
  obtain ⟨found, _, ⟨hfound, rfl⟩, hrun⟩ := hrun
  obtain rfl : commands = found := by simpa [hcommands] using hfound
  have hliteral : ∀ name ∈ literalTypes, name ∈ builtinTypes := by decide
  refine ⟨checkCommands_closed_of_writes (fun name hname => hknown name (hliteral name hname))
    (by simp [Context.ClosedOver])
    (fun command hcommand => (hdeclares command hcommand).writesClosed hknown) hrun, ?_⟩
  intro name hname
  exact checkCommands_isSome_alias? hrun (.inr (hnames ▸ hname))

theorem preludeContext_closed {fuel : Nat} {checker final : Checker}
    (hrun : preludeContext fuel checker = .ok globals final) :
    globals.ClosedOver (· ∈ builtinTypes) ∧
      ∀ name ∈ builtinTypes, (globals.alias? name).isSome :=
  preludeContext_closedOver (fun _ hname => hname) hrun

/-- The types found for the values of a script are closed. If a script without written
types is accepted, starting from the built-in types and values, then every value that it
defines has got a type, and a name that is free in that type is the name of a type in the
final context. All other names in the type are its own type parameters. -/
theorem checkCommands_inferred_closed {text : List Char} {commands : List Command}
    {globals ctx : Context} {fuel preludeFuel : Nat} {checker start loaded final : Checker}
    (hglobals : preludeContext preludeFuel start = .ok globals loaded)
    (hscript : parseScript text = .ok commands)
    (hunascribed : ∀ command ∈ commands, command.isUnascribed = true)
    (hrun : checkCommands fuel globals commands checker = .ok ctx final) :
    ∀ entry ∈ ctx, ∀ term type? nameLoc inner isGlobal,
      entry.binding = .defined term type? nameLoc inner isGlobal →
      ∃ type, type? = some type ∧
        ∀ name, type.mentionsName name = true → (ctx.alias? name).isSome = true := by
  obtain ⟨hclosed, hbuiltin⟩ := preludeContext_closed hglobals
  obtain ⟨hctx, halias⟩ := checkCommands_closed (by decide) hclosed hbuiltin hunascribed
    (parseScript_isDefinition hscript) hrun
  intro entry hentry term type? nameLoc inner isGlobal hbinding
  have hvalue := hctx entry hentry
  rw [hbinding] at hvalue
  obtain ⟨type, rfl, htype⟩ := hvalue
  exact ⟨type, rfl, fun name hname => halias name (htype name hname)⟩

/-- A function that ignores its second parameter puts the first one into an array. Its
type mentions the type of arrays, which is declared, and two letters, which it binds.
The binder of `a` stands behind the first arrow, where it is not shown. -/
theorem checkCommands_inferred_closed_wrap :
    ∃ globals commands ctx loaded final,
      preludeContext 60 {} = .ok globals loaded ∧
      parseScript "let wrap = x => y => [x]".toList = .ok commands ∧
      checkCommands 60 globals commands loaded = .ok ctx final ∧
      (∀ command ∈ commands, command.isUnascribed = true) ∧
      (ctx.value? "wrap").map Ty.toText = some "<b> b -> a -> b[]" ∧
      ∀ entry ∈ ctx, ∀ term type? nameLoc inner isGlobal,
        entry.binding = .defined term type? nameLoc inner isGlobal →
        ∃ type, type? = some type ∧
          ∀ name, type.mentionsName name = true → (ctx.alias? name).isSome = true := by
  have hyields : (checkScript 60 "let wrap = x => y => [x]".toList).yields {} (fun result _ =>
      decide ((∀ command ∈ result.2.1, command.isUnascribed = true) ∧
        (result.2.2.value? "wrap").map Ty.toText = some "<b> b -> a -> b[]")) = true := by
    rw [checkScript, preludeContext_eq, String.toList_ofList]
    decide +kernel
  obtain ⟨⟨globals, commands, ctx⟩, final, hrun, htest⟩ := CheckM.exists_of_yields hyields
  obtain ⟨hunascribed, htype⟩ := of_decide_eq_true htest
  obtain ⟨loaded, hglobals, hscript, hrun⟩ := checkScript_eq_ok hrun
  exact ⟨globals, commands, ctx, loaded, final, hglobals, hscript, hrun, hunascribed, htype,
    checkCommands_inferred_closed hglobals hscript hunascribed hrun⟩

end RowScript
