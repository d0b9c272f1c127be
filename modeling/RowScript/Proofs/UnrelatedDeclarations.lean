import RowScript.Proofs.PairedInference
import RowScript.Proofs.ReadCommands

/-!
# Declarations that a term does not use

A declaration whose name does not occur in a term has no influence on the type of the term, up to
the names of its parameters and if there are letters enough. Letters have to be used for type
parameters only: a value named by a letter can be captured in a written type.
-/

namespace RowScript

open Context List Bool CheckM Inference

variable {loc : Option Loc}

/-- A written type that leaves neither a name nor any letter free. -/
def Ty.leavesOut (name : String) (type : Ty) : Bool :=
  type.holes.isEmpty && (name :: typeVariableNames).all fun other => !type.mentionsName other

/-- A term in which no written type leaves a name or a letter free. -/
def Term.leavesOut (name : String) (term : Term) : Bool :=
  term.allFunctions fun _ ascribed => ascribed.all (·.leavesOut name)

/-- The same for what is written in a command. -/
def Command.leavesOut (name : String) : Command → Bool
  | .evaluate term _ | .bind _ (.defined term _ _ _ _) _ => term.leavesOut name
  | .bind _ (.typed type _ _) _ | .bind _ (.typeAlias type _ _) _ => type.leavesOut name
  | .bind _ .typeParameter _ => true

/-- A term in which a name does not occur: it is neither referred to nor bound, and no written
type mentions it or has a type parameter of this name. Written types leave no letters free. -/
def Term.isApartFrom (name : String) (term : Term) : Bool :=
  term.allNames (· ≠ name) && term.allFunctions fun _ ascribed =>
    ascribed.all fun type => type.leavesOut name && !type.names.contains name

namespace Vocabulary

/-- All names but one. -/
def without (name : String) (hname : name ∉ Inference.literalTypes) : Vocabulary where
  used other := other ≠ name
  free other := !(name :: typeVariableNames).contains other
  used_of_free other hfree := by simp_all
  literals other hother := by
    have hne : other ≠ name := fun heq => hname (heq ▸ hother)
    have hletter : ∀ literal ∈ literalTypes, literal ∉ typeVariableNames := by decide
    simp [hne, hletter other hother]
  letters other hother := by simp [hother]

/-- The same names in written types, and any names in terms. -/
def loosened (words : Vocabulary) : Vocabulary :=
  { words with
    used := fun _ => true
    used_of_free := fun _ _ => rfl }

variable {name : String} {hname : name ∉ Inference.literalTypes} {type : Ty} {term : Term}

theorem closedOver_of_leavesOut (htype : type.leavesOut name) :
    type.ClosedOver (without name hname).Knows := by
  intro other hother
  simp only [Ty.leavesOut, and_eq_true, all_eq_true, not_eq_true'] at htype
  have hmem : other ∉ name :: typeVariableNames := by
    intro hmem
    rw [htype.2 other hmem] at hother
    cases hother
  simpa [Knows, without] using hmem

theorem spells_of_isApartFrom (hterm : term.isApartFrom name) :
    (without name hname).Spells term := by
  rw [Term.isApartFrom, and_eq_true] at hterm
  refine ⟨hterm.1, Term.allFunctions_imp (fun _ ascribed hascribed => ?_) term hterm.2⟩
  cases ascribed with
  | none => rfl
  | some type =>
    simp only [Option.all_some, and_eq_true, not_eq_true', contains_eq_mem,
      decide_eq_false_iff_not] at hascribed
    have hholes := (and_eq_true_iff.mp hascribed.1).1
    have hnames : ∀ other ∈ type.names, (without name hname).used other :=
      fun other hother => decide_eq_true fun heq => hascribed.2 (heq ▸ hother)
    rw [Option.all_some, writes, hholes, all_eq_true.mpr hnames]
    exact decide_eq_true (closedOver_of_leavesOut hascribed.1)

theorem loosened_spells (hterm : term.leavesOut name) :
    (without name hname).loosened.Spells term := by
  refine ⟨Term.allNames_of_forall (fun _ => rfl) term,
    Term.allFunctions_imp (fun _ ascribed hascribed => ?_) term hterm⟩
  cases ascribed with
  | none => rfl
  | some type =>
    have hholes := (and_eq_true_iff.mp hascribed).1
    have hnames : type.names.all (without name hname).loosened.used :=
      all_eq_true.mpr fun _ _ => rfl
    have hclosed : type.ClosedOver (without name hname).Knows := closedOver_of_leavesOut hascribed
    rw [Option.all_some, writes, hholes, hnames]
    exact decide_eq_true hclosed

end Vocabulary

/-- A context in which no type has placeholders, and types mention known names only. -/
def Context.Within (words : Vocabulary) (ctx : Context) : Prop :=
  ∀ entry ∈ ctx, ∀ type, entry.binding.type? = some type →
    type.holes = [] ∧ type.ClosedOver words.Knows

namespace Context

variable {words : Vocabulary} {holes : Nat → Nat → Prop} {ctx other other' : Context}
  {name : String}

theorem Within.find? (hctx : ctx.Within words) {binding : Binding} {type : Ty}
    (hfind : ctx.find? name = some binding) (htype : binding.type? = some type) :
    type.holes = [] ∧ type.ClosedOver words.Knows := by
  obtain ⟨entry, hentry, rfl⟩ := exists_mem_of_find? hfind
  exact hctx entry hentry type htype

theorem Within.alias? (hctx : ctx.Within words) {type : Ty} (halias : ctx.alias? name = some type) :
    type.holes = [] ∧ type.ClosedOver words.Knows := by
  unfold Context.alias? at halias
  split at halias
  · rename_i hfind
    cases halias
    exact hctx.find? hfind rfl
  · cases halias

theorem Within.isClosed (hctx : ctx.Within words) : (Ty.Convention.ofContext ctx).IsClosed :=
  fun _ _ halias => (hctx.alias? halias).1

theorem isClosed_cons {entry : Entry Binding} (hctx : (Ty.Convention.ofContext ctx).IsClosed)
    (hentry : ∀ type, entry.binding.type? = some type → type.holes = []) :
    (Ty.Convention.ofContext (entry :: ctx)).IsClosed := by
  intro other type halias
  have halias : Context.alias? (entry :: ctx) other = some type := halias
  by_cases hother : other = entry.name
  · obtain ⟨stamp, name, binding⟩ := entry
    rw [Context.alias?, find?_cons, if_pos hother] at halias
    cases binding with
    | typeAlias =>
      cases halias
      exact hentry _ rfl
    | _ => cases halias
  · rw [Context.alias?, find?_cons, if_neg hother] at halias
    exact hctx other type halias

/-- Contexts in which the names of a vocabulary are bound to the same. -/
theorem Within.pair (hctx : ctx.Within words) (hclosed : (Ty.Convention.ofContext other).IsClosed)
    (hother : ∀ name, words.used name → other.find? name = ctx.find? name)
    (hother' : ∀ name, words.used name → other'.find? name = ctx.find? name) :
    Pair words holes other other' where
  uses := by
    refine ⟨fun name hname => ?_, fun name type hname halias => ?_⟩
    · rw [typeUse?, hother' name hname, typeUse?, hother name hname]
    · rw [Context.alias?, hother name hname] at halias
      exact (hctx.alias? halias).2.mono words.used_of_free
  declares name type hname halias := by
    rw [Context.alias?, hother name (words.used_of_free name hname)] at halias
    exact (hctx.alias? halias).2
  closed := hclosed
  values name loc hname := by
    rw [valueType, valueType, hother name hname, hother' name hname]
    refine exceptAccords_same fun type hrun => ?_
    split at hrun <;> cases hrun
    · rename_i hfind
      obtain ⟨hholes, hclosed⟩ := hctx.find? hfind rfl
      exact Ty.like_self hholes hclosed
    · rename_i hfind
      obtain ⟨hholes, hclosed⟩ := hctx.find? hfind rfl
      exact Ty.like_self hholes hclosed

theorem Within.pair_self (hctx : ctx.Within words) : Pair words holes ctx ctx :=
  hctx.pair hctx.isClosed (fun _ _ => rfl) fun _ _ => rfl

end Context

section Terms

variable {words : Vocabulary} {holes : Nat → Nat → Prop} {ctx ctx' : Context} {term : Term}
  {fuel : Nat} {checker final : Checker}

theorem ConstraintsAlike.closedOver {constraints others : List Constraint}
    (halike : ConstraintsAlike words.Knows (· = ·) holes constraints others) :
    ConstraintsClosedOver words.Knows constraints := by
  induction halike with
  | nil => exact constraintsClosedOver_nil
  | cons hequal _ ih =>
    exact constraintsClosedOver_cons.mpr
      ⟨⟨Ty.Like.closedOver hequal.1, Ty.Like.closedOver hequal.2⟩, ih⟩

theorem generalize_accords {solved solved' : List Constraint} {a b : Ty}
    (hunique : Relator.BiUnique holes) (hlike : a.Like words.Knows holes b)
    (hsolved : ConstraintsAlike words.Knows (· = ·) holes solved solved') :
    Accord holes (fun _ result result' => Ty.alphaEq [] result.type result'.type = true)
      (CheckM.generalize solved a ctx loc) fun _ => CheckM.generalize solved' b ctx' loc := by
  intro start start' hpairing
  have hletters : ∀ x ∈ typeVariableNames, ¬words.Knows x := by
    intro x hx
    simp [Vocabulary.Knows, words.letters x hx]
  have hclosed : ExceptAccords (fun result result' =>
        Ty.alphaEq [] result.1.type result'.1.type = true)
      (generalize solved a ctx loc start.stamp) (generalize solved' b ctx' loc start'.stamp) :=
    exceptAccords_of_letters (fun _ => Solver.generalize_letters)
      (fun _ => Solver.generalize_letters) fun _ _ hrun hrun' =>
        generalize_alphaEq hletters hunique hlike hsolved hrun hrun'
  -- the stamps are read first, and what follows is a computation that can only fail
  have hrest : Accord holes
      (fun _ (result result' : Generalized) => Ty.alphaEq [] result.type result'.type = true)
      (do
        let result ← CheckM.ofExcept (generalize solved a ctx loc start.stamp)
        modify fun checker => { checker with stamp := result.2 }
        pure result.1) fun _ => (do
        let result ← CheckM.ofExcept (generalize solved' b ctx' loc start'.stamp)
        modify fun checker => { checker with stamp := result.2 }
        pure result.1) :=
    accord_ofExcept_bind hclosed fun _ _ halpha =>
      accord_modify_pure (fun _ => rfl) (fun _ => rfl) halpha
  exact hrest hpairing

theorem checkTerm_accords (hunique : Relator.BiUnique holes)
    (hpair : Pair words holes ctx ctx') (hterm : words.Spells term) :
    Accord holes (fun _ result result' => Ty.alphaEq [] result.type result'.type = true)
      (checkTerm fuel ctx term) (checkTerm · ctx' term) := by
  refine (solve_accords words fuel hunique hpair hterm).bind
    fun more _ hunique solved solved' halike => ?_
  refine (generalize_accords hunique halike.type halike.principal).bind
    fun all _ _ result result' halpha => ?_
  exact accord_modify_pure (fun _ => rfl) (fun _ => rfl) halpha

theorem checkBinding_accords (fuel : Nat) (loc : Option Loc) (nameLoc : Loc) (isGlobal : Bool)
    (hunique : Relator.BiUnique holes) (hpair : Pair words holes ctx ctx')
    (hterm : words.Spells term) :
    Accord holes (fun _ binding binding' => ∃ type type', Binding.type? binding = some type ∧
        Binding.type? binding' = some type' ∧ Ty.alphaEq [] type type' = true)
      (checkBinding fuel ctx (.defined term none nameLoc none isGlobal) loc)
      (checkBinding · ctx' (.defined term none nameLoc none isGlobal) loc) :=
  (checkTerm_accords hunique hpair hterm).bind fun _ _ _ _ _ halpha =>
    accord_pure ⟨_, _, rfl, rfl, halpha⟩

/-- A run is alike to itself, so the names that its type mentions are known. -/
theorem checkTerm_within (hctx : ctx.Within words) (hterm : words.Spells term)
    {result : Generalized} (hrun : checkTerm fuel ctx term checker = .ok result final) :
    result.type.holes = [] ∧ result.type.ClosedOver words.Knows := by
  obtain ⟨solved, middle, stamp, hsolved, hgeneralized, -⟩ := checkTerm_eq_ok hrun
  have hpairing := Pairing.none checker.counter checker.counter
  have hself := (solve_accords words fuel hpairing.unique hctx.pair_self hterm).accords hpairing
    fuel
  rw [hsolved] at hself
  obtain ⟨more, -, -, halike⟩ := hself
  have hprincipal : ConstraintsClosedOver words.Knows solved.principal :=
    ConstraintsAlike.closedOver halike.principal
  exact ⟨holes_generalize hgeneralized, generalize_closed (Ty.Like.closedOver halike.type)
    hprincipal hgeneralized⟩

end Terms

section Commands

variable {words : Vocabulary} {name : String} {hname : name ∉ Inference.literalTypes}
  {ctx ctx' : Context} {fuel : Nat} {checker final : Checker}

theorem normalize_within (hctx : ctx.Within words) {written type : Ty}
    (hwritten : written.holes = [] ∧ written.ClosedOver words.Knows)
    (hrun : ctx.normalize loc written = .ok type) :
    type.holes = [] ∧ type.ClosedOver words.Knows := by
  have hpair : Pair words (fun _ _ => False) ctx ctx := hctx.pair_self
  refine ⟨?_, closedOver_normalize hpair.declares hwritten.2 hrun⟩
  have hholes := mem_holes_normalize hpair.closed hrun
  rw [hwritten.1] at hholes
  exact eq_nil_iff_forall_not_mem.mpr fun i hi => not_mem_nil (hholes i hi)

theorem checkCommand_within (hctx : ctx.Within (.without name hname)) {command : Command}
    (hcommand : command.leavesOut name)
    (hrun : checkCommand fuel ctx command checker = .ok ctx' final) :
    ctx'.Within (.without name hname) := by
  have hwritten {type : Ty} (htype : type.leavesOut name = true) :
      type.holes = [] ∧ type.ClosedOver (Vocabulary.without name hname).Knows :=
    ⟨isEmpty_iff.mp (and_eq_true_iff.mp htype).1,
      Vocabulary.closedOver_of_leavesOut htype⟩
  cases checkedCommand_of_ok hrun with
  | evaluate => exact hctx
  | bind hbinding =>
    refine forall_mem_cons.mpr ⟨?_, hctx⟩
    cases checkedBinding_of_ok hbinding with
    | defined hterm =>
      rintro _ ⟨rfl⟩
      have hloose : ctx.Within (Vocabulary.without name hname).loosened := hctx
      exact checkTerm_within hloose (Vocabulary.loosened_spells hcommand) hterm
    | typed htype | typeAlias htype =>
      rintro _ ⟨rfl⟩
      exact normalize_within hctx (hwritten hcommand) htype
    | typeParameter =>
      intro type htype
      cases htype

theorem checkCommands_within (hctx : ctx.Within (.without name hname)) {commands : List Command}
    (hcommands : ∀ command ∈ commands, command.leavesOut name)
    (hrun : checkCommands fuel ctx commands checker = .ok ctx' final) :
    ctx'.Within (.without name hname) :=
  checkCommands_induction (P := fun ctx _ => ctx.Within (.without name hname))
    (fun command hcommand _ _ _ _ hctx hfirst =>
      checkCommand_within hctx (hcommands command hcommand) hfirst) hctx hrun

/-- The built-in declarations mention built-in types only. -/
theorem preludeContext_within (hbuiltin : name ∉ builtinTypes) {globals : Context}
    (hrun : preludeContext fuel checker = .ok globals final) :
    globals.Within (.without name hname) := by
  obtain ⟨commands, hcommands, hdeclares, -⟩ := preludeText_declares
  have hglobal := parseDeclarations_isGlobal hcommands
  simp only [preludeContext, globalContext, bind_eq_ok, ofExcept_eq_ok] at hrun
  obtain ⟨found, _, ⟨hfound, rfl⟩, hrun⟩ := hrun
  obtain rfl : commands = found := by simpa [hcommands] using hfound
  have hnone : Within (.without name hname) [] := by simp [Within]
  refine checkCommands_within hnone (fun command hcommand => ?_) hrun
  have hfree : ∀ other ∈ name :: typeVariableNames, other ∉ builtinTypes := by
    have hletters : ∀ other ∈ typeVariableNames, other ∉ builtinTypes := by decide
    exact forall_mem_cons.mpr ⟨hbuiltin, hletters⟩
  have hleaves {type : Ty} (hholes : type.holes.isEmpty = true)
      (hclosed : type.ClosedOver (· ∈ builtinTypes)) : type.leavesOut name = true := by
    rw [Ty.leavesOut, hholes, Bool.true_and, List.all_eq_true]
    intro other hother
    rw [not_eq_true', eq_false_iff]
    exact fun hmentions => hfree other hother (hclosed other hmentions)
  have hclosed := hdeclares command hcommand
  have hholes := Command.isClosed_of_isGlobal (hglobal command hcommand)
  cases command with
  | evaluate => cases hclosed
  | bind bound binding loc =>
    cases binding with
    | typed | typeAlias => exact hleaves hholes hclosed
    | defined | typeParameter => cases hclosed

end Commands

/-- A declaration that a term does not use has no influence on how the term is checked. The
commands before it are in the same words: their types leave neither the name nor a letter
free. With the declaration and without it the term gets the same type, up to the names of
type parameters, or fails with the same kind of fault at the same place, unless one of the
two runs needs more letters than there are, or more fuel. If one of them lacks neither, then the
other one comes to an outcome with enough fuel. -/
theorem checkBinding_unrelated {globals ctx : Context} {commands : List Command} {name : String}
    {unrelated : Binding} {term : Term} {loc : Option Loc} {nameLoc : Loc} {isGlobal : Bool}
    {preludeFuel commandFuel fuel fuel' stamp : Nat}
    {start loaded before after checker checker' : Checker}
    (hglobals : preludeContext preludeFuel start = .ok globals loaded)
    (hcommands : ∀ command ∈ commands, command.leavesOut name = true)
    (hrun : checkCommands commandFuel globals commands before = .ok ctx after)
    (hunbound : ctx.binds name = false) (hterm : term.isApartFrom name = true) :
    Accords (fun binding _ binding' _ => ∃ type type', binding.type? = some type ∧
        binding'.type? = some type' ∧ Ty.alphaEq [] type type' = true)
      (checkBinding fuel ctx (.defined term none nameLoc none isGlobal) loc checker)
      (checkBinding fuel' (⟨stamp, name, unrelated⟩ :: ctx)
        (.defined term none nameLoc none isGlobal) loc checker') ∧
    (¬IsExcused (checkBinding fuel ctx (.defined term none nameLoc none isGlobal) loc checker) →
      ∃ outcome, ComesTo (checkBinding · (⟨stamp, name, unrelated⟩ :: ctx)
        (.defined term none nameLoc none isGlobal) loc checker') outcome) ∧
    ((∀ type, unrelated.type? = some type → type.holes = []) →
      ¬IsExcused (checkBinding fuel' (⟨stamp, name, unrelated⟩ :: ctx)
        (.defined term none nameLoc none isGlobal) loc checker') →
      ∃ outcome, ComesTo (checkBinding · ctx (.defined term none nameLoc none isGlobal) loc checker)
        outcome) := by
  have hbuiltin : name ∉ builtinTypes := by
    intro hname
    have halias := checkCommands_isSome_alias? hrun
      (.inl ((preludeContext_closed hglobals).2 name hname))
    have hnone : ctx.find? name = none := by simpa [binds] using hunbound
    simp [alias?, hnone] at halias
  have hliteral : name ∉ literalTypes := by
    have hsubset : ∀ literal ∈ literalTypes, literal ∈ builtinTypes := by decide
    exact fun hname => hbuiltin (hsubset name hname)
  have hctx : ctx.Within (.without name hliteral) :=
    checkCommands_within (preludeContext_within hbuiltin hglobals) hcommands hrun
  have hsame : ∀ other, (Vocabulary.without name hliteral).used other →
      Context.find? (⟨stamp, name, unrelated⟩ :: ctx) other = ctx.find? other := by
    intro other hother
    rw [Context.find?_cons, if_neg (of_decide_eq_true hother)]
  have hspells : (Vocabulary.without name hliteral).Spells term :=
    Vocabulary.spells_of_isApartFrom hterm
  have hpairing := Pairing.none checker.counter checker'.counter
  have haccord := checkBinding_accords fuel loc nameLoc isGlobal hpairing.unique
    (hctx.pair hctx.isClosed (fun _ _ => rfl) hsame) hspells
  refine ⟨(haccord.accords hpairing fuel').imp ?_, fun hends => ?_, fun hclosed hends => ?_⟩
  · rintro _ _ _ _ ⟨_, -, -, halpha⟩
    exact halpha
  · exact ((haccord hpairing).resolve_left hends).imp fun _ => And.left
  · have hpairing := Pairing.none checker'.counter checker.counter
    have hback := checkBinding_accords fuel' loc nameLoc isGlobal hpairing.unique
      (hctx.pair (isClosed_cons hctx.isClosed hclosed) hsame fun _ _ => rfl) hspells
    exact ((hback hpairing).resolve_left hends).imp fun _ => And.left

/-- A function without a written type. -/
def lambda (param : String) (body : Term) : Term :=
  .function (some ⟨param, .synthetic⟩) body none .synthetic

/-- Defines `f` as the identity function, with a written type. -/
def identityOn (type : Ty) : Command :=
  .bind "f" (.defined (.function (some ⟨"x", .synthetic⟩) (.reference "x" .synthetic)
    (some (.arrow type type)) .synthetic) none .synthetic none false) .synthetic

/-- A function that gives back a record with `f` and two more functions in it. Two letters are
in use below it when its own parameter gets one. -/
def recordOfFunctions : Term :=
  lambda "x" (.recordExtend "p" (lambda "y" (lambda "z" (.number .synthetic)))
    (.recordExtend "m" (lambda "w" (.number .synthetic))
      (.recordExtend "k" (.reference "f" .synthetic) (.emptyRecord .synthetic) .synthetic)
      .synthetic) .synthetic)

/-- A value that is not used, named by the second of the letters. -/
def unusedNumber (stamp : Nat) : Entry Binding := ⟨stamp, "b", .typed .number .synthetic false⟩

/-- Checks the definition of the record of functions. -/
abbrev checkRecord (ctx : Context) (checker : Checker) (fuel : Nat) :
    EStateM.Result Fault Checker Binding :=
  checkBinding fuel ctx (.defined recordOfFunctions none .synthetic none false) none checker

/-- Checks the record of functions after some commands, without the unused value and with it, and
compares its types. -/
def recordPasses (commands : List Command) (test : Ty → Ty → Bool) : Bool :=
  (preludeContext 60).yields {} fun globals loaded =>
    (checkCommands 60 globals commands).yields loaded fun ctx after => !ctx.binds "b" &&
      CheckM.yields (checkRecord ctx · 60) after fun first _ =>
        CheckM.yields (checkRecord (unusedNumber after.stamp :: ctx) · 60) after fun second _ =>
          first.type?.any fun type => second.type?.any (test type)

theorem exists_checkRecord {commands : List Command} {test : Ty → Ty → Bool}
    (hpasses : recordPasses commands test) :
    ∃ globals ctx loaded after first second final final' type type',
      preludeContext 60 {} = .ok globals loaded ∧
      checkCommands 60 globals commands loaded = .ok ctx after ∧ ctx.binds "b" = false ∧
      checkRecord ctx after 60 = .ok first final ∧
      checkRecord (unusedNumber after.stamp :: ctx) after 60 = .ok second final' ∧
      first.type? = some type ∧ second.type? = some type' ∧ test type type' := by
  obtain ⟨globals, loaded, hglobals, hpasses⟩ := exists_of_yields hpasses
  obtain ⟨ctx, after, hctx, hpasses⟩ := exists_of_yields hpasses
  simp only [and_eq_true, not_eq_true'] at hpasses
  obtain ⟨hunbound, hfirst⟩ := hpasses
  obtain ⟨first, final, hfirst, hsecond⟩ := exists_of_yields hfirst
  obtain ⟨second, final', hsecond, htypes⟩ := exists_of_yields hsecond
  obtain ⟨type, htype, htypes⟩ := (Option.any_eq_true _ _).mp htypes
  obtain ⟨type', htype', htypes⟩ := (Option.any_eq_true _ _).mp htypes
  exact ⟨globals, ctx, loaded, after, first, second, final, final', type, type', hglobals, hctx,
    hunbound, hfirst, hsecond, htype, htype', htypes⟩

/-- If `f` is a function on numbers, then the unused value only changes a letter. More fuel than
is used here changes nothing. -/
theorem checkBinding_unrelated_letter :
    ∃ globals ctx loaded after first second final final' type type',
      preludeContext 60 {} = .ok globals loaded ∧
      checkCommands 60 globals [identityOn .number] loaded = .ok ctx after ∧
      checkRecord ctx after 60 = .ok first final ∧
      checkRecord (unusedNumber after.stamp :: ctx) after 60 = .ok second final' ∧
      first.type? = some type ∧ second.type? = some type' ∧ type.params = ["c"] ∧
      type'.params = ["b"] ∧ Ty.alphaEq [] type type' = true ∧
      ∃ enough, ∀ fuel ≥ enough, checkRecord ctx after fuel = .ok first final ∧
        checkRecord (unusedNumber after.stamp :: ctx) after fuel = .ok second final' := by
  have hpasses : recordPasses [identityOn .number] fun type type' =>
      type.params = ["c"] && type'.params = ["b"] := by
    rw [recordPasses, preludeContext_eq]
    decide +kernel
  obtain ⟨globals, ctx, loaded, after, first, second, final, final', type, type', hglobals, hctx,
    hunbound, hfirst, hsecond, htype, htype', hletters⟩ := exists_checkRecord hpasses
  simp only [and_eq_true, decide_eq_true_eq] at hletters
  have hcommands : ∀ command ∈ [identityOn .number], command.leavesOut "b" = true := by decide
  have hterm : recordOfFunctions.isApartFrom "b" = true := by decide
  obtain ⟨haccords, hruns, hback⟩ : Accords _ (checkRecord ctx after 60)
      (checkRecord (unusedNumber after.stamp :: ctx) after 60) ∧ _ :=
    checkBinding_unrelated hglobals hcommands hctx hunbound hterm
  rw [hfirst, hsecond] at haccords
  obtain ⟨_, _, hsome, hsome', halpha⟩ := haccords
  obtain rfl := Option.some.inj (htype.symm.trans hsome)
  obtain rfl := Option.some.inj (htype'.symm.trans hsome')
  obtain ⟨_, hcomes⟩ := hruns (not_fails_of_ok hfirst)
  obtain ⟨_, hcomes'⟩ := hback (by rintro _ ⟨rfl⟩; rfl) (not_fails_of_ok hsecond)
  obtain ⟨enough, henough⟩ := hcomes.of_ok hsecond
  obtain ⟨enough', henough'⟩ := hcomes'.of_ok hfirst
  exact ⟨globals, ctx, loaded, after, first, second, final, final', type, type', hglobals, hctx,
    hfirst, hsecond, htype, htype', hletters.1, hletters.2, halpha, max enough enough',
    fun fuel hfuel => ⟨henough' fuel (by omega), henough fuel (by omega)⟩⟩

/-- Defines `c` as a number. The name is a letter. -/
def letterValue : Command :=
  .bind "c" (.defined (.number .synthetic) none .synthetic none false) .synthetic

/-- If the type of `f` is written with a value that is named by a letter, then this letter is
chosen for the parameter of the record of functions, which captures it. With the unused value
in scope another letter is chosen, and the type is a different one. -/
theorem checkBinding_unrelated_captured :
    ∃ globals ctx loaded after first second final final' type type',
      preludeContext 60 {} = .ok globals loaded ∧
      checkCommands 60 globals [letterValue, identityOn (.named "c")] loaded = .ok ctx after ∧
      ctx.binds "b" = false ∧ recordOfFunctions.isApartFrom "b" = true ∧
      checkRecord ctx after 60 = .ok first final ∧
      checkRecord (unusedNumber after.stamp :: ctx) after 60 = .ok second final' ∧
      first.type? = some type ∧ second.type? = some type' ∧ type.mentionsName "c" = false ∧
      type'.mentionsName "c" = true ∧ Ty.alphaEq [] type type' = false := by
  have hpasses : recordPasses [letterValue, identityOn (.named "c")] fun type type' =>
      !type.mentionsName "c" && type'.mentionsName "c" && !Ty.alphaEq [] type type' := by
    rw [recordPasses, preludeContext_eq]
    decide +kernel
  obtain ⟨globals, ctx, loaded, after, first, second, final, final', type, type', hglobals, hctx,
    hunbound, hfirst, hsecond, htype, htype', htypes⟩ := exists_checkRecord hpasses
  simp only [and_eq_true, not_eq_true'] at htypes
  exact ⟨globals, ctx, loaded, after, first, second, final, final', type, type', hglobals, hctx,
    hunbound, by decide, hfirst, hsecond, htype, htype', htypes.1.1, htypes.1.2, htypes.2⟩

end RowScript
