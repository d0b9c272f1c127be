import RowScript.Analysis
import RowScript.Proofs.BuiltContexts
import RowScript.Proofs.ReadCommands

/-!
# The contexts that an analysis keeps

An analysis keeps the context that inference built for a term, inside the binding of a value or
under the range of an expression.
-/

namespace RowScript

open Context List

open Context (Heap Grown Mapped MappedBinding)
open Inference (Built)

namespace Context

/-- A context whose types were mapped. Type parameters were declared before and after. -/
def Renamed (f : Ty → Option Ty) (ctx image : Context) : Prop :=
  ∃ own base others : Context, (∀ entry ∈ own, entry.binding = .typeParameter) ∧
    (∀ entry ∈ others, entry.binding = .typeParameter) ∧ Mapped f (own ++ ctx) base ∧
    image = others ++ base

end Context

section Term

variable {table : List Local} {scope ctx added : Context} {term : Term} {S : Context → Prop}
  {fuel stamp : Nat} {checker final : Checker}

theorem Inference.Built.append (hbuilt : Built table scope ctx term)
    (hadded : ∀ entry ∈ added, entry.binding = .typeParameter) :
    Built table scope (added ++ ctx) term := by
  induction added with
  | nil => exact hbuilt
  | cons entry rest ih =>
    obtain ⟨hentry, hrest⟩ := forall_mem_cons.mp hadded
    obtain ⟨stamp, name, binding⟩ := entry
    obtain rfl : binding = .typeParameter := hentry
    exact (ih hrest).cons_typeParameter stamp name

theorem Context.Heap.renamed_nameContext (hheap : Heap none stamp S) (hctx : S ctx)
    (own others naming : Naming) (assignment : Assignment) :
    ctx.Renamed (naming.rename? assignment)
      (Naming.nameContext own others naming assignment ctx stamp).1 := by
  obtain ⟨T, hT, -, hdeclared⟩ := hheap.declare own hctx
  obtain ⟨added, heq, hadded⟩ := own.declare_eq_append ctx stamp
  have hmapped := hT.mapped_mapTypes (f := naming.rename? assignment) hdeclared
  obtain ⟨added', heq', hadded'⟩ := others.declare_eq_append
    ((own.declare ctx stamp).1.mapTypes (naming.rename? assignment) (own.declare ctx stamp).2).1
    ((own.declare ctx stamp).1.mapTypes (naming.rename? assignment) (own.declare ctx stamp).2).2
  exact ⟨added, _, added', hadded, hadded', heq ▸ hmapped, heq'⟩

theorem Inference.Built.renamed {f : Ty → Option Ty} {image : Context}
    (hbuilt : Built table scope ctx term) (hrenamed : ctx.Renamed f image) :
    Built table scope image term := by
  obtain ⟨own, base, others, hown, hothers, hmapped, rfl⟩ := hrenamed
  exact ((hbuilt.append hown).mapped hmapped).append hothers

/-- A term as it was checked: what was solved, and how it was generalized. -/
structure CheckedTerm (fuel : Nat) (term : Term) (kept : Context) where
  scope : Context
  checker : Checker
  solved : Solved
  middle : Checker
  result : Generalized
  stamp : Nat
  solves : solve fuel scope term checker = .ok solved middle
  generalizes : generalize solved.principal solved.type solved.inner (some term.loc) middle.stamp =
    .ok (result, stamp)
  keeps : result.ctx = kept
  built : Built term.locals scope solved.inner term
  renamed : solved.inner.Renamed
    (result.naming.rename? (Assignment.ofConstraints solved.principal)) kept

/-- A term that is checked in a heap has its context in a larger one. -/
theorem checkTerm_kept {result : Generalized} (hheap : Heap none checker.stamp S) (hctx : S ctx)
    (hterm : term.isClosed) (hrun : checkTerm fuel ctx term checker = .ok result final) :
    Nonempty (CheckedTerm fuel term result.ctx) ∧ final.evaluated = checker.evaluated ∧
      Grown none S final.stamp fun T => T result.ctx := by
  obtain ⟨solved, middle, stamp, hsolved, hgeneralize, rfl⟩ := checkTerm_eq_ok hrun
  obtain ⟨hremembered, -, T, hT, hle, hinner⟩ :=
    solvesInHeap_solve fuel hsolved (by simp) hheap hctx
  have hbuilt := solvesBuilt_solve term.locals fuel hsolved hterm
    (Term.follows_of_locals term fun _ hrow => hrow) hheap hctx
  obtain ⟨own, others, -, -, hnamed⟩ := generalize_eq_ok hgeneralize
  have hrenamed := hT.renamed_nameContext hinner.mem own others result.naming
    (Assignment.ofConstraints solved.principal)
  rw [hnamed] at hrenamed
  refine ⟨⟨⟨ctx, checker, solved, middle, result, stamp, hsolved, hgeneralize, rfl, hbuilt,
    hrenamed⟩⟩, congrArg Prod.snd hremembered, ?_⟩
  obtain ⟨-, T', hT', hle', hresult, -⟩ := generalize_settled hgeneralize hT hinner.mem
  exact ⟨T', hT', fun c hc => hle' c (hle c hc), hresult⟩

end Term

/-- A command made an entry of a context. -/
def Command.Makes (fuel : Nat) (entry : Entry Binding) : Command → Prop
  | .bind name (.defined term _ nameLoc _ isGlobal) _ =>
    entry.name = name ∧ ∃ type kept,
      entry.binding = .defined term (some type) nameLoc (some kept) isGlobal ∧
        Nonempty (CheckedTerm fuel term kept)
  | .bind name (.typed _ nameLoc isGlobal) _ =>
    entry.name = name ∧ ∃ type, entry.binding = .typed type nameLoc isGlobal
  | .bind name (.typeAlias _ nameLoc isGlobal) _ =>
    entry.name = name ∧ ∃ type, entry.binding = .typeAlias type nameLoc isGlobal
  | .bind name .typeParameter _ => entry.name = name ∧ entry.binding = .typeParameter
  | .evaluate .. => False

/-- What holds after some commands: the entries of the context are those that they made,
and what is kept for expressions belongs to their terms. -/
structure Followed (fuel : Nat) (commands : List Command) (ctx : Context) (checker : Checker) :
    Prop where
  rest : AtRest ctx checker
  heap : ∃ S, Heap none checker.stamp S ∧ S ctx
  found : ∀ entry ∈ ctx, ctx.find? entry.name = some entry.binding
  made : ∀ entry ∈ ctx, ∃ command ∈ commands, command.Makes fuel entry
  bound : ∀ {name binding loc}, .bind name binding loc ∈ commands →
    ∃ entry ∈ ctx, (Command.bind name binding loc).Makes fuel entry
  evaluated : ∀ {term loc}, .evaluate term loc ∈ commands →
    ∃ kept, checker.evaluated.lookup loc = some kept
  kept : ∀ {loc kept}, checker.evaluated.lookup loc = some kept →
    ∃ term, .evaluate term loc ∈ commands ∧ Nonempty (CheckedTerm fuel term kept)

section Commands

variable {fuel : Nat} {ctx ctx' : Context} {checker final : Checker} {S : Context → Prop}
  {commands : List Command} {command : Command}

theorem lookup_setKey {κ ν : Type} [DecidableEq κ] (key key' : κ) (value : ν)
    (table : List (κ × ν)) :
    (setKey key value table).lookup key' =
      if key' = key then some value else table.lookup key' := by
  rw [setKey, lookup_cons]
  by_cases hkey : key' = key
  · simp [hkey]
  · rw [beq_false_of_ne hkey, if_neg hkey]
    dsimp only
    induction table with
    | nil => rfl
    | cons entry rest ih =>
      by_cases hentry : entry.1 = key
      · have hother : (key' == entry.1) = false := beq_false_of_ne (hentry ▸ hkey)
        rw [filter_cons_of_neg (by simpa using hentry), ih, lookup_cons, hother]
      · rw [filter_cons_of_pos (by simpa using hentry), lookup_cons, ih,
          lookup_cons]

theorem followed_nil (fuel : Nat) : Followed fuel [] [] {} where
  rest := ⟨rfl, rfl, rfl⟩
  heap := by
    refine ⟨fun c => c = [], ⟨nofun, rfl, ?_, ?_, ?_, ?_, ?_⟩, rfl⟩
    all_goals
      intros
      contradiction
  found := by simp
  made := by simp
  bound hmem := by cases hmem
  evaluated hmem := by cases hmem
  kept hfound := by cases hfound

/-- What a name is to stand for belongs to a larger heap once it is checked. -/
theorem checkBinding_kept {binding new : Binding} {loc : Option Loc} (hrest : AtRest ctx checker)
    (hheap : Heap none checker.stamp S) (hctx : S ctx) (hbinding : binding.isClosed)
    (hrun : checkBinding fuel ctx binding loc checker = .ok new final) :
    (∀ stamp name loc, (Command.bind name binding loc).Makes fuel ⟨stamp, name, new⟩) ∧
      final.evaluated = checker.evaluated ∧
      Grown none S final.stamp fun T => T ctx ∧ Fits none T new := by
  obtain ⟨hsettled, -⟩ := checkBinding_settled hrest hbinding hrun
  cases checkedBinding_of_ok hrun with
  | defined hterm =>
    obtain ⟨hchecked, hevaluated, T, hT, hle, hresult⟩ := checkTerm_kept hheap hctx hbinding hterm
    refine ⟨fun _ _ _ => ⟨rfl, _, _, rfl, hchecked⟩, hevaluated, T, hT, hle, hle _ hctx, ?_⟩
    exact fits_of_settledInside hsettled fun _ hinner => Option.some.inj hinner ▸ hresult
  | typed | typeAlias =>
    exact ⟨fun _ _ _ => ⟨rfl, _, rfl⟩, rfl, hheap.grown
      ⟨hctx, fits_of_settledInside hsettled fun _ hinner => by cases hinner⟩⟩
  | typeParameter =>
    exact ⟨fun _ _ _ => ⟨rfl, rfl⟩, rfl, hheap.grown ⟨hctx, fits_typeParameter⟩⟩

theorem checkCommand_followed (hfollowed : Followed fuel commands ctx checker)
    (hcommand : command.isClosed) (hrun : checkCommand fuel ctx command checker = .ok ctx' final) :
    Followed fuel (commands ++ [command]) ctx' final := by
  have hrest := checkCommand_atRest hfollowed.rest hcommand hrun
  obtain ⟨S, hheap, hctx⟩ := hfollowed.heap
  have hcleared : AtRest ctx { checker with instances := [] } :=
    ⟨hfollowed.rest.context, hfollowed.rest.stamps, hfollowed.rest.remembered⟩
  have hheap : Heap none { checker with instances := [] }.stamp S := hheap
  cases checkedCommand_of_ok hrun with
  | @evaluate term loc result middle hterm =>
    obtain ⟨hchecked, hevaluated, T, hT, hle, -⟩ := checkTerm_kept hheap hctx hcommand hterm
    refine ⟨hrest, ⟨T, hT, hle _ hctx⟩, hfollowed.found, fun entry hentry => ?_, fun hmem => ?_,
      fun {term' loc'} hmem => ?_, fun {loc' kept'} hlookup => ?_⟩
    · obtain ⟨command, hmem, hmakes⟩ := hfollowed.made entry hentry
      exact ⟨command, mem_append_left _ hmem, hmakes⟩
    · obtain hmem | hmem := mem_append.mp hmem
      · exact hfollowed.bound hmem
      · simp at hmem
    · rw [lookup_setKey]
      split
      · exact ⟨_, rfl⟩
      · rename_i hne
        obtain hmem | hmem := mem_append.mp hmem
        · obtain ⟨kept, hkept⟩ := hfollowed.evaluated hmem
          exact ⟨kept, hevaluated ▸ hkept⟩
        · simp only [mem_singleton, Command.evaluate.injEq] at hmem
          exact absurd hmem.2 hne
    · rw [lookup_setKey] at hlookup
      split at hlookup
      · rename_i heq
        obtain rfl := Option.some.inj hlookup
        exact ⟨term, mem_append_right _ (by rw [heq]; exact mem_singleton_self _),
          hchecked⟩
      · rw [hevaluated] at hlookup
        obtain ⟨found, hmem, hfound⟩ := hfollowed.kept hlookup
        exact ⟨found, mem_append_left _ hmem, hfound⟩
  | @bind name _ _ _ _ hbinding hfree =>
    obtain ⟨hmakes, hevaluated, T, hT, hle, hctx, hfits⟩ :=
      checkBinding_kept hcleared hheap hctx hcommand hbinding
    obtain ⟨T', hT', -, hextended⟩ := hT.push name hctx hfits
    refine ⟨hrest, ⟨T', hT', hextended⟩, forall_mem_cons.mpr ⟨?_, fun entry hentry => ?_⟩,
      forall_mem_cons.mpr ⟨?_, fun entry hentry => ?_⟩, fun hmem => ?_, fun hmem => ?_,
      fun hlookup => ?_⟩
    · rw [Context.find?_cons, if_pos rfl]
    · exact find?_cons_of_free hfree (hfollowed.found entry hentry)
    · exact ⟨_, mem_append_right _ (mem_singleton_self _), hmakes _ _ _⟩
    · obtain ⟨command, hmem, hcommand⟩ := hfollowed.made entry hentry
      exact ⟨command, mem_append_left _ hmem, hcommand⟩
    · obtain hmem | hmem := mem_append.mp hmem
      · obtain ⟨entry, hentry, hmade⟩ := hfollowed.bound hmem
        exact ⟨entry, mem_cons_of_mem _ hentry, hmade⟩
      · rw [mem_singleton.mp hmem]
        exact ⟨_, mem_cons_self, hmakes _ _ _⟩
    · obtain hmem | hmem := mem_append.mp hmem
      · obtain ⟨kept, hkept⟩ := hfollowed.evaluated hmem
        exact ⟨kept, hevaluated ▸ hkept⟩
      · simp at hmem
    · obtain ⟨term, hmem, hterm⟩ := hfollowed.kept (hevaluated ▸ hlookup)
      exact ⟨term, mem_append_left _ hmem, hterm⟩

theorem checkCommands_followed {more : List Command}
    (hfollowed : Followed fuel commands ctx checker) (hmore : ∀ command ∈ more, command.isClosed)
    (hrun : checkCommands fuel ctx more checker = .ok ctx' final) :
    Followed fuel (commands ++ more) ctx' final := by
  induction more generalizing commands ctx checker with
  | nil =>
    obtain ⟨rfl, rfl⟩ := CheckM.pure_eq_ok.mp hrun
    rwa [append_nil]
  | cons command rest ih =>
    obtain ⟨hcommand, hrest⟩ := forall_mem_cons.mp hmore
    simp only [checkCommands, foldlM_cons, CheckM.bind_eq_ok] at hrun
    obtain ⟨middleCtx, middle, hfirst, hrun⟩ := hrun
    rw [append_cons]
    exact ih (checkCommand_followed hfollowed hcommand hfirst) hrest hrun

theorem Analysis.advance_eq_ok {analysis result : Analysis} (hfault : result.fault = none)
    (hrun : analysis.advance fuel commands = .ok result) :
    checkCommands fuel analysis.ctx commands analysis.checker = .ok result.ctx result.checker ∧
      result.commands = analysis.commands ++ commands := by
  induction commands generalizing analysis with
  | nil =>
    obtain rfl := Except.ok.inj hrun
    exact ⟨rfl, (append_nil _).symm⟩
  | cons command rest ih =>
    rw [Analysis.advance] at hrun
    split at hrun
    · rename_i ctx checker hcommand
      obtain ⟨hchecked, hcommands⟩ := ih hrun
      refine ⟨?_, by rw [hcommands, append_assoc]; rfl⟩
      simp only [checkCommands, foldlM_cons, CheckM.bind_eq_ok]
      exact ⟨ctx, checker, hcommand, hchecked⟩
    · rw [Analysis.stop] at hrun
      split at hrun
      · obtain rfl := Except.ok.inj hrun
        cases hfault
      · cases hrun

theorem globalContext_followed {text : List Char}
    (hrun : globalContext fuel text {} = .ok ctx final) :
    ∃ globals, (∀ command ∈ globals, command.isGlobal) ∧ Followed fuel globals ctx final := by
  simp only [globalContext, CheckM.bind_eq_ok, CheckM.ofExcept_eq_ok] at hrun
  obtain ⟨globals, _, ⟨hglobals, rfl⟩, hrun⟩ := hrun
  have hglobal := parseDeclarations_isGlobal hglobals
  exact ⟨globals, hglobal, checkCommands_followed (followed_nil fuel)
    (fun command hcommand => Command.isClosed_of_isGlobal (hglobal command hcommand)) hrun⟩

section Analyze

variable {declarations text : List Char} {analysis : Analysis}
  (hrun : analyze fuel {} (globalContext fuel declarations) text = .ok analysis)
  (hfault : analysis.fault = none)

include hrun hfault

/-- An analysis without fault has checked the global declarations and then the script. -/
theorem analyze_eq_ok :
    parseScript text = .ok analysis.commands ∧
      ∃ ctx checker, globalContext fuel declarations {} = .ok ctx checker ∧
        checkCommands fuel ctx analysis.commands checker = .ok analysis.ctx analysis.checker := by
  unfold analyze at hrun
  split at hrun
  · cases hrun
  · rename_i ctx checker hglobals
    split at hrun
    · rw [Analysis.stop] at hrun
      split at hrun
      · obtain rfl := Except.ok.inj hrun
        cases hfault
      · cases hrun
    · rename_i commands hparse
      obtain ⟨hchecked, hcommands⟩ := Analysis.advance_eq_ok hfault hrun
      rw [hcommands]
      exact ⟨hparse, ctx, checker, hglobals, hchecked⟩

/-- After an analysis without fault, what is known of the commands of the script and of
the global declarations before them. -/
theorem analyze_followed :
    parseScript text = .ok analysis.commands ∧
      ∃ globals, (∀ command ∈ globals, command.isGlobal) ∧
        Followed fuel (globals ++ analysis.commands) analysis.ctx analysis.checker := by
  obtain ⟨hparse, ctx, checker, hglobals, hchecked⟩ := analyze_eq_ok hrun hfault
  obtain ⟨globals, hglobal, hfollowed⟩ := globalContext_followed hglobals
  exact ⟨hparse, globals, hglobal,
    checkCommands_followed hfollowed (parseScript_isClosed hparse) hchecked⟩

end Analyze

end Commands

end RowScript
