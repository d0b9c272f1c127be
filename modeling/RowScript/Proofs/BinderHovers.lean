import RowScript.Proofs.BinderTypes
import RowScript.Proofs.Hovers
import RowScript.Proofs.LaterCommands

/-!
# What hovering over a local name shows

Hovering over a parameter or a local declaration shows the type that inference gave to it, with all
that was decided on its placeholders put in as it is. So a type parameter of the given type can
capture a letter.
-/

namespace RowScript

open Context Assignment Finder Option List

open Context (Heap Mapped)
open Inference (Given Ready Traced Way)

/-! ## Types put in the place of placeholders -/

namespace Ty

/-- Whether a type that is put in the place of a placeholder mentions a type parameter
around it. -/
def captures (f : Nat → Ty) : Ty → Bool
  | .ident .. | .hole _ | .emptyRow => false
  | .arrow a b | .app a b _ | .field _ a b => captures f a || captures f b
  | .generic param body => body.holes.any (fun id => (f id).mentionsName param) || captures f body
  | .record row _ => captures f row

/-- Where nothing is captured, the names that are free are those that were free before, and
those that are free in what was put in. -/
theorem mentionsName_bindHoles {f : Nat → Ty} (ty : Ty) (hcaptures : ty.captures f = false)
    (name : String) :
    (ty.bindHoles f).mentionsName name =
      (ty.mentionsName name || ty.holes.any fun id => (f id).mentionsName name) := by
  induction ty with
  | ident n loc | hole id | emptyRow => simp [bindHoles, mentionsName, holes]
  | record row label ih => simpa [bindHoles, mentionsName, holes] using ih hcaptures
  | arrow a b iha ihb | app a b loc iha ihb | field key a b iha ihb =>
    rw [captures, Bool.or_eq_false_iff] at hcaptures
    simp only [bindHoles, mentionsName, holes, iha hcaptures.1, ihb hcaptures.2,
      any_append]
    ac_rfl
  | generic param body ih =>
    rw [captures, Bool.or_eq_false_iff] at hcaptures
    rw [bindHoles, mentionsName, ih hcaptures.2, mentionsName, holes]
    by_cases hparam : param = name
    · subst hparam
      simpa using hcaptures.1
    · simp [hparam]

theorem decided_eq_bindHoles (decisions : List (Nat × Ty)) (ty : Ty) :
    ty.decided decisions = ty.bindHoles fun id => (hole id).decided decisions := by
  induction decisions generalizing ty with
  | nil => exact (bindHoles_hole ty).symm
  | cons decision rest ih =>
    rw [decided, foldl_cons, ← decided, ih, replaceHole, bindHoles_bindHoles]
    refine bindHoles_congr fun i _ => ?_
    rw [decided, foldl_cons, ← decided, replaceHole, bindHoles, ← ih]

end Ty

/-- Naming the placeholders that are left goes placeholder by placeholder. -/
theorem Naming.rename?_getD (naming : Naming) (assignment : Assignment) (ty : Ty) :
    (naming.rename? assignment ty).getD ty = (assignment.resolve ty).withNames naming := by
  rw [rename?]
  split
  · rename_i hholes
    have hholes := isEmpty_iff.mp hholes
    rw [assignment.resolve_eq_bindHoles, Ty.bindHoles_of_holes_eq_nil hholes, Ty.withNames,
      Ty.bindHoles_of_holes_eq_nil hholes]
    rfl
  · rfl

/-! ## Marks of local names -/

/-- The mark of a local name. It is looked up from inside the values of some declarations. -/
structure Mark.Declares (mark : Mark) (row : Local) (names : List String) (ctx : Context) :
    Prop where
  name_eq : mark.name = row.name
  loc_eq : mark.loc = row.loc
  kind_ne : mark.kind ≠ .variableUsage
  ctx_eq : mark.ctx = names.foldl innerContext ctx

namespace Term

variable {row : Local} {ctx : Context} {isOpen : Bool} {n : String} {a b : List String}

theorem map_name_locals (term : Term) : term.locals.map Local.name = term.binders := by
  induction term using induct with
  | array elements _ ih =>
    rw [locals, binders]
    induction elements with
    | nil => rfl
    | cons term rest ihrest => simp_all [localsIn, bindersIn]
  | function param => cases param <;> simp_all [locals, binders]
  | _ => simp_all [locals, binders]

theorem mem_binders_of_mem_locals (term : Term) (hrow : row ∈ term.locals) :
    row.name ∈ term.binders := by
  rw [← map_name_locals]
  exact mem_map_of_mem hrow

theorem count_left (hcount : (a ++ b).count n ≤ 1) : a.count n ≤ 1 :=
  Nat.le_trans ((sublist_append_left a b).count_le n) hcount

theorem count_right (hcount : (a ++ b).count n ≤ 1) : b.count n ≤ 1 :=
  Nat.le_trans ((sublist_append_right a b).count_le n) hcount

open Inference (not_mem_of_count)

/-- A local name that is bound once has a mark, which is looked up from inside the values
of the declarations around it. -/
theorem exists_mark_of_mem_locals (term : Term) (ctx : Context) (isOpen : Bool)
    (hrow : row ∈ term.locals) (honce : term.binders.count row.name ≤ 1) :
    ∃ mark ∈ term.marks ctx isOpen, mark.Declares row (term.around row.name) ctx := by
  induction term using induct generalizing ctx isOpen with
  | function param body _ _ ih =>
    cases param with
    | none => simpa [marks, around] using ih ctx isOpen hrow honce
    | some param =>
      rw [marks, around]
      obtain hown | hrow := mem_append.mp hrow
      · obtain rfl := mem_singleton.mp hown
        rw [if_pos (by simp)]
        exact ⟨_, mem_cons_self, rfl, rfl, by simp, rfl⟩
      · have hne : param.name ≠ row.name := by
          intro heq
          exact not_mem_of_count honce (by simp [heq]) (mem_binders_of_mem_locals body hrow)
        rw [if_neg (by simpa using hne)]
        exact exists_mark_right (a := [_]) (ih ctx isOpen hrow (count_right honce))
  | letIn own value body nameLoc loc ihvalue ihbody =>
    rw [binders, ← singleton_append] at honce
    rw [marks, around]
    have hrest := count_right honce
    obtain rfl | hrow := mem_cons.mp hrow
    · rw [if_pos rfl]
      exact ⟨_, mem_cons_self, rfl, rfl, by simp, rfl⟩
    · have hne : own ≠ row.name := by
        intro heq
        refine not_mem_of_count honce (heq ▸ mem_singleton_self _) ?_
        exact mem_append.mpr ((mem_append.mp hrow).imp
          (mem_binders_of_mem_locals value) (mem_binders_of_mem_locals body))
      rw [if_neg hne]
      refine exists_mark_right (a := [_]) ?_
      obtain hrow | hrow := mem_append.mp hrow
      · rw [if_pos (mem_binders_of_mem_locals value hrow)]
        obtain ⟨mark, hmark, hdeclares⟩ :=
          ihvalue (innerContext ctx own) isOpen hrow (count_left hrest)
        exact ⟨mark, mem_append_left _ hmark, hdeclares.name_eq, hdeclares.loc_eq,
          hdeclares.kind_ne, hdeclares.ctx_eq⟩
      · rw [if_neg fun hvalue =>
          not_mem_of_count hrest hvalue (mem_binders_of_mem_locals body hrow)]
        exact exists_mark_right (ihbody ctx isOpen hrow (count_right hrest))
  | application a b _ iha ihb =>
    rw [marks, around]
    obtain hrow | hrow := mem_append.mp hrow
    · rw [if_pos (mem_binders_of_mem_locals a hrow)]
      exact exists_mark_left (iha ctx isOpen hrow (count_left honce))
    · rw [if_neg fun ha => not_mem_of_count honce ha (mem_binders_of_mem_locals b hrow)]
      exact exists_mark_right (ihb ctx isOpen hrow (count_right honce))
  | recordExtend key value record loc ihvalue ihrecord =>
    rw [marks, around]
    obtain hrow | hrow := mem_append.mp hrow
    · rw [if_neg (not_mem_of_count honce (mem_binders_of_mem_locals value hrow))]
      exact exists_mark_right (ihvalue ctx _ hrow (count_left honce))
    · rw [if_pos (mem_binders_of_mem_locals record hrow)]
      exact exists_mark_left (ihrecord ctx isOpen hrow (count_right honce))
  | conditional a b c _ iha ihb ihc =>
    rw [marks, around]
    have hfirst := count_left honce
    obtain hrow | hrow := mem_append.mp hrow
    · refine exists_mark_left ?_
      obtain hrow | hrow := mem_append.mp hrow
      · rw [if_pos (mem_binders_of_mem_locals a hrow)]
        exact exists_mark_left (iha ctx isOpen hrow (count_left hfirst))
      · rw [if_neg fun ha => not_mem_of_count hfirst ha (mem_binders_of_mem_locals b hrow),
          if_pos (mem_binders_of_mem_locals b hrow)]
        exact exists_mark_right (ihb ctx isOpen hrow (count_right hfirst))
    · have hc := mem_binders_of_mem_locals c hrow
      rw [if_neg fun ha => not_mem_of_count honce (mem_append_left _ ha) hc,
        if_neg fun hb => not_mem_of_count honce (mem_append_right _ hb) hc]
      exact exists_mark_right (ihc ctx isOpen hrow (count_right honce))
  | recordRestrict _ _ _ ih | fieldAccess _ _ _ ih => exact ih ctx isOpen hrow honce
  | array elements _ ih =>
    rw [marks, around]
    rw [binders] at honce
    induction elements with
    | nil => cases hrow
    | cons term rest ihrest =>
      rw [forall_mem_cons] at ih
      rw [marksAll, aroundIn]
      obtain hrow | hrow := mem_append.mp hrow
      · rw [if_pos (mem_binders_of_mem_locals term hrow)]
        exact exists_mark_left (ih.1 ctx isOpen hrow (count_left honce))
      · obtain ⟨found, hfound, hown⟩ := mem_localsIn.mp hrow
        rw [if_neg fun hterm => not_mem_of_count honce hterm
          (mem_bindersIn.mpr ⟨found, hfound, mem_binders_of_mem_locals found hown⟩)]
        exact exists_mark_right (ihrest ih.2 hrow (count_right honce))
  | reference | boolean | number | string | unit | emptyRecord => cases hrow

end Term

/-! ## The context at the end of the way -/

section Lookup

variable {way : Way} {inside : String → Bool} {name : String} {type : Ty} {ctx : Context}

theorem Context.Says.find? {P : Binding → Prop} {binding : Binding} (hsaid : ctx.Says [name] P)
    (hfind : ctx.find? name = some binding) : binding = .typeParameter ∨ P binding := by
  obtain ⟨entry, hentry, rfl⟩ := map_eq_some_iff.mp hfind
  have hname : entry.name = name := by simpa using find?_some hentry
  exact hsaid entry (mem_of_find?_eq_some hentry) (mem_singleton.mpr hname)

/-- At the end of its way, a search finds the name with its type, if no declaration for
which a context was kept is hidden by a type parameter. -/
theorem Inference.Way.Shows.says (hinside : ∀ own, (own, true) ∈ way → inside own)
    (hplain : ∀ n, inside n → n ∉ ctx.typeParameters inside) (hentered : way.Entered ctx)
    (hshows : way.Shows name type ctx) :
    ((way.map Prod.fst).foldl innerContext ctx).Says [name] (Binding.IsLocal type) := by
  induction way generalizing ctx with
  | nil => exact shows_nil.mp hshows
  | cons step way ih =>
    obtain ⟨own, kept⟩ := step
    have hrest : ∀ own, (own, true) ∈ way → inside own :=
      fun own hown => hinside own (mem_cons_of_mem _ hown)
    rw [map_cons, foldl_cons]
    cases kept with
    | true =>
      have hown := hinside own mem_cons_self
      obtain ⟨binding, hfind⟩ := isSome_iff_exists.mp hentered
      obtain ⟨term, ownType, loc, inner, rfl, henteredInner, hinner⟩ :=
        (Says.find? (shows_kept.mp hshows) hfind).resolve_left
          (ne_typeParameter (hplain own hown) hfind)
      have hctx : innerContext ctx own = inner := by rw [innerContext, hfind]
      rw [hctx]
      refine ih hrest (fun n hn hparameter => hplain n hn ?_) henteredInner hinner
      refine bindingParameters_subset hfind n ?_
      rwa [bindingParameters, hown, if_pos rfl]
    | false =>
      obtain ⟨honce, hshows⟩ := shows_once.mp hshows
      have hctx : innerContext ctx own = ctx := by
        unfold innerContext
        split
        · rename_i hfind
          obtain hbinding | ⟨_, _, hbinding⟩ := Says.find? honce hfind
          · cases hbinding
          · cases hbinding
        · rfl
      rw [hctx]
      exact ih hrest hplain hentered hshows

theorem Context.Says.valueSymbol_type {kind : SymbolKind} {symbol : Symbol}
    (hsaid : ctx.Says [name] (Binding.IsLocal type))
    (hsymbol : valueSymbol ctx kind name = some symbol) :
    symbol.name = name ∧ symbol.type = some type := by
  unfold valueSymbol at hsymbol
  split at hsymbol
  · rename_i hfind
    obtain rfl := some.inj hsymbol
    obtain hbinding | ⟨_, hbinding⟩ | ⟨_, _, _, hbinding⟩ := Says.find? hsaid hfind
    · cases hbinding
    · cases hbinding
      exact ⟨rfl, rfl⟩
    · cases hbinding
  · rename_i hfind
    obtain rfl := some.inj hsymbol
    obtain hbinding | ⟨_, hbinding⟩ | ⟨_, _, _, hbinding⟩ := Says.find? hsaid hfind
    · cases hbinding
    · cases hbinding
    · cases hbinding
      exact ⟨rfl, rfl⟩
  · cases hsymbol

end Lookup

theorem Inference.Traced.renamed {table : List Local} {name : String} {type : Ty}
    {names : List String} {way : Way} {ctx image : Context} {f : Ty → Option Ty}
    (htraced : Traced table name type names way ctx) (hrenamed : ctx.Renamed f image) :
    Traced table name ((f type).getD type) names way image := by
  obtain ⟨own, base, others, hown, hothers, hmapped, rfl⟩ := hrenamed
  have hbase := htraced.append hown
  have himage : Traced table name ((f type).getD type) names way base :=
    ⟨hbase.names, hbase.inlined, hbase.entered.of_binds fun hbinds => hmapped.binds.trans hbinds,
      hbase.shows.mapped hmapped⟩
  exact himage.append hothers

/-! ## The run of a command -/

/-- How the term of a command was checked, after the global declarations and the commands
before it. -/
structure TermRun (fuel : Nat) (declarations : List Char) (before : List Command)
    (term : Term) where
  scope : Context
  checker : Checker
  solved : Solved
  middle : Checker
  result : Generalized
  stamp : Nat
  reached : (globalContext fuel declarations >>= fun ctx => checkCommands fuel ctx before) {} =
    .ok scope checker
  solves : solve fuel scope term { checker with instances := [] } = .ok solved middle
  generalizes : generalize solved.principal solved.type solved.inner (some term.loc) middle.stamp =
    .ok (result, stamp)

namespace TermRun

variable {fuel : Nat} {declarations : List Char} {before : List Command} {term : Term}

/-- What a placeholder stands for in the end, given what was decided on it by the functions
around it. The rest is decided by solving the whole term and by naming what is left. -/
def standsFor (run : TermRun fuel declarations before term) (decisions : List (Nat × Ty))
    (id : Nat) : Ty :=
  ((ofConstraints run.solved.principal).resolve
    ((Ty.hole id).decided decisions)).withNames run.result.naming

/-- The type that a local name was given, once everything is decided. -/
theorem rename?_final (run : TermRun fuel declarations before term) (given : Given) :
    (run.result.naming.rename? (ofConstraints run.solved.principal) given.final).getD
      given.final = given.type.bindHoles (run.standsFor given.decisions) := by
  rw [Naming.rename?_getD, Given.final, Ty.decided_eq_bindHoles, resolve_eq_bindHoles,
    Ty.withNames, Ty.bindHoles_bindHoles, Ty.bindHoles_bindHoles]
  refine Ty.bindHoles_congr fun id _ => ?_
  rw [standsFor, resolve_eq_bindHoles, Ty.withNames, Ty.bindHoles_bindHoles]

/-- The context that is kept for a term has its local names with the types that they were
given. -/
theorem traced (run : TermRun fuel declarations before term) {S : Context → Prop}
    (hready : Ready S run.scope { run.checker with instances := [] }) (hterm : term.isClosed = true)
    {name : String} (hname : name ∈ term.binders)
    (honce : term.BindsOnce (name :: term.around name)) :
    ∃ given last way,
      givenType name fuel run.scope term { run.checker with instances := [] } = .ok given last ∧
        Traced term.locals name (given.type.bindHoles (run.standsFor given.decisions))
          (term.around name) way run.result.ctx := by
  obtain ⟨given, last, way, hgiven, htraced⟩ := solvesTracing_solve term.locals name fuel run.solves
    hterm (term.follows_of_locals fun _ hrow => hrow) hready hname honce
  obtain ⟨T, hT, hinner, -⟩ := hready.run (Inference.regular_solve fuel) hterm run.solves
  obtain ⟨own, others, -, -, hnamed⟩ := generalize_eq_ok run.generalizes
  have hrenamed := hT.heap.renamed_nameContext hinner own others run.result.naming
    (ofConstraints run.solved.principal)
  rw [hnamed] at hrenamed
  refine ⟨given, last, way, hgiven, ?_⟩
  rw [← run.rename?_final]
  exact htraced.renamed hrenamed

end TermRun

section Runs

variable {fuel : Nat} {ctx ctx' : Context} {checker final : Checker} {commands after : List Command}
  {command : Command}

/-- A command keeps the entries before it, and what is kept for other expressions. -/
theorem checkCommand_keeps (hfollowed : Followed fuel commands ctx checker)
    (hcommand : command.isClosed) (hrun : checkCommand fuel ctx command checker = .ok ctx' final) :
    (∀ entry ∈ ctx, entry ∈ ctx') ∧ ∀ loc, (∀ term, command ≠ .evaluate term loc) →
      final.evaluated.lookup loc = checker.evaluated.lookup loc := by
  refine ⟨fun entry hentry => ?_, fun loc hloc => ?_⟩
  · obtain ⟨added, rfl, -⟩ := Analysis.checkCommand_added hrun
    exact mem_append_right _ hentry
  · obtain ⟨S, hheap, hctx⟩ := hfollowed.heap
    have hheap : Heap none { checker with instances := [] }.stamp S := hheap
    cases checkedCommand_of_ok hrun with
    | @evaluate term own _ _ hterm =>
      obtain ⟨-, hevaluated, -⟩ := checkTerm_kept hheap hctx hcommand hterm
      rw [lookup_setKey, if_neg fun heq : loc = own => hloc term (heq ▸ rfl), hevaluated]
    | @bind _ _ _ _ middle hbinding =>
      have hrest : AtRest ctx { checker with instances := [] } :=
        ⟨hfollowed.rest.context, hfollowed.rest.stamps, hfollowed.rest.remembered⟩
      obtain ⟨-, hevaluated, -⟩ := checkBinding_kept hrest hheap hctx hcommand hbinding
      show middle.evaluated.lookup loc = _
      rw [hevaluated]

theorem checkCommands_keeps (hfollowed : Followed fuel commands ctx checker)
    (hafter : ∀ command ∈ after, command.isClosed)
    (hrun : checkCommands fuel ctx after checker = .ok ctx' final) :
    (∀ entry ∈ ctx, entry ∈ ctx') ∧ ∀ loc, (∀ term, .evaluate term loc ∉ after) →
      final.evaluated.lookup loc = checker.evaluated.lookup loc := by
  induction after generalizing commands ctx checker with
  | nil =>
    obtain ⟨rfl, rfl⟩ := CheckM.pure_eq_ok.mp hrun
    exact ⟨fun _ hentry => hentry, fun _ _ => rfl⟩
  | cons command rest ih =>
    obtain ⟨hcommand, hrest⟩ := forall_mem_cons.mp hafter
    simp only [checkCommands, foldlM_cons, CheckM.bind_eq_ok] at hrun
    obtain ⟨middleCtx, middle, hfirst, hrun⟩ := hrun
    obtain ⟨hentries, hlookups⟩ := checkCommand_keeps hfollowed hcommand hfirst
    obtain ⟨hentries', hlookups'⟩ :=
      ih (checkCommand_followed hfollowed hcommand hfirst) hrest hrun
    refine ⟨fun entry hentry => hentries' entry (hentries entry hentry), fun loc hloc => ?_⟩
    rw [hlookups' loc fun term hterm => hloc term (mem_cons_of_mem _ hterm),
      hlookups loc fun term heq => hloc term (heq ▸ mem_cons_self)]

end Runs

section Symbol

variable {fuel : Nat} {declarations text : List Char} {analysis : Analysis}
  {before after : List Command} {command : Command} {term : Term}

/-- The context that an analysis has kept for a command is the one of the command's run. -/
theorem Analysis.exists_termRun
    (hrun : analyze fuel {} (globalContext fuel declarations) text = .ok analysis)
    (hfault : analysis.fault = none) (hcommands : analysis.commands = before ++ command :: after)
    (hterm : command.term? = some term)
    (hafter : ∀ own loc, command = .evaluate own loc → ∀ other, .evaluate other loc ∉ after) :
    ∃ run : TermRun fuel declarations before term, analysis.kept? command = some run.result.ctx ∧
      ∃ S, Ready S run.scope { run.checker with instances := [] } := by
  obtain ⟨hparse, ctx, checker, hglobals, hchecked⟩ := analyze_eq_ok hrun hfault
  obtain ⟨-, _, -, hend⟩ := analyze_followed hrun hfault
  obtain ⟨globals, -, hfollowed⟩ := globalContext_followed hglobals
  have hclosed := parseScript_isClosed hparse
  rw [hcommands] at hclosed
  obtain ⟨hbeforeClosed, hclosed⟩ := forall_mem_append.mp hclosed
  obtain ⟨hcommandClosed, hafterClosed⟩ := forall_mem_cons.mp hclosed
  simp only [hcommands, checkCommands, foldlM_append, foldlM_cons, CheckM.bind_eq_ok]
    at hchecked
  obtain ⟨scope, start, hbefore, ctx₁, c₁, hcommand, hrest⟩ := hchecked
  have hscope := checkCommands_followed hfollowed hbeforeClosed hbefore
  have hreached :
      (globalContext fuel declarations >>= fun ctx => checkCommands fuel ctx before) {} =
        .ok scope start := CheckM.bind_eq_ok.mpr ⟨ctx, checker, hglobals, hbefore⟩
  obtain ⟨hentries, hlookups⟩ := checkCommands_keeps
    (checkCommand_followed hscope hcommandClosed hcommand) hafterClosed hrest
  obtain ⟨S, hheap, hmem⟩ := hscope.heap
  have hready : Ready S scope { start with instances := [] } :=
    ⟨hheap, hmem, issuedBy_of_isSettled hscope.rest.context⟩
  cases checkedCommand_of_ok hcommand with
  | @evaluate own loc result middle hrun =>
    obtain rfl := some.inj hterm
    obtain ⟨solved, last, stamp, hsolves, hgeneralizes, -⟩ := checkTerm_eq_ok hrun
    refine ⟨⟨scope, start, solved, last, result, stamp, hreached, hsolves, hgeneralizes⟩, ?_, S,
      hready⟩
    rw [Analysis.kept?, hlookups loc (hafter own loc rfl), lookup_setKey, if_pos rfl]
  | bind hbinding =>
    cases checkedBinding_of_ok hbinding with
    | @defined own _ _ _ _ result _ hrun =>
      obtain rfl := some.inj hterm
      obtain ⟨solved, last, stamp, hsolves, hgeneralizes, -⟩ := checkTerm_eq_ok hrun
      refine ⟨⟨scope, start, solved, last, result, stamp, hreached, hsolves, hgeneralizes⟩, ?_, S,
        hready⟩
      have hfound := hend.found _ (hentries _ mem_cons_self)
      rw [Analysis.kept?, hfound]
      rfl
    | typed | typeAlias | typeParameter => cases hterm

theorem Command.isClosed_of_term? (hterm : command.term? = some term)
    (hclosed : command.isClosed) : term.isClosed := by
  cases command with
  | evaluate own loc =>
    obtain rfl := some.inj hterm
    exact hclosed
  | bind name binding loc =>
    cases binding with
    | defined own type nameLoc inner isGlobal =>
      obtain rfl := some.inj hterm
      exact hclosed
    | typed | typeAlias | typeParameter => cases hterm

theorem Command.covers_mark {commands : List Command} (hparse : parseScript text = .ok commands)
    (hcommand : command ∈ commands) (hterm : command.term? = some term) {mark : Mark}
    {ctx : Context} {isOpen : Bool} (hmark : mark ∈ term.marks ctx isOpen) :
    command.covers mark.loc.start := by
  have hlaid := parseScript_laid hparse _ hcommand
  cases command with
  | evaluate own loc =>
    obtain rfl := some.inj hterm
    obtain ⟨-, lo, hi, hlo, hhi, hlaid⟩ := hlaid
    have hinside := Term.mark_inside own hlaid hmark
    have hat : (ofPosition mark.loc.start []).isAt loc :=
      isAt_start ⟨le_trans hlo hinside.start, hinside.ordered, le_trans hinside.stop hhi⟩
    exact hat
  | bind name binding loc =>
    cases binding with
    | defined own type nameLoc inner isGlobal =>
      obtain rfl := some.inj hterm
      obtain ⟨-, lo, hi, -, -, hlaid⟩ := hlaid
      rw [Command.covers, Bool.or_eq_true]
      have hat : (ofPosition mark.loc.start []).isAt own.loc :=
        isAt_start (Term.mark_inside_loc hlaid hmark)
      exact .inr hat
    | typed | typeAlias | typeParameter => cases hterm

/-- Hovering over a parameter or a local declaration shows the type that inference gave to
it, with what its placeholders stand for put in. If no type parameter captures a name that
is put in, the free names of the type shown are those of the given type and of what was put
in. The name and the names of the declarations around it are bound once in the command, no
other command covers the position, and no local value that may be inlined is spelled like a
type variable of the command. -/
theorem Analysis.symbolAt_binder {row : Local} {symbol : Symbol}
    (hrun : analyze fuel {} (preludeContext fuel) text = .ok analysis)
    (hfault : analysis.fault = none) (hcommands : analysis.commands = before ++ command :: after)
    (hterm : command.term? = some term) (hrow : row ∈ term.locals)
    (honce : term.BindsOnce (row.name :: term.around row.name))
    (halone : ∀ other ∈ before ++ after, other.covers row.loc.start = false)
    (hinlined : ∀ n, Local.inlined term.locals n = true → analysis.hides command n = false)
    (hsymbol : analysis.symbolAt row.loc.start.line row.loc.start.column = some symbol) :
    ∃ (run : TermRun fuel preludeText.toList before term) (given : Given) (last : Checker),
      givenType row.name fuel run.scope term { run.checker with instances := [] } = .ok given last ∧
      symbol.name = row.name ∧
      symbol.type = some (given.type.bindHoles (run.standsFor given.decisions)) ∧
      (given.type.captures (run.standsFor given.decisions) = false → ∀ name,
        (given.type.bindHoles (run.standsFor given.decisions)).mentionsName name =
          (given.type.mentionsName name ||
            given.type.holes.any fun id =>
              (run.standsFor given.decisions id).mentionsName name)) := by
  obtain ⟨hparse, -⟩ := analyze_eq_ok hrun hfault
  have hcommand : command ∈ analysis.commands := by simp [hcommands]
  have hname := Term.mem_binders_of_mem_locals term hrow
  have hcount := honce row.name mem_cons_self
  have hclosed : term.isClosed = true := Command.isClosed_of_term? hterm
    (parseScript_isClosed hparse command hcommand)
  -- an expression behind the command has another range, as it does not cover the name
  have hafter : ∀ own loc, command = .evaluate own loc → ∀ other, .evaluate other loc ∉ after := by
    rintro own loc rfl other hother
    obtain ⟨place, hplace, hdeclares⟩ := term.exists_mark_of_mem_locals [] true hrow hcount
    have hcovers := Command.covers_mark hparse hcommand hterm hplace
    rw [hdeclares.loc_eq] at hcovers
    have hother := halone _ (mem_append_right _ hother)
    rw [Command.covers] at hcovers hother
    rw [hcovers] at hother
    cases hother
  obtain ⟨run, hkept, S, hready⟩ := exists_termRun hrun hfault hcommands hterm hafter
  obtain ⟨given, last, way, hgiven, htraced⟩ := run.traced hready hclosed hname honce
  refine ⟨run, given, last, hgiven, ?_⟩
  obtain ⟨mark, hmark, hdeclares⟩ := term.exists_mark_of_mem_locals run.result.ctx true hrow hcount
  have halone' : ∀ other ∈ analysis.commands, other.covers mark.loc.start = true →
      other = command := by
    intro other hother hcovers
    rw [hcommands, mem_append, mem_cons] at hother
    rw [hdeclares.loc_eq] at hcovers
    by_contra hne
    have hnot := halone other (mem_append.mpr (hother.imp_right fun h => h.resolve_left hne))
    rw [hcovers] at hnot
    cases hnot
  obtain ⟨-, hfinds⟩ := symbolAt_mark hrun hfault hcommand hterm hkept hmark halone'
  rw [hdeclares.loc_eq, hsymbol, Finder.FindsMark] at hfinds
  have hplain : ∀ n, Local.inlined term.locals n = true →
      n ∉ run.result.ctx.typeParameters (Local.inlined term.locals) := by
    intro n hn
    simpa [Analysis.hides, hterm, hkept] using hinlined n hn
  have hsaid := htraced.shows.says htraced.inlined hplain htraced.entered
  rw [htraced.names, ← hdeclares.ctx_eq] at hsaid
  split at hfinds
  · obtain hfinds | ⟨hkind, -⟩ := hfinds
    · rw [hdeclares.name_eq] at hfinds
      obtain ⟨hsymbolName, htype⟩ := hsaid.valueSymbol_type hfinds.symm
      exact ⟨hsymbolName, htype, fun hcaptures name => Ty.mentionsName_bindHoles _ hcaptures name⟩
    · exact absurd hkind hdeclares.kind_ne
  · cases hfinds

end Symbol

/-- The parameter `y` of a local function, which is inlined, is shown with the type that the
function around it decided on. -/
theorem Analysis.symbolAt_binder_inlined :
    ∃ analysis symbol, analyze 60 {} (preludeContext 60)
        "const f = x => { const k = y => [x, y]; return k(x); };".toList = .ok analysis ∧
      analysis.fault = none ∧ analysis.symbolAt 1 27 = some symbol ∧
      symbol.type = some (.named "a") ∧
      ∃ (term : Term) (run : TermRun 60 preludeText.toList [] term) (given : Given)
        (last : Checker),
        givenType "y" 60 run.scope term { run.checker with instances := [] } = .ok given last ∧
          symbol.name = "y" ∧
          symbol.type = some (given.type.bindHoles (run.standsFor given.decisions)) := by
  have hpasses : Except.passes (analyze 60 {} (preludeContext 60)
      "const f = x => { const k = y => [x, y]; return k(x); };".toList) (fun analysis =>
        analysis.fault.isNone && decide (analysis.commands.length = 1) &&
          (analysis.symbolAt 1 27).any (fun symbol => decide (symbol.type = some (.named "a"))) &&
          analysis.commands.all fun command => command.term?.any fun term =>
            (term.locals.any fun row => row.name = "y" && row.loc = ⟨⟨1, 27⟩, ⟨1, 28⟩⟩) &&
              (("y" :: term.around "y").all fun name => term.binders.count name ≤ 1) &&
              term.locals.all fun row => !analysis.hides command row.name) = true := by
    rw [preludeContext_eq, String.toList_ofList]
    decide +kernel
  obtain ⟨analysis, hrun, htest⟩ := Except.exists_of_passes hpasses
  simp only [Bool.and_eq_true, Option.isNone_iff_eq_none, decide_eq_true_eq, Option.any_eq_true]
    at htest
  obtain ⟨⟨⟨hfault, hlength⟩, symbol, hsymbol, htype⟩, hcommands⟩ := htest
  obtain ⟨command, hcommand⟩ := List.length_eq_one_iff.mp hlength
  rw [hcommand, List.all_cons, List.all_nil, Bool.and_true, Option.any_eq_true] at hcommands
  obtain ⟨term, hterm, htest⟩ := hcommands
  simp only [Bool.and_eq_true, decide_eq_true_eq, Bool.not_eq_true', List.all_eq_true,
    List.any_eq_true] at htest
  obtain ⟨⟨⟨⟨name, loc, value⟩, hrow, rfl, rfl⟩, honce⟩, hlocals⟩ := htest
  have hinlined : ∀ n, Local.inlined term.locals n = true → analysis.hides command n = false := by
    intro n hn
    obtain ⟨row, hrow, rfl, -⟩ := Local.inlined_iff.mp hn
    exact hlocals row hrow
  have hcommands : analysis.commands = [] ++ command :: [] := hcommand
  obtain ⟨run, given, last, hgiven, hname, hshown, -⟩ := Analysis.symbolAt_binder hrun hfault
    hcommands hterm hrow honce (by simp) hinlined hsymbol
  exact ⟨analysis, symbol, hrun, hfault, hsymbol, htype, term, run, given, last, hgiven, hname,
    hshown⟩

/-- Of two functions whose parameters have the same name, the second one adds a number to
its parameter, and its parameter is shown with the type of the other one. A local function
that ignores its own parameter is shown as if it returned it, as its type parameter captures
the letter of the parameter around it. -/
theorem Analysis.symbolAt_same_name :
    (∃ analysis, analyze 60 {} (preludeContext 60) "(x => x(1))(x => x + 1);".toList =
        .ok analysis ∧
      analysis.fault = none ∧ analysis.typeAt 1 2 = "x :: Number -> Number" ∧
      analysis.typeAt 1 13 = "x :: Number -> Number") ∧
    ∃ analysis, analyze 60 {} (preludeContext 60)
        "const f = x => { const k = y => x; return x; };".toList = .ok analysis ∧
      analysis.fault = none ∧ analysis.typeAt 1 11 = "x :: a" ∧
      analysis.typeAt 1 24 = "k<a> :: a -> a" := by
  have hsame : Except.passes (analyze 60 {} (preludeContext 60) "(x => x(1))(x => x + 1);".toList)
      (fun analysis => decide (analysis.fault = none ∧
        analysis.typeAt 1 2 = "x :: Number -> Number" ∧
        analysis.typeAt 1 13 = "x :: Number -> Number")) = true := by
    rw [preludeContext_eq, String.toList_ofList]
    decide +kernel
  have hcaptured : Except.passes (analyze 60 {} (preludeContext 60)
      "const f = x => { const k = y => x; return x; };".toList)
      (fun analysis => decide (analysis.fault = none ∧ analysis.typeAt 1 11 = "x :: a" ∧
        analysis.typeAt 1 24 = "k<a> :: a -> a")) = true := by
    rw [preludeContext_eq, String.toList_ofList]
    decide +kernel
  obtain ⟨analysis, hrun, htest⟩ := Except.exists_of_passes hsame
  obtain ⟨captured, hrun', htest'⟩ := Except.exists_of_passes hcaptured
  exact ⟨⟨analysis, hrun, of_decide_eq_true htest⟩, captured, hrun', of_decide_eq_true htest'⟩

end RowScript
