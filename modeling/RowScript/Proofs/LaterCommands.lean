import RowScript.Proofs.HoverSearch
import RowScript.Proofs.SparedRanges

/-!
# Later commands do not change what is shown

The symbol at a position is the same as without the commands that follow, if none of them covers the
position.
-/

namespace RowScript

open List

variable {entry : Entry Binding}

namespace Finder

/-- Two lookups of one position that know the same about the ranges which cover it. -/
structure Agree (finder other : Finder) : Prop where
  isAt : ∀ loc, other.isAt loc = finder.isAt loc
  instantiations : ∀ loc, finder.isAt loc →
    other.instantiations.lookup loc = finder.instantiations.lookup loc

variable {finder other : Finder} {ctx : Context}

theorem Agree.instantiated (hagree : finder.Agree other) {callee : Loc}
    (hcallee : finder.isAt callee) : other.instantiated callee = finder.instantiated callee := by
  funext symbol
  rw [Finder.instantiated, Finder.instantiated, hagree.instantiations callee hcallee]

mutual

theorem Agree.search (hagree : finder.Agree other) :
    ∀ (term : Term) (ctx : Context), other.search ctx term = finder.search ctx term
  | .letIn name value body nameLoc loc, ctx => by
    simp only [Finder.search, hagree.isAt, hagree.search value, hagree.search body]
  | .reference name loc, ctx
  | .emptyRecord loc, ctx | .string loc, ctx | .number loc, ctx | .boolean loc, ctx =>
    by simp only [Finder.search, hagree.isAt]
  | .function param body ascribed loc, ctx => by
    simp only [Finder.search, hagree.isAt, hagree.search body]
  | .application func arg loc, ctx => by
    have hfunc := hagree.search func ctx
    have harg := hagree.search arg ctx
    by_cases hat : finder.isAt func.loc = true
    · by_cases hreference : ∃ name callee, func = .reference name callee
      · obtain ⟨name, callee, rfl⟩ := hreference
        have hcallee : other.instantiated callee = finder.instantiated callee :=
          hagree.instantiated hat
        simp only [Finder.search, hagree.isAt, harg, hcallee]
      · have hother : ∀ name callee, func ≠ .reference name callee :=
          fun name callee hequal => hreference ⟨name, callee, hequal⟩
        rw [search_application hother, search_application hother]
        simp only [hagree.isAt, hfunc, harg]
    · have hat' : other.isAt func.loc = false := by rwa [hagree.isAt, ← Bool.not_eq_true]
      rw [search_application_arg hat', search_application_arg (by simpa using hat)]
      rw [hagree.isAt, harg]
  | .conditional condition consequence alternative loc, ctx => by
    simp only [Finder.search, hagree.isAt, hagree.search condition, hagree.search consequence,
      hagree.search alternative]
  | .fieldAccess key record loc, ctx | .recordRestrict key record loc, ctx => by
    simp only [Finder.search, hagree.isAt, hagree.search record]
  | .recordExtend key value record loc, ctx => by
    simp only [Finder.search, hagree.isAt, hagree.search value, hagree.search record]
  | .array elements loc, ctx => by
    simp only [Finder.search, hagree.isAt, hagree.searchFirst elements]
  | .unit loc, ctx => rfl

theorem Agree.searchFirst (hagree : finder.Agree other) :
    ∀ (terms : List Term) (ctx : Context),
      other.searchFirst ctx terms = finder.searchFirst ctx terms
  | [], ctx => rfl
  | term :: rest, ctx => by
    simp only [Finder.searchFirst, hagree.isAt, hagree.search term, hagree.searchFirst rest]

end

/-- A search through more items finds the same as one that agrees on the first of them, if
there is nothing in the others. -/
theorem findSome?_append_of_agree {α β : Type} {f g : α → Option β} {items more : List α}
    (hitems : ∀ item ∈ items, f item = g item) (hmore : ∀ item ∈ more, f item = none) :
    (items ++ more).findSome? f = items.findSome? g := by
  rw [findSome?_append, findSome?_eq_none_iff.mpr hmore, Option.or_none]
  induction items with
  | nil => rfl
  | cons item rest ih =>
    obtain ⟨hitem, hrest⟩ := forall_mem_cons.mp hitems
    rw [findSome?_cons, findSome?_cons, hitem, ih hrest]

theorem inBinding_of_ranges (hentry : ∀ loc ∈ entry.binding.ranges, finder.isAt loc = false) :
    finder.inBinding ctx entry = none := by
  obtain ⟨stamp, name, binding⟩ := entry
  cases binding with
  | typed type nameLoc isGlobal => rfl
  | defined term type nameLoc inner isGlobal =>
    rw [Binding.ranges, forall_mem_cons] at hentry
    cases isGlobal with
    | true => rfl
    | false => simp [inBinding, hentry.1, hentry.2 _ term.loc_mem_ranges]
  | typeAlias type nameLoc isGlobal =>
    rw [Binding.ranges, forall_mem_singleton] at hentry
    cases isGlobal with
    | true => rfl
    | false => simp [inBinding, hentry]
  | typeParameter => rfl

theorem inCommand_of_ranges {evaluated : List (Loc × Context)} {command : Command}
    (hcommand : ∀ loc ∈ command.ranges, finder.isAt loc = false) :
    finder.inCommand ctx evaluated command = none := by
  cases command with
  | evaluate term loc =>
    rw [Command.ranges, forall_mem_cons] at hcommand
    simp [inCommand, hcommand.1]
  | bind name binding loc => rfl

end Finder

/-- What an analysis found at a position it found in the contexts it has kept, and not in the
one it has arrived at: a local value that covers the position has a context, and so has
every expression. -/
structure Analysis.Complete (analysis : Analysis) (position : Position) : Prop where
  values : ∀ entry ∈ analysis.ctx, ∀ term type nameLoc,
    entry.binding = .defined term type nameLoc none false →
      term.loc.contains position.line position.column = false
  expressions : ∀ term loc, .evaluate term loc ∈ analysis.commands →
    (analysis.checker.evaluated.lookup loc).isSome

/-- An analysis that has gone further through commands which do not cover the position. -/
structure Analysis.Later (position : Position) (analysis later : Analysis) : Prop where
  ctx : ∃ added, later.ctx = added ++ analysis.ctx ∧ ∀ entry ∈ added,
    ∀ loc ∈ entry.binding.ranges, loc.contains position.line position.column = false
  commands : ∃ more, later.commands = analysis.commands ++ more ∧ ∀ command ∈ more,
    ∀ loc ∈ command.ranges, loc.contains position.line position.column = false
  spared : analysis.checker.Spared (fun loc => loc.contains position.line position.column = false)
    (fun loc => loc.contains position.line position.column = false) later.checker

namespace Analysis

variable {fuel : Nat} {position : Position} {analysis later : Analysis}

section

variable (hlater : Later position analysis later)

include hlater

theorem Later.agree :
    (analysis.finderAt position).Agree (later.finderAt position) where
  isAt _ := rfl
  instantiations loc hloc := hlater.spared.instantiations loc (by
    rw [Bool.not_eq_false]
    exact hloc)

theorem Later.inBinding (hcomplete : analysis.Complete position) (hentry : entry ∈ analysis.ctx) :
    (later.finderAt position).inBinding later.ctx entry =
      (analysis.finderAt position).inBinding analysis.ctx entry := by
  have hvalues := hcomplete.values entry hentry
  obtain ⟨stamp, name, binding⟩ := entry
  cases binding with
  | defined term type nameLoc inner isGlobal =>
    cases isGlobal with
    | true => rfl
    | false =>
      simp only [Finder.inBinding, hlater.agree.isAt, hlater.agree.search]
      cases inner with
      | some inner => rfl
      | none =>
        have hterm : (analysis.finderAt position).isAt term.loc = false :=
          hvalues term type nameLoc rfl
        rw [hterm]
        rfl
  | typeAlias type nameLoc isGlobal =>
    cases isGlobal with
    | true => rfl
    | false => rfl
  | _ => rfl

theorem Later.inCommand (hcomplete : analysis.Complete position) {command : Command}
    (hcommand : command ∈ analysis.commands) :
    (later.finderAt position).inCommand later.ctx later.checker.evaluated command =
      (analysis.finderAt position).inCommand analysis.ctx analysis.checker.evaluated command := by
  cases command with
  | bind name binding loc => rfl
  | evaluate term loc =>
    simp only [Finder.inCommand, hlater.agree.isAt, hlater.agree.search]
    by_cases hat : (analysis.finderAt position).isAt loc = true
    · obtain ⟨kept, hkept⟩ := Option.isSome_iff_exists.mp (hcomplete.expressions term loc hcommand)
      have hsame := hlater.spared.evaluated loc (by
        rw [Bool.not_eq_false]
        exact hat)
      rw [hsame, hkept]
      rfl
    · rw [if_neg hat, if_neg hat]

/-- Going further does not change the symbol at a position that is not covered. -/
theorem Later.symbolAt (hcomplete : analysis.Complete position) :
    later.symbolAt position.line position.column =
      analysis.symbolAt position.line position.column := by
  obtain ⟨added, hctx, hadded⟩ := hlater.ctx
  obtain ⟨more, hcommands, hmore⟩ := hlater.commands
  have hbindings : later.ctx.reverse.findSome? ((later.finderAt position).inBinding later.ctx) =
      analysis.ctx.reverse.findSome? ((analysis.finderAt position).inBinding analysis.ctx) := by
    have hreverse : later.ctx.reverse = analysis.ctx.reverse ++ added.reverse := by
      rw [hctx, reverse_append]
    rw [hreverse]
    refine Finder.findSome?_append_of_agree (fun entry hentry => ?_) fun entry hentry => ?_
    · exact hlater.inBinding hcomplete (mem_reverse.mp hentry)
    · exact Finder.inBinding_of_ranges (hadded entry (mem_reverse.mp hentry))
  have hexpressions : later.commands.findSome?
        ((later.finderAt position).inCommand later.ctx later.checker.evaluated) =
      analysis.commands.findSome?
        ((analysis.finderAt position).inCommand analysis.ctx analysis.checker.evaluated) := by
    rw [hcommands]
    exact Finder.findSome?_append_of_agree
      (fun command hcommand => hlater.inCommand hcomplete hcommand)
      fun command hcommand => Finder.inCommand_of_ranges (hmore command hcommand)
  rw [symbolAt_eq, symbolAt_eq, hbindings, hexpressions]

end

theorem Later.refl (position : Position) (analysis : Analysis) : Later position analysis analysis :=
  ⟨⟨[], rfl, by simp⟩, ⟨[], (append_nil _).symm, by simp⟩, .refl _ _ _⟩

theorem Later.trans {last : Analysis} (hfirst : Later position analysis later)
    (hsecond : Later position later last) : Later position analysis last := by
  obtain ⟨added, hctx, hadded⟩ := hfirst.ctx
  obtain ⟨added', hctx', hadded'⟩ := hsecond.ctx
  obtain ⟨more, hcommands, hmore⟩ := hfirst.commands
  obtain ⟨more', hcommands', hmore'⟩ := hsecond.commands
  refine ⟨⟨added' ++ added, by rw [hctx', hctx, append_assoc], ?_⟩,
    ⟨more ++ more', by rw [hcommands', hcommands, append_assoc], ?_⟩,
    hfirst.spared.trans hsecond.spared⟩
  · exact forall_mem_append.mpr ⟨hadded', hadded⟩
  · exact forall_mem_append.mpr ⟨hmore, hmore'⟩

variable {ctx ctx' : Context} {checker final : Checker} {command : Command}

/-- A checked binding has the ranges of what was to be checked, and a context if it has a
term. -/
theorem checkBinding_ranges {binding new : Binding} {loc : Option Loc}
    (hrun : checkBinding fuel ctx binding loc checker = .ok new final) :
    new.ranges = binding.ranges ∧
      ∀ term type nameLoc isGlobal, new ≠ .defined term type nameLoc none isGlobal := by
  cases checkedBinding_of_ok hrun with
  | defined | typed | typeAlias | typeParameter => exact ⟨rfl, by simp⟩

/-- A command adds at most one entry, which has the ranges of the command and keeps its
context. -/
theorem checkCommand_added (hrun : checkCommand fuel ctx command checker = .ok ctx' final) :
    ∃ added, ctx' = added ++ ctx ∧ ∀ entry ∈ added,
      (∀ loc ∈ entry.binding.ranges, loc ∈ command.ranges) ∧
      ∀ term type nameLoc isGlobal, entry.binding ≠ .defined term type nameLoc none isGlobal := by
  cases checkedCommand_of_ok hrun with
  | evaluate => exact ⟨[], rfl, by simp⟩
  | bind hbinding =>
    obtain ⟨hranges, hkept⟩ := checkBinding_ranges hbinding
    refine ⟨[_], rfl, forall_mem_singleton.mpr ⟨?_, hkept⟩⟩
    intro l hl
    exact mem_cons_of_mem _ (hranges ▸ hl)

section

variable (hcommand : ∀ loc ∈ command.ranges, loc.contains position.line position.column = false)

include hcommand

theorem later_of_checkCommand
    (hrun : checkCommand fuel analysis.ctx command analysis.checker = .ok ctx final) :
    Later position analysis
      { analysis with ctx, checker := final, commands := analysis.commands ++ [command] } := by
  obtain ⟨added, rfl, hadded⟩ := checkCommand_added hrun
  refine ⟨⟨added, rfl, fun entry hentry loc hloc => ?_⟩,
    ⟨[command], rfl, forall_mem_singleton.mpr hcommand⟩, ?_⟩
  · exact hcommand loc ((hadded entry hentry).1 loc hloc)
  · rw [← CheckM.after_of_ok hrun]
    exact spared_checkCommand hcommand analysis.checker

theorem later_of_checkCommand_error {fault : Fault} {reported : Option Fault}
    (hrun : checkCommand fuel analysis.ctx command analysis.checker = .error fault final) :
    Later position analysis { analysis with checker := final, fault := reported } := by
  refine ⟨⟨[], rfl, by simp⟩, ⟨[], (append_nil _).symm, by simp⟩, ?_⟩
  rw [← CheckM.after_of_error hrun]
  exact spared_checkCommand hcommand analysis.checker

end

/-- An analysis of commands that do not cover a position has only gone further. -/
theorem later_of_advance {commands : List Command}
    (hcommands : ∀ command ∈ commands, ∀ loc ∈ command.ranges,
      loc.contains position.line position.column = false)
    (hrun : analysis.advance fuel commands = .ok later) : Later position analysis later := by
  induction commands generalizing analysis with
  | nil =>
    obtain rfl := Except.ok.inj hrun
    exact .refl position analysis
  | cons command rest ih =>
    obtain ⟨hcommand, hrest⟩ := forall_mem_cons.mp hcommands
    rw [advance] at hrun
    split at hrun
    · rename_i hchecked
      exact (later_of_checkCommand hcommand hchecked).trans (ih hrest hrun)
    · rename_i hfault
      rw [stop] at hrun
      split at hrun
      · obtain rfl := Except.ok.inj hrun
        exact later_of_checkCommand_error hcommand hfault
      · cases hrun

theorem checkCommand_complete (hcomplete : analysis.Complete position)
    (hrun : checkCommand fuel analysis.ctx command analysis.checker = .ok ctx final) :
    Complete { analysis with ctx, checker := final, commands := analysis.commands ++ [command] }
      position := by
  obtain ⟨added, hctx, hadded⟩ := checkCommand_added hrun
  refine ⟨fun entry hentry term type nameLoc hbinding => ?_, fun term loc hterm => ?_⟩
  · obtain hentry | hentry := mem_append.mp (hctx ▸ hentry)
    · exact absurd hbinding ((hadded entry hentry).2 term type nameLoc false)
    · exact hcomplete.values entry hentry term type nameLoc hbinding
  · refine isSome_evaluated_of_checkCommand hrun ?_
    obtain hterm | hterm := mem_append.mp hterm
    · exact .inl (hcomplete.expressions term loc hterm)
    · exact .inr ⟨term, (mem_singleton.mp hterm).symm⟩

/-- An analysis goes through accepted commands and on to those behind them. -/
theorem advance_append (analysis : Analysis) {commands : List Command} (more : List Command)
    (hrun : checkCommands fuel analysis.ctx commands analysis.checker = .ok ctx final) :
    analysis.advance fuel (commands ++ more) =
      advance fuel
        { analysis with ctx, checker := final, commands := analysis.commands ++ commands }
        more := by
  induction commands generalizing analysis with
  | nil =>
    obtain ⟨rfl, rfl⟩ := CheckM.pure_eq_ok.mp hrun
    rw [append_nil]
    rfl
  | cons command rest ih =>
    simp only [checkCommands, foldlM_cons, CheckM.bind_eq_ok] at hrun
    obtain ⟨next, middle, hcommand, hrest⟩ := hrun
    rw [cons_append, advance, hcommand]
    refine (ih ⟨middle, next, _, _⟩ hrest).trans ?_
    rw [append_assoc]
    rfl

theorem checkCommands_complete {commands : List Command} (hcomplete : analysis.Complete position)
    (hrun : checkCommands fuel analysis.ctx commands analysis.checker = .ok ctx final) :
    Complete { analysis with ctx, checker := final, commands := analysis.commands ++ commands }
      position := by
  induction commands generalizing analysis with
  | nil =>
    obtain ⟨rfl, rfl⟩ := CheckM.pure_eq_ok.mp hrun
    rwa [append_nil]
  | cons command rest ih =>
    simp only [checkCommands, foldlM_cons, CheckM.bind_eq_ok] at hrun
    obtain ⟨next, middle, hcommand, hrest⟩ := hrun
    have hrest := ih (checkCommand_complete hcomplete hcommand) hrest
    rwa [append_assoc] at hrest

/-- The fault that an analysis has to report for a run of the checker. A fault that the script
is not to blame for is passed on. -/
def verdict : EStateM.Result Fault Checker Context → Except Fault (Option Fault)
  | .ok _ _ => .ok none
  | .error fault _ => if fault.cause.isReportable then .ok (some fault) else .error fault

/-- An analysis reports what checking the commands stops at. -/
theorem fault_advance {commands : List Command} (hfault : analysis.fault = none) :
    (analysis.advance fuel commands).map Analysis.fault =
      verdict (checkCommands fuel analysis.ctx commands analysis.checker) := by
  induction commands generalizing analysis with
  | nil => exact congrArg Except.ok hfault
  | cons command rest ih =>
    cases hcommand : checkCommand fuel analysis.ctx command analysis.checker with
    | ok ctx middle =>
      rw [checkCommands_cons_ok hcommand, advance, hcommand]
      exact ih hfault
    | error fault middle =>
      rw [checkCommands_cons_error hcommand, advance, hcommand]
      simp only [stop, verdict]
      split <;> rfl

variable {commands more : List Command}

/-- What follows a command does not change what is shown inside of it. The commands behind the
accepted ones may be at fault; if none of them covers a position, the symbol there is the one
found without them, provided that no value of the starting context which covers the position
lacks its own context. The fault reported is the one that checking all commands stops at. -/
theorem symbolAt_advance_append
    (hvalues : ∀ entry ∈ ctx, ∀ term type nameLoc,
      entry.binding = .defined term type nameLoc none false →
        term.loc.contains position.line position.column = false)
    (hmore : ∀ command ∈ more, ∀ loc ∈ command.ranges,
      loc.contains position.line position.column = false)
    (haccepted : checkCommands fuel ctx commands checker = .ok ctx' final) :
    ∃ analysis : Analysis, advance fuel { checker, ctx } commands = .ok analysis ∧
      analysis.fault = none ∧
      (∀ later : Analysis, advance fuel { checker, ctx } (commands ++ more) = .ok later →
        later.symbolAt position.line position.column =
          analysis.symbolAt position.line position.column) ∧
      (advance fuel { checker, ctx } (commands ++ more)).map Analysis.fault =
        verdict (checkCommands fuel ctx (commands ++ more) checker) := by
  have hcomplete : Complete { checker, ctx } position := ⟨hvalues, fun _ _ hterm => by cases hterm⟩
  have hrun := advance_append { checker, ctx } [] haccepted
  rw [append_nil] at hrun
  refine ⟨_, hrun, rfl, fun later hlater => ?_, fault_advance rfl⟩
  rw [advance_append { checker, ctx } more haccepted] at hlater
  exact (later_of_advance hmore hlater).symbolAt (checkCommands_complete hcomplete haccepted)

/-- Where numbers and strings are types. -/
def literalContext : Context :=
  [⟨0, "Number", .typeParameter⟩, ⟨1, "String", .typeParameter⟩]

/-- A range on one line. -/
def rangeOn (line start stop : Int) : Loc := ⟨⟨line, start⟩, ⟨line, stop⟩⟩

/-- The identity function is defined on the first line and called on the second one. -/
def identityCalled : List Command :=
  [.bind "id" (.defined (.function (some ⟨"x", rangeOn 1 11 12⟩) (.reference "x" (rangeOn 1 16 17))
      none (rangeOn 1 11 17)) none (rangeOn 1 6 8) none false) (rangeOn 1 0 18),
    .evaluate (.application (.reference "id" (rangeOn 2 0 2)) (.number (rangeOn 2 3 4))
      (rangeOn 2 0 5)) (rangeOn 2 0 6)]

/-- The identity function is called again, and then its name is defined again. -/
def identityRedefined : List Command :=
  [.evaluate (.application (.reference "id" (rangeOn 3 0 2)) (.string (rangeOn 3 3 6))
      (rangeOn 3 0 7)) (rangeOn 3 0 8),
    .bind "id" (.defined (.application (.reference "id" (rangeOn 4 11 13))
      (.number (rangeOn 4 14 15)) (rangeOn 4 11 16)) none (rangeOn 4 6 8) none false)
      (rangeOn 4 0 17)]

/-- The name of a called function is shown with the types it was called at, also when the
script goes on with a command that is at fault. -/
theorem symbolAt_advance_append_redefined :
    ∃ analysis later : Analysis,
      advance 60 { checker := { stamp := 2 }, ctx := literalContext } identityCalled =
        .ok analysis ∧
      advance 60 { checker := { stamp := 2 }, ctx := literalContext }
        (identityCalled ++ identityRedefined) = .ok later ∧
      later.fault.isSome = true ∧
      analysis.symbolAt 2 1 = some ⟨.variableUsage, "id", some (.arrow .number .number)⟩ ∧
      later.symbolAt 2 1 = analysis.symbolAt 2 1 := by
  have hyields : (checkCommands 60 literalContext identityCalled).yields { stamp := 2 }
      (fun _ _ => true) = true := by decide +kernel
  obtain ⟨ctx, final, haccepted, -⟩ := CheckM.exists_of_yields hyields
  obtain ⟨analysis, hrun, -, hsymbol, -⟩ := @symbolAt_advance_append 60 ⟨2, 1⟩ literalContext ctx
    { stamp := 2 } final identityCalled identityRedefined (by simp [literalContext]) (by decide)
    haccepted
  have hpasses : Except.passes (advance 60 { checker := { stamp := 2 }, ctx := literalContext }
      identityCalled) (fun analysis => decide (analysis.symbolAt 2 1 =
        some ⟨.variableUsage, "id", some (.arrow .number .number)⟩)) = true := by decide +kernel
  have hfault : Except.passes (advance 60 { checker := { stamp := 2 }, ctx := literalContext }
      (identityCalled ++ identityRedefined)) (fun later => later.fault.isSome) = true := by
    decide +kernel
  obtain ⟨found, hfound, htest⟩ := Except.exists_of_passes hpasses
  obtain ⟨later, hlater, hfault⟩ := Except.exists_of_passes hfault
  rw [hrun] at hfound
  obtain rfl := Except.ok.inj hfound
  exact ⟨analysis, later, hrun, hlater, hfault, of_decide_eq_true htest, hsymbol later hlater⟩

/-- A value of which the term is known, but not the context it was checked in. -/
def bareContext : Context :=
  [⟨1, "f", .defined (.reference "g" (rangeOn 1 0 5)) (some .number) .synthetic none false⟩,
    ⟨0, "Number", .typeParameter⟩]

/-- The term of such a value is looked up in the context after the last command, so that it
does matter there which names are bound later. -/
theorem symbolAt_of_bareContext :
    let start : Analysis := { checker := { stamp := 2 }, ctx := bareContext }
    let commands := [.evaluate (.number (rangeOn 1 0 5)) (rangeOn 1 0 5)]
    let more := [.bind "g" (.defined (.number (rangeOn 2 10 11)) none (rangeOn 2 6 7) none false)
      (rangeOn 2 0 12)]
    (∀ command ∈ more, ∀ loc ∈ command.ranges, loc.contains 1 2 = false) ∧
    (start.advance 60 commands).map (fun analysis => analysis.symbolAt 1 2) = .ok none ∧
    (start.advance 60 (commands ++ more)).map (fun later => later.symbolAt 1 2) =
      .ok (some ⟨.variableUsage, "g", some .number⟩) := by
  refine ⟨by decide, rfl, rfl⟩

end Analysis

end RowScript
