import RowScript.Proofs.KeptContexts
import RowScript.Proofs.SymbolSearch

/-!
# Looking up positions of an analysed script

An analysis looks for a position in the first binding or expression that covers it, in the context
that was kept there.
-/

namespace RowScript

open Finder Analysis List

/-- The term of a command. -/
def Command.term? : Command → Option Term
  | .evaluate term _ | .bind _ (.defined term _ _ _ _) _ => some term
  | .bind .. => none

/-- Whether a lookup at a position looks into a command. An expression is covered by the
range of its statement, a declaration by its name and its term. -/
def Command.covers (position : Position) : Command → Bool
  | .evaluate _ loc => loc.contains position.line position.column
  | .bind _ (.defined term _ nameLoc _ _) _ =>
    nameLoc.contains position.line position.column ||
      term.loc.contains position.line position.column
  | .bind _ (.typeAlias _ nameLoc _) _ => nameLoc.contains position.line position.column
  | .bind .. => false

/-- The context that an analysis has kept for a command. -/
def Analysis.kept? (analysis : Analysis) : Command → Option Context
  | .evaluate _ loc => analysis.checker.evaluated.lookup loc
  | .bind name _ _ => (analysis.ctx.find? name).bind Binding.inner?

/-- The first result of a search is known if all results are the same. -/
theorem findSome?_eq_some_of_forall {α β : Type} {f : α → Option β} {items : List α}
    {item : α} {result : β} (hmem : item ∈ items) (hitem : f item = some result)
    (hall : ∀ other ∈ items, f other = none ∨ f other = some result) :
    items.findSome? f = some result := by
  induction items with
  | nil => cases hmem
  | cons first rest ih =>
    obtain ⟨hfirst, hrest⟩ := forall_mem_cons.mp hall
    rw [findSome?_cons]
    obtain hfirst | hfirst := hfirst
    · rw [hfirst]
      obtain rfl | hmem := mem_cons.mp hmem
      · rw [hitem] at hfirst
        cases hfirst
      · exact ih hmem hrest
    · rw [hfirst]

section Lookup

variable {fuel : Nat} {position : Position} {instantiations : List (Loc × List (String × Ty))}
  {ctx : Context} {entry : Entry Binding} {command : Command}

theorem Finder.inBinding_of_isGlobal (finder : Finder) (hglobal : command.isGlobal)
    (hmakes : command.Makes fuel entry) : finder.inBinding ctx entry = none := by
  unfold Command.isGlobal at hglobal
  split at hglobal
  · obtain ⟨-, type, hbinding⟩ := hmakes
    rw [inBinding, hbinding]
  · obtain ⟨-, type, hbinding⟩ := hmakes
    rw [inBinding, hbinding]
  · cases hglobal

/-- A lookup passes over the entries of commands that do not cover the position. -/
theorem Finder.inBinding_of_not_covers (hcovers : command.covers position = false)
    (hmakes : command.Makes fuel entry) :
    (ofPosition position instantiations).inBinding ctx entry = none := by
  cases command with
  | evaluate term loc => cases hmakes
  | bind name binding loc =>
    cases binding with
    | defined term type nameLoc inner isGlobal =>
      obtain ⟨-, type, kept, hbinding, -⟩ := hmakes
      rw [Command.covers, Bool.or_eq_false_iff] at hcovers
      rw [inBinding, hbinding]
      cases isGlobal with
      | true => rfl
      | false =>
        dsimp only
        rw [show (ofPosition position instantiations).isAt nameLoc = false from hcovers.1,
          show (ofPosition position instantiations).isAt term.loc = false from hcovers.2,
          if_neg (by simp), if_neg (by simp)]
    | typeAlias type nameLoc isGlobal =>
      obtain ⟨-, type, hbinding⟩ := hmakes
      rw [inBinding, hbinding]
      cases isGlobal with
      | true => rfl
      | false =>
        dsimp only
        rw [show (ofPosition position instantiations).isAt nameLoc = false from hcovers,
          if_neg (by simp)]
    | typed type nameLoc isGlobal =>
      obtain ⟨-, type, hbinding⟩ := hmakes
      rw [inBinding, hbinding]
    | typeParameter =>
      obtain ⟨-, hbinding⟩ := hmakes
      rw [inBinding, hbinding]

end Lookup

/-- The lookup of a position in an analysis. -/
def Analysis.finderAt (analysis : Analysis) (position : Position) : Finder :=
  .ofPosition position analysis.checker.instantiations

/-- A lookup goes through the bindings and then through the expressions. -/
theorem Analysis.symbolAt_eq (analysis : Analysis) (position : Position) :
    analysis.symbolAt position.line position.column =
      ((analysis.ctx.reverse.findSome?
        ((analysis.finderAt position).inBinding analysis.ctx)).getD
        (analysis.commands.findSome? ((analysis.finderAt position).inCommand analysis.ctx
          analysis.checker.evaluated)).join) := by
  unfold symbolAt RowScript.symbolAt finderAt ofPosition
  dsimp only
  split
  · rename_i hfound
    rw [hfound]
    rfl
  · rename_i hfound
    rw [hfound]
    rfl

section Symbol

variable {fuel : Nat} {declarations text : List Char} {analysis : Analysis} {term : Term}
  {kept : Context} {mark : Mark}
  (hrun : analyze fuel {} (globalContext fuel declarations) text = .ok analysis)
  (hfault : analysis.fault = none) {command : Command} {loc : Loc}

include hrun hfault

theorem Analysis.exists_kept? (hcommand : command ∈ analysis.commands)
    (hterm : command.term? = some term) : ∃ kept, analysis.kept? command = some kept := by
  obtain ⟨-, globals, -, hfollowed⟩ := analyze_followed hrun hfault
  cases command with
  | evaluate own loc => exact hfollowed.evaluated (mem_append_right _ hcommand)
  | bind name binding loc =>
    cases binding with
    | defined own type nameLoc inner isGlobal =>
      obtain ⟨entry, hentry, rfl, type', kept, hbinding, -⟩ :=
        hfollowed.bound (mem_append_right _ hcommand)
      refine ⟨kept, ?_⟩
      rw [kept?, hfollowed.found entry hentry, hbinding]
      rfl
    | typed | typeAlias | typeParameter => cases hterm

/-- A lookup at a name of a declaration searches the term of the declaration. -/
theorem Analysis.symbolAt_bind {name : String} {type : Option Ty} {nameLoc : Loc}
    {inner : Option Context} {isGlobal : Bool}
    (hcommand : .bind name (.defined term type nameLoc inner isGlobal) loc ∈ analysis.commands)
    (hkept : analysis.kept? (.bind name (.defined term type nameLoc inner isGlobal) loc) = some
      kept) (hmark : mark ∈ term.marks kept true)
    (halone : ∀ other ∈ analysis.commands, other.covers mark.loc.start → other = .bind name
      (.defined term type nameLoc inner isGlobal) loc) :
    Nonempty (CheckedTerm fuel term kept) ∧ (analysis.finderAt mark.loc.start).FindsMark mark
      (analysis.symbolAt mark.loc.start.line mark.loc.start.column) := by
  obtain ⟨hparse, globals, hglobals, hfollowed⟩ := analyze_followed hrun hfault
  obtain ⟨hordered, lo, hi, horigin, hname, hlaid⟩ := parseScript_laid hparse _ hcommand
  obtain rfl : isGlobal = false := parseScript_isLocal hparse hcommand
  obtain ⟨entry, hentry, hentryName, type', kept', hbinding, hchecked⟩ :=
    hfollowed.bound (mem_append_right _ hcommand)
  -- the entry of the command is the one that the name stands for
  have hfound := hfollowed.found entry hentry
  obtain rfl : kept' = kept := by
    rw [hentryName, hbinding] at hfound
    simpa [kept?, hfound, Binding.inner?] using hkept
  have hinside := Term.mark_inside term hlaid hmark
  have hnameAt : (analysis.finderAt mark.loc.start).isAt nameLoc = false :=
    isAt_of_lt hordered (lt_of_lt_of_le hname hinside.start)
  have htermAt : (analysis.finderAt mark.loc.start).isAt term.loc :=
    isAt_start (Term.mark_inside_loc hlaid hmark)
  have hhere : (analysis.finderAt mark.loc.start).inBinding analysis.ctx entry =
      some ((analysis.finderAt mark.loc.start).search kept' term) := by
    rw [inBinding, hbinding]
    simp [hnameAt, htermAt]
  have hfirst : analysis.ctx.reverse.findSome?
      ((analysis.finderAt mark.loc.start).inBinding analysis.ctx) =
      some ((analysis.finderAt mark.loc.start).search kept' term) := by
    refine findSome?_eq_some_of_forall (mem_reverse.mpr hentry) hhere
      fun other hother => ?_
    have hother := mem_reverse.mp hother
    obtain ⟨command, hcommand', hmakes⟩ := hfollowed.made other hother
    obtain hcommand' | hcommand' := mem_append.mp hcommand'
    · exact .inl (inBinding_of_isGlobal _ (hglobals command hcommand') hmakes)
    · cases hcovers : command.covers mark.loc.start with
      | false => exact .inl (inBinding_of_not_covers hcovers hmakes)
      | true =>
        obtain rfl := halone command hcommand' hcovers
        have hsame := hfollowed.found other hother
        rw [hmakes.1, ← hentryName, hfound] at hsame
        rw [← hhere, inBinding, inBinding, Option.some.inj hsame, hmakes.1,
          hentryName]
        exact .inr rfl
  rw [symbolAt_eq, hfirst]
  exact ⟨hchecked, search_of_mem_marks horigin term hlaid (by simp) hmark⟩

/-- A lookup at a name of an expression passes over all bindings. -/
theorem Analysis.symbolAt_evaluate (hcommand : .evaluate term loc ∈ analysis.commands)
    (hkept : analysis.kept? (.evaluate term loc) = some kept) (hmark : mark ∈ term.marks kept true)
    (halone : ∀ other ∈ analysis.commands, other.covers mark.loc.start →
      other = .evaluate term loc) :
    Nonempty (CheckedTerm fuel term kept) ∧ (analysis.finderAt mark.loc.start).FindsMark mark
      (analysis.symbolAt mark.loc.start.line mark.loc.start.column) := by
  obtain ⟨hparse, globals, hglobals, hfollowed⟩ := analyze_followed hrun hfault
  obtain ⟨hstart, lo, hi, hlo, hhi, hlaid⟩ := parseScript_laid hparse _ hcommand
  have horigin := le_trans hstart hlo
  have hinside := Term.mark_inside term hlaid hmark
  have hat : (analysis.finderAt mark.loc.start).isAt loc :=
    isAt_start ⟨le_trans hlo hinside.start, hinside.ordered, le_trans hinside.stop hhi⟩
  have hhere : (analysis.finderAt mark.loc.start).inCommand analysis.ctx
      analysis.checker.evaluated (.evaluate term loc) =
      some ((analysis.finderAt mark.loc.start).search kept term) := by
    have hlookup : analysis.checker.evaluated.lookup loc = some kept := hkept
    simp [inCommand, hat, hlookup]
  have hnone : analysis.ctx.reverse.findSome?
      ((analysis.finderAt mark.loc.start).inBinding analysis.ctx) = none := by
    refine findSome?_eq_none_iff.mpr fun other hother => ?_
    obtain ⟨command, hcommand', hmakes⟩ := hfollowed.made other (mem_reverse.mp hother)
    obtain hcommand' | hcommand' := mem_append.mp hcommand'
    · exact inBinding_of_isGlobal _ (hglobals command hcommand') hmakes
    · cases hcovers : command.covers mark.loc.start with
      | false => exact inBinding_of_not_covers hcovers hmakes
      | true =>
        obtain rfl := halone command hcommand' hcovers
        cases hmakes
  have hfirst : analysis.commands.findSome? ((analysis.finderAt mark.loc.start).inCommand
      analysis.ctx analysis.checker.evaluated) =
      some ((analysis.finderAt mark.loc.start).search kept term) := by
    refine findSome?_eq_some_of_forall hcommand hhere fun other hother => ?_
    cases other with
    | bind name binding loc => exact .inl rfl
    | evaluate term' loc' =>
      cases hother' : (analysis.finderAt mark.loc.start).isAt loc' with
      | false => exact .inl (by simp [inCommand, hother'])
      | true =>
        obtain heq := halone _ hother hother'
        rw [heq]
        exact .inr hhere
  obtain ⟨term', hmem, hchecked⟩ := hfollowed.kept hkept
  obtain rfl : term' = term := by
    obtain hmem | hmem := mem_append.mp hmem
    · cases hglobals _ hmem
    · exact (Command.evaluate.inj (halone _ hmem hat)).1
  rw [symbolAt_eq, hnone, hfirst]
  exact ⟨hchecked, search_of_mem_marks horigin term' hlaid (by simp) hmark⟩

/-- What a lookup finds at the start of a name written in a command, if no other command
covers the position. The context was kept when the term of the command was checked. -/
theorem Analysis.symbolAt_mark (hcommand : command ∈ analysis.commands)
    (hterm : command.term? = some term) (hkept : analysis.kept? command = some kept)
    (hmark : mark ∈ term.marks kept true)
    (halone : ∀ other ∈ analysis.commands, other.covers mark.loc.start → other = command) :
    Nonempty (CheckedTerm fuel term kept) ∧ (analysis.finderAt mark.loc.start).FindsMark mark
      (analysis.symbolAt mark.loc.start.line mark.loc.start.column) := by
  cases command with
  | evaluate own loc =>
    obtain rfl := Option.some.inj hterm
    exact symbolAt_evaluate hrun hfault hcommand hkept hmark halone
  | bind name binding loc =>
    cases binding with
    | defined own type nameLoc inner isGlobal =>
      obtain rfl := Option.some.inj hterm
      exact symbolAt_bind hrun hfault hcommand hkept hmark halone
    | typed | typeAlias | typeParameter => cases hterm

end Symbol

end RowScript
