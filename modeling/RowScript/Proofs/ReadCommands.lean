import RowScript.Proofs.SettledCommands
import RowScript.Proofs.SyntaxFaults
import RowScript.Proofs.TermRanges

/-!
# The commands that are read from a text

What is written in a text has no placeholders, a file of global declarations declares global names
only, and the terms of a script are laid out like the script.
-/

namespace RowScript

open Text List Term

theorem Ty.holes_of_isWritten {ty : Ty} (hty : ty.isWritten) : ty.holes = [] := by
  induction ty with
  | ident | emptyRow => rfl
  | hole => cases hty
  | arrow a b iha ihb | app a b _ iha ihb =>
    rw [isWritten, Bool.and_eq_true] at hty
    rw [holes, iha hty.1, ihb hty.2, append_nil]
  | field key a b iha ihb =>
    simp only [isWritten, Bool.and_eq_true] at hty
    rw [holes, iha hty.1.1, ihb hty.2, append_nil]
  | generic param body ih => exact ih hty
  | record row label ih =>
    simp only [isWritten, Bool.and_eq_true] at hty
    exact ih hty.2

theorem Ty.holes_labelled (label : String) (ty : Ty) : (ty.labelled label).holes = ty.holes := by
  unfold Ty.labelled
  split <;> rfl

variable {term : Term} {text : List Char} {commands : List Command} {command : Command}

theorem Term.isClosed_of_isBare (hterm : term.isBare) : term.isClosed :=
  allFunctions_imp (fun _ ascribed hnone => by simp_all) term hterm

/-- Writing a type on a function brings in the placeholders of the type only. -/
theorem Term.isClosed_ascribe {ascribed : Option Ty} (hterm : term.isBare)
    (hascribed : ∀ ty, ascribed = some ty → ty.holes = []) : (term.ascribe ascribed).isClosed := by
  have hclosed := isClosed_of_isBare hterm
  cases term with
  | function param body old loc =>
    simp only [isClosed, ascribe, allFunctions, Bool.and_eq_true] at hclosed ⊢
    refine ⟨?_, hclosed.2⟩
    cases ascribed with
    | none => rfl
    | some ty => exact isEmpty_iff.mpr (hascribed ty rfl)
  | _ => exact hclosed

theorem TopLevel.Becomes.isClosed {comment : Option Comment} {isGlobal : Bool} {node : TopLevel}
    (hbecomes : node.Becomes text comment isGlobal command) : command.isClosed := by
  cases hbecomes with
  | @declaration _ _ _ _ init _ _ hwritten hterm =>
    refine isClosed_ascribe (init.renders_toTerm.result _ hterm) ?_
    rintro ty rfl
    exact Ty.holes_of_isWritten ((renders_writtenType ..).result _ hwritten ty rfl)
  | @expression _ inner _ hterm =>
    exact isClosed_of_isBare (inner.renders_toTerm.result _ hterm)
  | type htype =>
    have hholes := Ty.holes_of_isWritten ((TypeExpr.renders_toTy _).result _ htype)
    refine isEmpty_iff.mpr ?_
    show Ty.holes (if isGlobal then _ else _) = []
    split
    · rw [Ty.holes_labelled, hholes]
    · exact hholes
  | value htype =>
    exact isEmpty_iff.mpr (Ty.holes_of_isWritten ((TypeExpr.renders_toTy _).result _ htype))

theorem parseScript_isClosed (hrun : parseScript text = .ok commands) :
    ∀ command ∈ commands, command.isClosed := by
  intro command hcommand
  obtain ⟨_, _, _, _, -, -, hbecomes⟩ := parseScript_becomes hrun hcommand
  exact hbecomes.isClosed

/-- A global declaration: a type or a value with a type, without placeholders. -/
def Command.isGlobal : Command → Bool
  | .bind _ (.typed type _ true) _ | .bind _ (.typeAlias type _ true) _ => type.holes.isEmpty
  | _ => false

theorem Command.isClosed_of_isGlobal (hglobal : command.isGlobal) : command.isClosed := by
  unfold Command.isGlobal at hglobal
  split at hglobal
  · exact hglobal
  · exact hglobal
  · cases hglobal

/-- The nodes of a file of global declarations are types and values. -/
theorem TopLevel.not_statement_of_ofComment {comment : Comment} {nodes : List TopLevel}
    (hrun : TopLevel.ofComment text comment = .ok nodes) :
    ∀ node ∈ nodes, ∀ statement, node ≠ .statement statement := by
  unfold TopLevel.ofComment at hrun
  split at hrun
  · obtain ⟨declarations, -, hrun⟩ := Except.bind_eq_ok.mp hrun
    obtain rfl := Except.ok.inj hrun
    simp
  · obtain ⟨signature, -, hrun⟩ := Except.bind_eq_ok.mp hrun
    obtain rfl := Except.ok.inj hrun
    simp

theorem Except.exists_of_mem_mapM {α β : Type} {f : α → Except Fault β} {items : List α}
    {results : List β} (hrun : items.mapM f = .ok results) {result : β}
    (hresult : result ∈ results) : ∃ item ∈ items, f item = .ok result := by
  induction items generalizing results with
  | nil =>
    obtain rfl := Except.ok.inj hrun
    cases hresult
  | cons item rest ih =>
    rw [mapM_cons] at hrun
    obtain ⟨first, hfirst, hrun⟩ := Except.bind_eq_ok.mp hrun
    obtain ⟨others, hothers, hrun⟩ := Except.bind_eq_ok.mp hrun
    obtain rfl := Except.ok.inj hrun
    obtain rfl | hresult := mem_cons.mp hresult
    · exact ⟨item, mem_cons_self, hfirst⟩
    · obtain ⟨found, hfound, heq⟩ := ih hothers hresult
      exact ⟨found, mem_cons_of_mem _ hfound, heq⟩

theorem parseDeclarations_isGlobal (hrun : parseDeclarations text = .ok commands) :
    ∀ command ∈ commands, command.isGlobal := by
  intro command hcommand
  simp only [parseDeclarations, Except.bind_eq_ok] at hrun
  obtain ⟨program, -, nodes, hnodes, hrun⟩ := hrun
  obtain ⟨node, hnode, comment, hbecomes⟩ := TopLevel.exists_node_of_mem hrun hcommand
  obtain ⟨group, hgroup, hnode⟩ := mem_flatten.mp hnode
  obtain ⟨from_, -, hfrom⟩ := Except.exists_of_mem_mapM hnodes hgroup
  have hnot := TopLevel.not_statement_of_ofComment hfrom node hnode
  have hclosed := hbecomes.isClosed
  cases hbecomes with
  | declaration | expression => exact absurd rfl (hnot _)
  | type | value => exact hclosed

theorem parseScript_isLocal (hrun : parseScript text = .ok commands) {name : String}
    {binding : Binding} {loc : Loc} (hcommand : .bind name binding loc ∈ commands) :
    binding.isGlobal = false := by
  obtain ⟨program, declarations, node, comment, -, hnode, hbecomes⟩ :=
    parseScript_becomes hrun hcommand
  cases hbecomes with
  | declaration | type => rfl
  | value => exact absurd hnode Program.value_notMem_nodes

/-- The terms of a command are laid out behind the start of the text. A declared name
stands before the term, and an expression statement covers its term. -/
def Command.Laid : Command → Prop
  | .bind _ (.defined term _ nameLoc _ _) _ =>
    nameLoc.Ordered ∧ ∃ lo hi, .origin ≤ lo ∧ nameLoc.stop < lo ∧ term.Laid .part lo hi
  | .bind .. => True
  | .evaluate term loc =>
    .origin ≤ loc.start ∧ ∃ lo hi, loc.start ≤ lo ∧ hi ≤ loc.stop ∧ term.Laid .part lo hi

theorem Term.laid_ascribe {place : Place} {lo hi : Position} (hlaid : term.Laid place lo hi)
    (ascribed : Option Ty) : (term.ascribe ascribed).Laid place lo hi := by
  cases term with
  | function param body old loc =>
    exact hlaid
  | _ => exact hlaid

theorem Statement.laid_of_mem {range : Loc} {statements : List Statement} {statement : Statement}
    (hlaid : Statement.AllLaid range statements) (hmem : statement ∈ statements) :
    statement.Laid ∧ statement.loc.Inside range := by
  induction statements with
  | nil => cases hmem
  | cons first rest ih =>
    obtain rfl | hmem := mem_cons.mp hmem
    · exact ⟨hlaid.2.1, hlaid.1.1⟩
    · exact ih hlaid.2.2 hmem

theorem parseScript_laid (hrun : parseScript text = .ok commands) :
    ∀ command ∈ commands, command.Laid := by
  intro command hcommand
  obtain ⟨program, declarations, node, comment, hprogram, hnode, hbecomes⟩ :=
    parseScript_becomes hrun hcommand
  obtain ⟨range, horigin, hbody⟩ := Program.laid_of_parse hprogram
  have hstart {statement : Statement} (hinside : statement.loc.Inside range) :
      .origin ≤ statement.loc.start := horigin ▸ hinside.start
  cases hbecomes with
  | @declaration _ _ _ _ init ascribed _ _ hterm =>
    obtain ⟨hlaid, hinside⟩ :=
      Statement.laid_of_mem hbody (Program.statement_mem_nodes.mp hnode)
    obtain ⟨-, ⟨hdeclarator, -, -⟩, ⟨htarget, hinit, hbefore, hlaid⟩, -⟩ := hlaid
    refine ⟨htarget.ordered, _, _, ?_, hbefore,
      laid_ascribe (Expr.laid_toTerm init hlaid hterm) ascribed⟩
    exact le_trans (hstart hinside) (le_trans hdeclarator.start hinit.start)
  | @expression _ inner _ hterm =>
    obtain ⟨hlaid, hinside⟩ :=
      Statement.laid_of_mem hbody (Program.statement_mem_nodes.mp hnode)
    exact ⟨hstart hinside, _, _, hlaid.1.start, hlaid.1.stop,
      Expr.laid_toTerm inner hlaid.2 hterm⟩
  | type | value => trivial

end RowScript
