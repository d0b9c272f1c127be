import RowScript.Prelude
import RowScript.Proofs.Success

/-!
# The commands of a script

A script is read into nodes, which are ordered by line, and each node becomes one command.
-/

namespace RowScript

open Text

variable {text : List Char} {commands : List Command}

/-- Whether a computation succeeds with a result that passes a test. -/
def Except.passes {α : Type} (x : Except Fault α) (test : α → Bool) : Bool :=
  match x with
  | .ok a => test a
  | .error _ => false

theorem Except.exists_of_passes {α : Type} {x : Except Fault α} {test : α → Bool}
    (hpasses : Except.passes x test) : ∃ a, x = .ok a ∧ test a := by
  cases x with
  | ok a => exact ⟨a, rfl, hpasses⟩
  | error fault => cases hpasses

/-- The comment with the type declarations of a script. -/
def Program.header (program : Program) : Option Comment := program.comments.find? (·.isBlock)

/-- The type declarations of a script. -/
def Program.declarations (text : List Char) (program : Program) :
    Except Fault (List TypeDeclaration) :=
  match program.header with
  | some comment => TypeDeclaration.ofComment text comment
  | none => pure []

/-- What becomes the commands of a script, in order. -/
def Program.nodes (program : Program) (declarations : List TypeDeclaration) : List TopLevel :=
  (declarations.map TopLevel.type ++ program.body.map TopLevel.statement).mergeSort
    fun a b => a.loc.start.line ≤ b.loc.start.line

theorem parseScript_eq_ok :
    parseScript text = .ok commands ↔
      ∃ program declarations, Program.parse text = .ok program ∧
        program.declarations text = .ok declarations ∧
        TopLevel.toCommands text program.comments program.header false none
          (program.nodes declarations) = .ok commands := by
  simp only [parseScript, Except.bind_eq_ok, Program.declarations, Program.nodes]
  constructor
  · rintro ⟨program, hprogram, hrun⟩
    refine ⟨program, ?_⟩
    cases hheader : program.header with
    | none =>
      simp only [show program.comments.find? (·.isBlock) = none from hheader] at hrun
      exact ⟨[], hprogram, rfl, hrun⟩
    | some comment =>
      simp only [show program.comments.find? (·.isBlock) = some comment from hheader,
        Except.bind_eq_ok] at hrun
      obtain ⟨declarations, hdeclarations, hrun⟩ := hrun
      exact ⟨declarations, hprogram, hdeclarations, hrun⟩
  · rintro ⟨program, declarations, hprogram, hdeclarations, hrun⟩
    refine ⟨program, hprogram, ?_⟩
    cases hheader : program.header with
    | none =>
      simp only [hheader] at hdeclarations hrun
      cases hdeclarations
      simp only [show program.comments.find? (·.isBlock) = none from hheader]
      exact hrun
    | some comment =>
      simp only [hheader] at hdeclarations hrun
      simp only [show program.comments.find? (·.isBlock) = some comment from hheader,
        Except.bind_eq_ok]
      exact ⟨declarations, hdeclarations, hrun⟩

variable {program : Program} {comment : Option Comment} {command : Command}
  {declarations : List TypeDeclaration}

theorem Program.statement_mem_nodes {statement : Statement} :
    .statement statement ∈ program.nodes declarations ↔ statement ∈ program.body := by
  simp [Program.nodes]

theorem Program.value_notMem_nodes {signature : Signature} :
    .value signature ∉ program.nodes declarations := by
  simp [Program.nodes]

theorem declarationCommand_eq_ok {isGlobal : Bool} {loc : Loc} {keyword : DeclarationKeyword}
    {declarators : List Declarator}
    (hrun : declarationCommand text comment isGlobal loc keyword declarators = .ok command) :
    ∃ declaratorLoc id init ascribed term,
      declarators = [.mk declaratorLoc (.identifier id) (some init)] ∧
      writtenType text comment id.name init = .ok ascribed ∧ init.toTerm = .ok term ∧
      command = .bind id.name (.defined (term.ascribe ascribed) none id.loc none isGlobal) loc := by
  unfold declarationCommand at hrun
  split at hrun
  · simp only [Except.bind_eq_ok] at hrun
    obtain ⟨ascribed, hascribed, term, hterm, hrun⟩ := hrun
    cases hrun
    exact ⟨_, _, _, ascribed, term, rfl, hascribed, hterm, rfl⟩
  · simp only [Except.bind_eq_ok] at hrun
    obtain ⟨ascribed, hascribed, term, hterm, hrun⟩ := hrun
    cases hrun
    exact ⟨_, _, _, ascribed, term, rfl, hascribed, hterm, rfl⟩
  · cases hrun

/-- The command that a statement or a declaration becomes. -/
inductive TopLevel.Becomes (text : List Char) (comment : Option Comment) (isGlobal : Bool) :
    TopLevel → Command → Prop where
  | declaration {loc declaratorLoc : Loc} {keyword : DeclarationKeyword} {id : Identifier}
      {init : Expr} {ascribed : Option Ty} {term : Term}
      (hwritten : writtenType text comment id.name init = .ok ascribed)
      (hterm : init.toTerm = .ok term) :
      Becomes text comment isGlobal
        (.statement (.declaration loc keyword [.mk declaratorLoc (.identifier id) (some init)]))
        (.bind id.name (.defined (term.ascribe ascribed) none id.loc none isGlobal) loc)
  | expression {loc : Loc} {inner : Expr} {term : Term} (hterm : inner.toTerm = .ok term) :
      Becomes text comment isGlobal (.statement (.expression loc inner)) (.evaluate term loc)
  | type {declaration : TypeDeclaration} {type : Ty} (htype : declaration.init.toTy = .ok type) :
      Becomes text comment isGlobal (.type declaration) (.bind declaration.id.name
        (.typeAlias (if isGlobal then type.labelled declaration.id.name else type)
          declaration.id.loc isGlobal) declaration.loc)
  | value {signature : Signature} {type : Ty} (htype : signature.value.toTy = .ok type) :
      Becomes text comment isGlobal (.value signature)
        (.bind signature.name (.typed type .synthetic true) .synthetic)

theorem TopLevel.becomes_of_toCommand {isGlobal : Bool} {node : TopLevel}
    (hrun : node.toCommand text comment isGlobal = .ok command) :
    node.Becomes text comment isGlobal command := by
  cases node with
  | statement statement =>
    cases statement with
    | declaration loc keyword declarators =>
      obtain ⟨_, id, init, ascribed, term, rfl, hwritten, hterm, rfl⟩ :=
        declarationCommand_eq_ok hrun
      exact .declaration hwritten hterm
    | expression loc inner =>
      obtain ⟨term, hterm, hrun⟩ := Except.bind_eq_ok.mp hrun
      cases hrun
      exact .expression hterm
    | ret | block => cases hrun
  | type declaration =>
    obtain ⟨type, htype, hrun⟩ := Except.bind_eq_ok.mp hrun
    cases hrun
    exact .type htype
  | value signature =>
    obtain ⟨type, htype, hrun⟩ := Except.bind_eq_ok.mp hrun
    cases hrun
    exact .value htype

namespace TopLevel

variable {text : List Char} {comments : List Comment} {header : Option Comment}
  {isGlobal : Bool} {previousEnd : Option Position} {commands : List Command}

theorem exists_node_of_mem {nodes : List TopLevel}
    (hrun : toCommands text comments header isGlobal previousEnd nodes = .ok commands)
    (hcommand : command ∈ commands) :
    ∃ node ∈ nodes, ∃ comment, node.Becomes text comment isGlobal command := by
  induction nodes generalizing previousEnd commands with
  | nil =>
    cases hrun
    cases hcommand
  | cons node rest ih =>
    simp only [toCommands, Except.bind_eq_ok] at hrun
    obtain ⟨first, hfirst, others, hothers, hrun⟩ := hrun
    cases hrun
    rcases List.mem_cons.mp hcommand with rfl | hcommand
    · exact ⟨node, List.mem_cons_self, _, becomes_of_toCommand hfirst⟩
    · obtain ⟨node, hnode, hfrom⟩ := ih hothers hcommand
      exact ⟨node, List.mem_cons_of_mem _ hnode, hfrom⟩

end TopLevel

/-- The commands that a script can have: it checks expressions and defines values and
types. -/
def Command.isDefinition : Command → Bool
  | .evaluate .. | .bind _ (.defined ..) _ | .bind _ (.typeAlias ..) _ => true
  | .bind .. => false

/-- Each command of a script comes from one of its declared types or statements. -/
theorem parseScript_becomes (hrun : parseScript text = .ok commands) (hcommand : command ∈ commands)
    :
    ∃ program declarations node comment, Program.parse text = .ok program ∧
      node ∈ program.nodes declarations ∧ node.Becomes text comment false command := by
  obtain ⟨program, declarations, hprogram, -, hrun⟩ := parseScript_eq_ok.mp hrun
  obtain ⟨node, hnode, comment, hbecomes⟩ := TopLevel.exists_node_of_mem hrun hcommand
  exact ⟨program, declarations, node, comment, hprogram, hnode, hbecomes⟩

theorem parseScript_isDefinition (hrun : parseScript text = .ok commands) :
    ∀ command ∈ commands, command.isDefinition := by
  intro command hcommand
  obtain ⟨program, declarations, node, comment, -, hnode, hbecomes⟩ :=
    parseScript_becomes hrun hcommand
  cases hbecomes with
  | declaration | expression | type => rfl
  | value => exact absurd hnode Program.value_notMem_nodes

/-- The characters of the built-in declarations, read off the literals. To evaluate a script
with them is far cheaper than to decode the text first. -/
def preludeChars : { chars : List Char // preludeText.toList = chars } := by
  apply Subtype.mk
  unfold preludeText
  simp only [String.toList_append]
  iterate 11 rewrite [String.toList_ofList]
  exact rfl

theorem preludeContext_eq (fuel : Nat) : preludeContext fuel = globalContext fuel preludeChars :=
  congrArg (globalContext fuel) preludeChars.2

/-- Loads the built-in types and values, reads a script and checks it. The result holds
the contexts before and after the script, with its commands between them. -/
def checkScript (fuel : Nat) (text : List Char) : CheckM (Context × List Command × Context) := do
  let globals ← preludeContext fuel
  let commands ← CheckM.ofExcept (parseScript text)
  let ctx ← checkCommands fuel globals commands
  pure (globals, commands, ctx)

theorem checkScript_eq_ok {fuel : Nat} {globals ctx : Context} {checker final : Checker}
    (hrun : checkScript fuel text checker = .ok (globals, commands, ctx) final) :
    ∃ loaded, preludeContext fuel checker = .ok globals loaded ∧
      parseScript text = .ok commands ∧
      checkCommands fuel globals commands loaded = .ok ctx final := by
  simp only [checkScript, CheckM.bind_eq_ok, CheckM.ofExcept_eq_ok, CheckM.pure_eq_ok,
    Prod.mk.injEq] at hrun
  obtain ⟨_, loaded, hglobals, _, _, ⟨hcommands, rfl⟩, _, _, hctx, ⟨rfl, rfl, rfl⟩, rfl⟩ := hrun
  exact ⟨loaded, hglobals, hcommands, hctx⟩

end RowScript
