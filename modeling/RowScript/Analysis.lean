import RowScript.Prelude
import RowScript.Symbol

/-!
# Scripts as editors see them

A script is either validated, which stops at the first fault, or analysed as far as
it can be understood: the commands before the first fault are kept, and positions
inside them can be looked up.
-/

namespace RowScript

/-- What checking a script got through. -/
structure Analysis where
  checker : Checker
  ctx : Context
  /-- The commands checked without fault, in order. -/
  commands : List Command := []
  fault : Option Fault := none

/-- Checks a script in a context made by `globals`. The script is read first. -/
def validate (fuel : Nat) (globals : CheckM Context) (text : List Char) : CheckM Unit := do
  let commands ← CheckM.ofExcept (parseScript text)
  let ctx ← globals
  let _ ← checkCommands fuel ctx commands

namespace Analysis

/-- Ends an analysis at a fault, unless the script is not to blame for it. -/
def stop (analysis : Analysis) (fault : Fault) : Except Fault Analysis :=
  if fault.cause.isReportable then pure { analysis with fault } else throw fault

/-- Checks further commands up to the first fault. -/
def advance (fuel : Nat) (analysis : Analysis) : List Command → Except Fault Analysis
  | [] => pure analysis
  | command :: rest =>
    match checkCommand fuel analysis.ctx command analysis.checker with
    | .ok ctx checker =>
      advance fuel { analysis with ctx, checker, commands := analysis.commands ++ [command] } rest
    | .error fault checker => stop { analysis with checker } fault

/-- The symbol at a position. -/
def symbolAt (analysis : Analysis) (line column : Int) : Option Symbol :=
  RowScript.symbolAt analysis.ctx analysis.commands line column
    analysis.checker.instantiations analysis.checker.evaluated

end Analysis

/-- Analyses a script in a context made by `globals`, starting from a given checker.
It fails only where the context itself is at fault. -/
def analyze (fuel : Nat) (checker : Checker) (globals : CheckM Context) (text : List Char) :
    Except Fault Analysis :=
  match globals checker with
  | .error fault _ => throw fault
  | .ok ctx checker =>
    let analysis : Analysis := { checker, ctx }
    match parseScript text with
    | .error fault => analysis.stop fault
    | .ok commands => analysis.advance fuel commands

/-- The text of the symbol at a line and a character, both counted from one; nothing
if there is no symbol. -/
def Analysis.typeAt (analysis : Analysis) (line character : Int) : String :=
  ((analysis.symbolAt line (character - 1)).bind Symbol.toText?).getD ""

/-- A stretch of one line with one symbol on it. -/
structure HoverRun where
  line : Nat
  first : Nat
  last : Nat
  kind : SymbolKind
  text : Option String
deriving DecidableEq, Repr

namespace HoverRun

/-- Adds the symbol at the next column to the runs of a line, the latest run first.
Neighbouring columns with equal symbols share a run. -/
def add (line column : Nat) (symbol : Symbol) : List HoverRun → List HoverRun
  | run :: rest =>
    if run.last + 1 = column && run.kind = symbol.kind && run.text = symbol.toText? then
      { run with last := column } :: rest
    else ⟨line, column, column, symbol.kind, symbol.toText?⟩ :: run :: rest
  | [] => [⟨line, column, column, symbol.kind, symbol.toText?⟩]

end HoverRun

/-- The runs of a line, up to one column past its end. -/
def Analysis.hoversOfLine (analysis : Analysis) (line length : Nat) : List HoverRun :=
  ((List.range (length + 2)).foldl (fun runs (column : Nat) =>
    match analysis.symbolAt line column with
    | some symbol => HoverRun.add line column symbol runs
    | none => runs) []).reverse

/-- The lengths of the lines of a text. -/
def lineLengths : List Char → List Nat
  | [] => [0]
  | c :: rest =>
    match c, lineLengths rest with
    | '\n', lengths => 0 :: lengths
    | _, length :: lengths => (length + 1) :: lengths
    | _, [] => [1]

/-- All symbols of a text, line by line. -/
def Analysis.hovers (analysis : Analysis) (text : List Char) : List HoverRun :=
  (lineLengths text).zipIdx.flatMap fun (length, index) =>
    analysis.hoversOfLine (index + 1) length

end RowScript
