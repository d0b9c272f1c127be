import RowScript.Analysis

/-!
# The command line

`file [line column] [--verbose]`: without a position the file is validated, with
one the type at that position is shown. Arguments may come in any order, an
unambiguous beginning of the option is enough, and everything behind `--` is an
argument. With `--verbose` the steps of checking are logged.
-/

namespace RowScript.CommandLine

/-- What the arguments ask for. -/
structure Options where
  file : String
  position : Option (Int × Int)
  isVerbose : Bool
deriving DecidableEq, Repr

/-- What a run leaves behind. -/
structure Result where
  status : Nat
  output : String
  log : String
deriving DecidableEq, Repr

/-- The result of arguments that make no sense. -/
def usageError : Result := ⟨2, "", ""⟩

/-- Characters that may stand around a number. -/
def isSpace (c : Char) : Bool :=
  let code := c.toNat
  (9 ≤ code && code ≤ 13) || (28 ≤ code && code ≤ 32) || code = 0x85 || code = 0xa0
    || code = 0x1680 || (0x2000 ≤ code && code ≤ 0x200a) || code = 0x2028 || code = 0x2029
    || code = 0x202f || code = 0x205f || code = 0x3000

/-- Digits with single underscores between them, without the underscores. -/
def plainDigits? : List Char → Option (List Char)
  | [] => none
  | [c] => if Text.isDecimalDigit c then some [c] else none
  | c :: '_' :: rest =>
    if Text.isDecimalDigit c then (plainDigits? rest).map (c :: ·) else none
  | c :: rest => if Text.isDecimalDigit c then (plainDigits? rest).map (c :: ·) else none

/-- An integer argument: an optional sign and digits, with spaces around them. -/
def integer? (argument : String) : Option Int :=
  let trimmed := ((argument.toList.dropWhile isSpace).reverse.dropWhile isSpace).reverse
  let (isNegative, digits) := match trimmed with
    | '-' :: rest => (true, rest)
    | '+' :: rest => (false, rest)
    | _ => (false, trimmed)
  (plainDigits? digits).map fun digits =>
    let value : Int := Diagnostic.decimalValue digits
    if isNegative then -value else value

/-- Whether an argument is a beginning of the option's name. -/
def isVerboseOption (argument : String) : Bool :=
  3 ≤ argument.length && argument.toList.isPrefixOf "--verbose".toList

/-- Whether an argument can only be meant as an option. Negative numbers and texts
with blanks are arguments. -/
def looksLikeOption (argument : String) : Bool :=
  match argument.toList with
  | '-' :: c :: rest => !((c :: rest).all Text.isDecimalDigit) && !rest.contains ' ' && c ≠ ' '
  | _ => false

/-- Splits arguments into those that are none of the options, and whether the option
was given. Unknown options are refused. -/
def split? : List String → Option (List String × Bool)
  | [] => some ([], false)
  | "--" :: rest => some (rest, false)
  | argument :: rest =>
    if isVerboseOption argument then (split? rest).map fun (arguments, _) => (arguments, true)
    else if looksLikeOption argument then none
    else (split? rest).map fun (arguments, isVerbose) => (argument :: arguments, isVerbose)

/-- Reads the arguments. A line needs a column. -/
def parse? (arguments : List String) : Option Options := do
  let (positional, isVerbose) ← split? arguments
  match positional with
  | [file] => some ⟨file, none, isVerbose⟩
  | [file, line, column] => some ⟨file, some (← integer? line, ← integer? column), isVerbose⟩
  | _ => none

/-- All line breaks become line feeds. -/
def normalizeLineBreaks : List Char → List Char
  | [] => []
  | '\r' :: '\n' :: rest => '\n' :: normalizeLineBreaks rest
  | '\r' :: rest => '\n' :: normalizeLineBreaks rest
  | c :: rest => c :: normalizeLineBreaks rest

/-- The word for a kind of binding in the log. -/
def bindingText : Binding → String
  | .typed .. => "VarBinding"
  | .defined .. => "TermBinding"
  | .typeAlias .. => "TypeBinding"
  | .typeParameter => "TypeVarMarker"

/-- The log line of a command being checked. -/
def checkingLine : Command → String
  | .evaluate _ loc => "DEBUG:duckscript.type_checker:checking expression at " ++ loc.toText
  | .bind name binding _ =>
    "DEBUG:duckscript.type_checker:checking " ++ bindingText binding ++ " binding " ++ name

/-- The log line of a script that was read. -/
def parsedLine (commands : List Command) : String :=
  s!"DEBUG:duckscript.parser:parsed {commands.length} commands"

/-- The log line of a fault that ends an analysis. -/
def discardingLine (fault : Fault) : String :=
  "DEBUG:duckscript.api:discarding the rest of the script: " ++ fault.diagnostic.toText

/-- The commands of a text, or none if it cannot be read. -/
def commandsOf (commands : Except Fault (List Command)) : List Command :=
  match commands with
  | .ok commands => commands
  | .error _ => []

/-- The log of checking the built-in declarations. -/
def preludeLog : List String :=
  (commandsOf (parseDeclarations preludeText.toList)).map checkingLine

/-- The log of checking a script: every command that was started. -/
def scriptLog (analysis : Analysis) (commands : List Command) : List String :=
  (commands.take (analysis.commands.length + 1)).map checkingLine

/-- Lines with a line feed behind each. -/
def unlines (lines : List String) : String := String.join (lines.map (· ++ "\n"))

/-- Shows the type at a position. -/
def showType (fuel : Nat) (line column : Int) (text : List Char) : Result :=
  match analyze fuel {} (preludeContext fuel) text with
  | .error fault => ⟨1, fault.diagnostic.toText ++ "\n", ""⟩
  | .ok analysis =>
    let commands := parseScript text
    let readLog := match commands with
      | .ok commands => [parsedLine commands]
      | .error _ => []
    let log := preludeLog ++ readLog ++ scriptLog analysis (commandsOf commands)
      ++ analysis.fault.toList.map discardingLine
    ⟨0, analysis.typeAt line column ++ "\n", unlines log⟩

/-- Validates a script. -/
def check (fuel : Nat) (text : List Char) : Result :=
  let log := match parseScript text, analyze fuel {} (preludeContext fuel) text with
    | .ok commands, .ok analysis =>
      parsedLine commands :: preludeLog ++ scriptLog analysis commands
    | _, _ => []
  match validate fuel (preludeContext fuel) text {} with
  | .ok _ _ => ⟨0, "ok\n", unlines log⟩
  | .error fault _ => ⟨1, fault.diagnostic.toText ++ "\n", unlines log⟩

/-- Does what the options ask for with the content of the file. -/
def execute (fuel : Nat) (options : Options) (content : String) : Result :=
  let text := normalizeLineBreaks content.toList
  let result := match options.position with
    | some (line, column) => showType fuel line column text
    | none => check fuel text
  if options.isVerbose then result else { result with log := "" }

end RowScript.CommandLine
