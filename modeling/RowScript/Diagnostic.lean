import RowScript.Text.CharClass
import RowScript.Text.Position

/-!
# Diagnostics and their text form

A diagnostic is a kind, a message and, most of the time, a range. With a range
it is written `Line <l1>..<l2> col <c1>..<c2>: <message>`, without one as its
bare message. Reading such a text back yields the range and the message again,
unless the message is empty or a message without a range happens to look like
one with a range.
-/

namespace RowScript

/-- The kinds of failure a reader of diagnostics can tell apart. -/
inductive Diagnostic.Kind where
  | general
  | grammar
  | structural
  | undeclaredName
  | redefinition
  | reservedWord
  | typeMismatch
  | missingField
  | circularType
  | outOfTypeVariables
deriving DecidableEq, Repr, Inhabited

/-- A missing field is a type mismatch too; nothing else is. -/
def Diagnostic.Kind.isMismatch : Diagnostic.Kind → Bool
  | .typeMismatch | .missingField => true
  | _ => false

/-- A failure as it is reported. -/
structure Diagnostic where
  kind : Diagnostic.Kind
  message : String
  loc : Option Loc
deriving DecidableEq, Repr, Inhabited

namespace Diagnostic

/-- The text of a message with an optional range. -/
def format (loc : Option Loc) (message : String) : String :=
  match loc with
  | none => message
  | some ⟨start, stop⟩ =>
    s!"Line {start.line}..{stop.line} col {start.column}..{stop.column}: {message}"

/-- The value of a run of decimal digits. -/
def decimalValue (digits : List Char) : Nat :=
  digits.foldl (fun value c => value * 10 + (Text.digitValue? c).getD 0) 0

/-- An integer at the start of a text, and the rest of the text. -/
def readInt? (text : List Char) : Option (Int × List Char) :=
  let (negative, text) := match text with
    | '-' :: rest => (true, rest)
    | _ => (false, text)
  let digits := text.takeWhile Text.isDecimalDigit
  if digits.isEmpty then none
  else
    let value : Int := decimalValue digits
    some (if negative then -value else value, text.drop digits.length)

/-- The rest of a text behind a fixed beginning. -/
def readFixed? (beginning : String) (text : List Char) : Option (List Char) :=
  if beginning.toList.isPrefixOf text then some (text.drop beginning.length) else none

/-- The range and the message of a text in the located form. -/
def readLocated? (text : List Char) : Option (Loc × List Char) := do
  let text ← readFixed? "Line " text
  let (startLine, text) ← readInt? text
  let text ← readFixed? ".." text
  let (stopLine, text) ← readInt? text
  let text ← readFixed? " col " text
  let (startColumn, text) ← readInt? text
  let text ← readFixed? ".." text
  let (stopColumn, text) ← readInt? text
  let message ← readFixed? ": " text
  if message.isEmpty then none
  else some (⟨⟨startLine, startColumn⟩, ⟨stopLine, stopColumn⟩⟩, message)

/-- Splits a text into its range and its message. A text in another form is a
message without range. -/
def parse (text : String) : Option Loc × String :=
  match readLocated? text.toList with
  | some (loc, message) => (some loc, String.ofList message)
  | none => (none, text)

/-- The text form of a diagnostic. -/
def toText (diagnostic : Diagnostic) : String := format diagnostic.loc diagnostic.message

/-- The diagnostic of a given kind that a text stands for. -/
def ofText (kind : Kind) (text : String) : Diagnostic :=
  let (loc, message) := parse text
  ⟨kind, message, loc⟩

end Diagnostic

end RowScript
