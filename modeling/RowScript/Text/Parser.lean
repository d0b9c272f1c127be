import RowScript.Text.CharClass
import RowScript.Text.Position

/-!
# Parsers with committed choices

A parser reads from a cursor and either succeeds further on or fails at an
offset. There are two kinds of failure. An ordinary one lets a choice try its
next alternative and ends a repetition. A fatal one is what a failure becomes
behind a token that settles what is being read; nothing recovers from it.

A choice whose alternatives all fail reports the failure that got furthest.
Blanks are skipped in front of every token. An optional part that is absent,
and a run of operators that is empty, leave the cursor behind the blanks that
were looked at; the ranges of the nodes around them follow from that.

Every repetition is bounded by the number of characters left, so all parsers
here are total functions of the cursor.
-/

namespace RowScript.Text

/-- A place inside a text: what is ahead, the character just passed, and how far
the place is from the start, counted in characters and as a position. -/
structure Cursor where
  offset : Nat
  position : Position
  last : Option Char
  ahead : List Char
deriving Inhabited

namespace Cursor

/-- The cursor in front of a whole text. -/
def start (text : List Char) : Cursor := ⟨0, .origin, none, text⟩

/-- One character further; at the end of the text the cursor stays. -/
def next (cursor : Cursor) : Cursor :=
  match cursor.ahead with
  | [] => cursor
  | c :: rest => ⟨cursor.offset + 1, cursor.position.advance c, some c, rest⟩

/-- A number of characters further. -/
def drop : Nat → Cursor → Cursor
  | 0, cursor => cursor
  | n + 1, cursor => drop n cursor.next

/-- Past all characters of a class. -/
def dropWhile (p : Char → Bool) (cursor : Cursor) : Cursor :=
  cursor.drop (cursor.ahead.takeWhile p).length

/-- Past the blanks in front of the next token. -/
def skipBlanks (cursor : Cursor) : Cursor := cursor.dropWhile isBlank

end Cursor

/-- What a parser makes of the text at a cursor. -/
inductive Outcome (α : Type) where
  | done (value : α) (rest : Cursor)
  | failed (offset : Nat)
  | fatal (offset : Nat)

/-- A parser for values of type `α`. -/
def Parser (α : Type) : Type := Cursor → Outcome α

namespace Parser

variable {α β : Type}

protected def pure (value : α) : Parser α := fun cursor => .done value cursor

protected def bind (p : Parser α) (f : α → Parser β) : Parser β := fun cursor =>
  match p cursor with
  | .done value rest => f value rest
  | .failed offset => .failed offset
  | .fatal offset => .fatal offset

instance : Monad Parser where
  pure := Parser.pure
  bind := Parser.bind

/-- Fails without reading anything. -/
def fail : Parser α := fun cursor => .failed cursor.offset

/-- The first alternative that succeeds. When both fail, the failure further on
counts, since it belongs to the alternative that understood more of the text. -/
protected def orElse (p : Parser α) (q : Unit → Parser α) : Parser α := fun cursor =>
  match p cursor with
  | .failed first =>
    match q () cursor with
    | .failed second => .failed (max first second)
    | outcome => outcome
  | outcome => outcome

instance : OrElse (Parser α) := ⟨Parser.orElse⟩

/-- Settles the choice made so far: a failure of `p` is fatal. -/
def commit (p : Parser α) : Parser α := fun cursor =>
  match p cursor with
  | .failed offset => .fatal offset
  | outcome => outcome

/-- A part that may be absent. -/
def optional (p : Parser α) : Parser (Option α) := fun cursor =>
  match p cursor with
  | .done value rest => .done (some value) rest
  | .failed _ => .done none cursor.skipBlanks
  | .fatal offset => .fatal offset

/-- Repeats `p` until it fails, at most a given number of times. -/
def manyUpTo (p : Parser α) : Nat → Parser (List α)
  | 0 => pure []
  | n + 1 => fun cursor =>
    match p cursor with
    | .failed _ => .done [] cursor
    | .fatal offset => .fatal offset
    | .done value rest =>
      match manyUpTo p n rest with
      | .done values last => .done (value :: values) last
      | .failed offset => .failed offset
      | .fatal offset => .fatal offset

/-- Repeats `p` until it fails, and ends right behind the last success. This is how a
choice is repeated: it is tried where it stands, and each alternative skips the blanks for
itself. A parser that reads something each time cannot succeed more often than there are
characters ahead. -/
def many (p : Parser α) : Parser (List α) := fun cursor =>
  manyUpTo p cursor.ahead.length cursor

/-- Repeats `p` until it fails; an empty run ends behind the blanks. This is how a sequence
is repeated: the blanks before its first token are skipped before it is tried. -/
def manyOrBlanks (p : Parser α) : Parser (List α) := fun cursor =>
  match many p cursor with
  | .done [] _ => .done [] cursor.skipBlanks
  | outcome => outcome

/-- Runs `p` and adds the range that it read, without the blanks before it. -/
def located (p : Parser α) : Parser (Loc × α) := fun cursor =>
  match p cursor with
  | .done value rest => .done (⟨cursor.skipBlanks.position, rest.position⟩, value) rest
  | .failed offset => .failed offset
  | .fatal offset => .fatal offset

/-- A token: what `read` says about the characters behind the blanks is its value
and its length. -/
def token (read : List Char → Option (α × Nat)) : Parser α := fun cursor =>
  let cursor := cursor.skipBlanks
  match read cursor.ahead with
  | some (value, length) => .done value (cursor.drop length)
  | none => .failed cursor.offset

/-- The first of several fixed spellings, each with its meaning. Spellings that
start with another one have to come before it. -/
def oneOf (spellings : List (String × α)) : Parser α :=
  token fun ahead =>
    (spellings.find? fun (spelling, _) => spelling.toList.isPrefixOf ahead).map
      fun (spelling, value) => (value, spelling.length)

/-- A fixed spelling. -/
def symbol (spelling : String) : Parser Unit := oneOf [(spelling, ())]

/-- One character of a class followed by any number of another. -/
def wordOf (first rest : Char → Bool) : Parser String :=
  token fun
    | [] => none
    | c :: ahead =>
      if first c then
        let tail := ahead.takeWhile rest
        some (String.ofList (c :: tail), tail.length + 1)
      else none

/-- One or more characters of a class. -/
def word (p : Char → Bool) : Parser String := wordOf p p

/-- Reads a keyword at the cursor: it must not touch another keyword character on
either side. A keyword that does is reported behind itself or on the character
it touches. -/
def keywordHere (spelling : String) : Parser Unit := fun cursor =>
  if spelling.toList.isPrefixOf cursor.ahead then
    let rest := cursor.drop spelling.length
    if cursor.last.any isKeywordChar then .failed (cursor.offset - 1)
    else if rest.ahead.head?.any isKeywordChar then .failed rest.offset
    else .done () rest
  else .failed cursor.offset

/-- A keyword behind blanks. -/
def keyword (spelling : String) : Parser Unit := fun cursor =>
  keywordHere spelling cursor.skipBlanks

/-- Succeeds where none of the keywords comes next, and reads nothing. -/
def noKeyword (spellings : List String) : Parser Unit := fun cursor =>
  let isNext (spelling : String) : Bool :=
    match keyword spelling cursor with
    | .done .. => true
    | _ => false
  if spellings.any isNext then .failed cursor.offset else .done () cursor

/-- One or more items with commas between them. -/
def commaSeparated (p : Parser α) : Parser (List α) := do
  let first ← p
  let others ← many do
    symbol ","
    p
  return first :: others

/-- Items with commas between them, and one more comma if there is one. -/
def commaTerminated (p : Parser α) : Parser (List α) := do
  let items ← commaSeparated p
  let _ ← optional (symbol ",")
  return items

/-- Any number of comma separated items between two delimiters. -/
def between (opening closing : String) (items : Parser (List α)) : Parser (List α) := do
  symbol opening
  let items ← optional items
  symbol closing
  return items.getD []

/-- Reads a whole text, or gives the offset at which it stops making sense. -/
def run (p : Parser α) (text : List Char) : Except Nat α :=
  match p (.start text) with
  | .done value rest =>
    if rest.skipBlanks.ahead.isEmpty then .ok value else .error rest.skipBlanks.offset
  | .failed offset => .error offset
  | .fatal offset => .error offset

end Parser

end RowScript.Text
