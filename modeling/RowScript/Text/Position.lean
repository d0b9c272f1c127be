/-!
# Source positions

Lines count from one and columns from zero, both in characters; the end of a
range is exclusive. Only a line feed starts a new line. A range with all four
numbers equal to minus one stands for nodes that were not written down by
anybody, so coordinates are integers rather than natural numbers.

This module says where an offset lies in a text and when a range covers a
position. It does not know how ranges are found; that is the work of the
parsers.
-/

namespace RowScript

/-- A place in a text, as a line and a column of that line. -/
structure Position where
  line : Int
  column : Int
deriving DecidableEq, Repr, Inhabited

namespace Position

/-- The position of the first character of every text. -/
def origin : Position := ⟨1, 0⟩

/-- The position one character further, when that character is `c`. -/
def advance (position : Position) (c : Char) : Position :=
  if c = '\n' then ⟨position.line + 1, 0⟩ else ⟨position.line, position.column + 1⟩

/-- Positions are ordered by line, and by column within a line. -/
instance : LT Position :=
  ⟨fun a b => a.line < b.line ∨ (a.line = b.line ∧ a.column < b.column)⟩

instance (a b : Position) : Decidable (a < b) :=
  inferInstanceAs (Decidable (a.line < b.line ∨ (a.line = b.line ∧ a.column < b.column)))

/-- The position of an offset: one more than the line feeds before it, and its
distance from the last of them. Offsets past the end of the text lie on its
last line, as far to the right as they exceed the end. -/
def ofOffset (text : List Char) (offset : Nat) : Position :=
  let before := text.take offset
  { line := before.count '\n' + 1
    column := (offset - before.length) + (before.reverse.takeWhile (· != '\n')).length }

/-- Positions are written as line and column around a colon. -/
def toText (position : Position) : String :=
  s!"{position.line}:{position.column}"

end Position

/-- A range of a text from `start` up to, and not including, `stop`. -/
structure Loc where
  start : Position
  stop : Position
deriving DecidableEq, Repr, Inhabited

namespace Loc

/-- The range of everything that does not come from a text. -/
def synthetic : Loc := ⟨⟨-1, -1⟩, ⟨-1, -1⟩⟩

/-- The range between two offsets of a text. -/
def ofOffsets (text : List Char) (start stop : Nat) : Loc :=
  ⟨.ofOffset text start, .ofOffset text stop⟩

/-- The range of the single character at a position. -/
def point (line column : Int) : Loc := ⟨⟨line, column⟩, ⟨line, column + 1⟩⟩

/-- The smallest range that covers both ranges. -/
def merge (a b : Loc) : Loc :=
  ⟨if b.start < a.start then b.start else a.start, if a.stop < b.stop then b.stop else a.stop⟩

/-- The range from the start of one node to the end of another. -/
def span (first last : Loc) : Loc := ⟨first.start, last.stop⟩

/-- Whether a range covers a position. Both ends count, since a cursor that
stands right behind a name still points at it. -/
def contains (loc : Loc) (line column : Int) : Bool :=
  if loc.start.line = loc.stop.line then
    line = loc.start.line && loc.start.column ≤ column && column ≤ loc.stop.column
  else if line = loc.start.line then
    loc.start.column ≤ column
  else if line = loc.stop.line then
    column ≤ loc.stop.column
  else
    loc.start.line < line && line < loc.stop.line

/-- Whether the range belongs to something that was written down. -/
def isWritten (loc : Loc) : Bool := 0 ≤ loc.start.line

/-- The node's own range when it has one, and otherwise the range of what is
being checked. -/
def orElse (loc : Loc) (fallback : Option Loc) : Option Loc :=
  if loc.isWritten then some loc else fallback

/-- Ranges are written as their two positions around a hyphen. -/
def toText (loc : Loc) : String := loc.start.toText ++ "-" ++ loc.stop.toText

end Loc

end RowScript
