import RowScript.Text.Quoted

/-!
# Comments

Types are written in comments, so comments are read and not skipped. They are
found first, with strings in the way so that a comment mark inside a string is
text, and then blanked out: every character except line feeds becomes a space,
which keeps all offsets and positions of the code between them.
-/

namespace RowScript.Text

/-- A comment with its range. The value excludes the comment marks, and `offset`
is where the value starts. -/
structure Comment where
  loc : Loc
  isBlock : Bool
  value : List Char
  offset : Nat
deriving DecidableEq, Repr, Inhabited

/-- Replaces everything but line feeds by spaces. -/
def blank (text : List Char) : List Char := text.map fun c => if c = '\n' then c else ' '

/-- Blanks everything outside a stretch of a text. -/
def blankAround (text : List Char) (offset length : Nat) : List Char :=
  blank (text.take offset) ++ (text.drop offset).take length
    ++ blank ((text.drop offset).drop length)

/-- Blanks a stretch of a text. -/
def blankWithin (text : List Char) (offset length : Nat) : List Char :=
  text.take offset ++ blank ((text.drop offset).take length)
    ++ (text.drop offset).drop length

namespace Comment

/-- The number of characters before the first end mark of a block comment. -/
def blockLength? : List Char → Option Nat
  | [] => none
  | '*' :: '/' :: _ => some 0
  | _ :: rest => (blockLength? rest).map (· + 1)

/-- The number of characters up to the end of a line comment. A backslash before
the line feed continues the comment on the next line. -/
def lineLength : List Char → Nat
  | [] => 0
  | '\\' :: '\n' :: rest => lineLength rest + 2
  | c :: rest => if c = '\n' then 0 else lineLength rest + 1

/-- The comment at the cursor, and the cursor behind it. -/
def read? (cursor : Cursor) : Option (Comment × Cursor) :=
  match cursor.ahead with
  | '/' :: '*' :: body =>
    (blockLength? body).map fun length =>
      let rest := cursor.drop (length + 4)
      (⟨⟨cursor.position, rest.position⟩, true, body.take length, cursor.offset + 2⟩, rest)
  | '/' :: '/' :: body =>
    let length := lineLength body
    let rest := cursor.drop (length + 2)
    some (⟨⟨cursor.position, rest.position⟩, false, body.take length, cursor.offset + 2⟩, rest)
  | _ => none

/-- The comments behind a cursor, in a given number of steps. A step skips blanks
and then takes a string, a comment or a single character. -/
def scanUpTo : Nat → Cursor → List Comment
  | 0, _ => []
  | n + 1, cursor =>
    let cursor := cursor.skipBlanks
    match Parser.quotedHere cursor with
    | .done _ rest => scanUpTo n rest
    | _ =>
      match read? cursor with
      | some (comment, rest) => comment :: scanUpTo n rest
      | none => if cursor.ahead.isEmpty then [] else scanUpTo n cursor.next

/-- All comments of a text, in order. -/
def scan (text : List Char) : List Comment := scanUpTo (text.length + 1) (.start text)

/-- The length of the whole comment, marks included. -/
def length (comment : Comment) : Nat :=
  comment.value.length + if comment.isBlock then 4 else 2

/-- Blanks the comments of a text. -/
def eraseAll (text : List Char) (comments : List Comment) : List Char :=
  comments.foldl (fun text comment => blankWithin text (comment.offset - 2) comment.length) text

/-- The text with everything except the comment's value blanked, so that what is
read from it keeps its place in the text. -/
def isolate (text : List Char) (comment : Comment) : List Char :=
  blankAround text comment.offset comment.value.length

end Comment

end RowScript.Text
