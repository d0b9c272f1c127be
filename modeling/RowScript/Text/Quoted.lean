import RowScript.Text.Parser

/-!
# Quoted strings and balanced groups

A string stands between two single or two double quotes. Inside, the quote
itself is written twice, and a backslash takes the next character with it,
whatever that is; only the escape `\x` insists on a hexadecimal digit. A line
break ends the string unless a backslash stands before it.

The value of a string drops the outer quotes and every escaping backslash. A
doubled quote stays doubled, and a backslash before a line break stays as well.
-/

namespace RowScript.Text

/-- The length of the longest string body at the start of a text. -/
def quotedBodyLength (quote : Char) : List Char → Nat
  | [] => 0
  | '\\' :: 'x' :: digit :: rest =>
    if isHexDigit digit then quotedBodyLength quote rest + 3 else 0
  | '\\' :: c :: rest => if c = 'x' then 0 else quotedBodyLength quote rest + 2
  | c :: rest =>
    if c = quote then
      match rest with
      | d :: rest => if d = quote then quotedBodyLength quote rest + 2 else 0
      | [] => 0
    else if c = '\\' || c = '\n' || c = '\r' then 0
    else quotedBodyLength quote rest + 1

/-- Removes the backslash before every character that is not a line break. -/
def unescape : List Char → List Char
  | [] => []
  | '\\' :: c :: rest => if c = '\n' then '\\' :: c :: unescape rest else c :: unescape rest
  | c :: rest => c :: unescape rest

namespace Parser

/-- A string with the given quote, at the cursor. A missing closing quote is
reported where it was expected. -/
def quotedWith (quote : Char) : Parser String := fun cursor =>
  match cursor.ahead with
  | [] => .failed cursor.offset
  | c :: body =>
    if c = quote then
      let length := quotedBodyLength quote body
      let closing := cursor.drop (length + 1)
      if closing.ahead.head? = some quote then
        .done (String.ofList (cursor.ahead.take (length + 2))) closing.next
      else .failed closing.offset
    else .failed cursor.offset

/-- A string at the cursor, quotes included. -/
def quotedHere : Parser String := quotedWith '"' <|> quotedWith '\''

/-- A string behind blanks, quotes included. -/
def quoted : Parser String := fun cursor => quotedHere cursor.skipBlanks

/-- The length of a run of characters that are no blanks, no delimiters and do
not open a string. -/
def plainRunLength (opening closing : Char) : Nat → Cursor → Nat
  | 0, _ => 0
  | n + 1, cursor =>
    match quotedHere cursor, cursor.ahead with
    | .done .., _ => 0
    | _, [] => 0
    | _, c :: _ =>
      if c = opening || c = closing || isBlank c then 0
      else plainRunLength opening closing n cursor.next + 1

/-- A run of characters inside a group. A quote that opens no string is an
ordinary character. -/
def plainRun (opening closing : Char) : Parser Unit := fun cursor =>
  let cursor := cursor.skipBlanks
  match plainRunLength opening closing cursor.ahead.length cursor with
  | 0 => .failed cursor.offset
  | length + 1 => .done () (cursor.drop (length + 1))

/-- The closing delimiter of a group. Where it is missing, the failure is reported
right behind the last piece of the group. -/
def groupEnd (closing : Char) : Parser Unit := fun cursor =>
  if cursor.skipBlanks.ahead.head? = some closing then .done () cursor.skipBlanks.next
  else .failed cursor.offset

/-- A group of strings, plain runs and inner groups between two delimiters, with
inner groups down to a given depth. -/
def groupUpTo (opening closing : Char) : Nat → Parser Unit
  | 0 => fail
  | depth + 1 => fun cursor =>
    (do
      symbol opening.toString
      let _ ← many (discard quoted <|> groupUpTo opening closing depth
        <|> plainRun opening closing)
      groupEnd closing : Parser Unit) cursor

/-- A balanced group. Every inner group takes a character, so its depth is bounded
by what is ahead. -/
def group (opening closing : Char) : Parser Unit := fun cursor =>
  groupUpTo opening closing (cursor.ahead.length + 1) cursor

end Parser

end RowScript.Text
