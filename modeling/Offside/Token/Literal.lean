import Offside.Token.Number

/-!
# String literals

A string stands between two equal marks, which are one quote or three.  A single-quoted string ends
on its line.  A backslash starts an escape; an escape that is not known stands for itself, and an
escaped newline for nothing.

The text between the marks is read piece by piece.  Each piece takes something from the rest of the
source, so the reading ends.
-/

namespace Offside

/-- The marks around a string: the quote, and whether it is written three times. -/
structure Quotes where
  mark : Char
  triple : Bool
deriving DecidableEq, Repr, Inhabited

/-- Whether a character is a quote. -/
def isQuote (d : Char) : Bool := d == '"' || d == '\''

namespace Quotes

/-- Passes the opening marks at a quote. -/
def openAt (c : Cursor) : Quotes × Cursor :=
  let mark := c.peek.getD '"'
  let next := c.skip
  if next.peek = some mark ∧ next.peekSecond = some mark then (⟨mark, true⟩, next.skipMany 2)
  else (⟨mark, false⟩, next)

/-- The closing marks. -/
def closing (q : Quotes) : List Char :=
  List.replicate (if q.triple then 3 else 1) q.mark

/-- The cursor behind the closing marks, when they follow. -/
def close? (q : Quotes) (c : Cursor) : Option Cursor :=
  if q.closing.isPrefixOf c.rest then some (c.skipMany q.closing.length) else none

end Quotes

/-- The text that an escaped character stands for. -/
def unescaped : Char → List Char
  | 'n' => ['\n']
  | 't' => ['\t']
  | 'r' => ['\r']
  | '0' => ['\x00']
  | '\\' => ['\\']
  | '\'' => ['\'']
  | '"' => ['"']
  | '\n' => []
  | d => ['\\', d]

/-- One step of reading a string. -/
inductive Piece (c : Cursor)
  /-- The string ends here. -/
  | closed (next : Cursor)
  /-- The string goes on with some text. -/
  | text (text : List Char) (next : Cursor) (shorter : next.rest.length < c.rest.length)
  /-- The string cannot be read on. -/
  | stuck (error : LexicalError) (next : Cursor)

/-- Reads the next piece of a string that started at `start`. -/
def scanPiece (start : Location) (q : Quotes) (c : Cursor) : Piece c :=
  match q.close? c with
  | some next => .closed next
  | none =>
    match h : c.advance with
    | none => .stuck ⟨.unterminatedString, start⟩ c
    | some (d, next) =>
      if d = '\n' ∧ !q.triple then .stuck ⟨.unterminatedString, start⟩ c
      else if d = '\\' then
        match h' : next.advance with
        | none => .stuck ⟨.incompleteEscape, next.location⟩ next
        | some (e, after) =>
          .text (unescaped e) after
            (Nat.lt_trans (Cursor.length_lt_of_advance h') (Cursor.length_lt_of_advance h))
      else .text [d] next (Cursor.length_lt_of_advance h)

/-- Reads the text of a string behind its opening marks. -/
def scanText (start : Location) (q : Quotes) (c : Cursor) : Scanned (List Char) :=
  match scanPiece start q c with
  | .closed next => (.ok [], next)
  | .stuck e next => (.error e, next)
  | .text text next _ =>
    let (result, final) := scanText start q next
    (result.map (text ++ ·), final)
termination_by c.rest.length

/-- Reads a string at its first quote. -/
def scanString (c : Cursor) : Scanned Kind :=
  let (q, next) := Quotes.openAt c
  let (result, final) := scanText c.location q next
  (result.map fun text => .str (String.ofList text), final)

end Offside
