import Offside.Token.Number

/-!
# Layout of the source

What is skipped between tokens, and how deep a line is indented.  A line is indented by spaces only,
four to a level.  Blank lines and lines that hold only a comment have no level.
-/

namespace Offside

/-- The width of one level of indentation. -/
def indentUnit : Nat := 4

/-- The cursor behind a comment, at the end of its line. -/
def skipComment (c : Cursor) : Cursor :=
  (c.run (!isNewline ·)).2

theorem length_skipComment_lt {c : Cursor} (h : c.peek = some '#') :
    (skipComment c).rest.length < c.rest.length :=
  Cursor.length_run_lt h (by decide)

/-- Skips blank lines and comments, and the indentation of the line behind them, whose level is the
answer.  The end of the text has level zero. -/
def measureIndentation (c : Cursor) : Scanned Nat :=
  let width := (c.run (· == ' ')).1.length
  let next := (c.run (· == ' ')).2
  match _h : next.peek with
  | none => (.ok 0, next)
  | some d =>
    if d = '\t' then (.error ⟨.tabInIndentation, next.location⟩, next)
    else if d = '#' then measureIndentation (skipComment next)
    else if isNewline d then measureIndentation next.skip
    else if width % indentUnit = 0 then (.ok (width / indentUnit), next)
    else (.error ⟨.invalidIndentation width, next.location⟩, next)
termination_by c.rest.length
decreasing_by
  · rename_i hd
    subst hd
    exact Nat.lt_of_lt_of_le (length_skipComment_lt _h) (Cursor.length_run_le _ c)
  · exact Nat.lt_of_lt_of_le (Cursor.length_skip_lt _h) (Cursor.length_run_le _ c)

/-- A blank within a line. -/
def isGap (d : Char) : Bool := d == ' ' || d == '\t' || d == '\x0c'

/-- Skips blanks, comments and joined lines.  A line is joined to the next by a backslash at its
end, and all lines are joined if `joined` is set. -/
def skipGaps (joined : Bool) (c : Cursor) : Cursor :=
  match _h : c.peek with
  | none => c
  | some d =>
    if isGap d then skipGaps joined c.skip
    else if d = '#' then skipGaps joined (skipComment c)
    else if d = '\\' ∧ c.peekSecond.any isNewline then skipGaps joined (c.skipMany 2)
    else if isNewline d ∧ joined then skipGaps joined c.skip
    else c
termination_by c.rest.length
decreasing_by
  · exact Cursor.length_skip_lt _h
  · rename_i hd
    subst hd
    exact length_skipComment_lt _h
  · exact Nat.lt_of_le_of_lt (Cursor.length_skip_le _) (Cursor.length_skip_lt _h)
  · exact Cursor.length_skip_lt _h

end Offside
