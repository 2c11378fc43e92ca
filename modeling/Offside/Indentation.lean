import Offside.Error

/-!
# Indentation

The levels of the lines that are still open, innermost first.  The lowest level, zero, is always
open and is not stored.  A line deeper than the innermost level opens one level, however much deeper
it is.  A line that is less deep closes one level at a time: the level of the line is remembered,
and further levels are closed on request until it is reached.
-/

namespace Offside

/-- What a new line does to the open levels. -/
inductive IndentChange
  | indent
  | dedent
  | same
deriving DecidableEq, Repr, Inhabited

/-- The open levels above zero, innermost first, and the level of the current line. -/
structure Indentation where
  opened : List Nat := []
  measured : Nat := 0
deriving DecidableEq, Repr, Inhabited

namespace Indentation

/-- The innermost open level. -/
def top (i : Indentation) : Nat := i.opened.headD 0

/-- The number of open levels above zero. -/
def depth (i : Indentation) : Nat := i.opened.length

/-- All open levels, outermost first. -/
def levels (i : Indentation) : List Nat := 0 :: i.opened.reverse

/-- Starts a line of the given level. -/
def enterLine (i : Indentation) (level : Nat) : IndentChange × Indentation :=
  if i.top < level then (.indent, ⟨level :: i.opened, level⟩)
  else if level < i.top then (.dedent, ⟨i.opened.tail, level⟩)
  else (.same, { i with measured := level })

/-- Closes one more level for the current line, and tells whether there was one to close.  A line
between two open levels matches neither. -/
def continueDedent (i : Indentation) : Except LexicalCause Bool × Indentation :=
  if i.measured < i.top then (.ok true, { i with opened := i.opened.tail })
  else if i.top < i.measured then (.error .inconsistentDedent, i)
  else (.ok false, i)

/-- Closes one level at the end of the text, and tells whether there was one to close. -/
def flushOne (i : Indentation) : Bool × Indentation :=
  (!i.opened.isEmpty, ⟨i.opened.tail, 0⟩)

end Indentation

end Offside
