import Offside.Proofs.Julia.Lexeme
import Offside.Proofs.Julia.Tree

/-!
# Reading the emitted language

A text of the emitted language is cut into words, numbers and marks, and read from the left.  For
each open bracket the reader keeps what stands in it so far: the elements before the last comma and
the row of operands behind it.  A closed bracket becomes one operand of the row around it.  Inside a
string the characters are taken as they are, up to the closing quote or to an expression in the
string.

Brackets decide where a row starts and ends; what the operators of a row mean is left to
`Row.resolve`.
-/

namespace Offside.Julia

open Target

/-! ## Rows in progress -/

/-- What there is of the operand at the end of a row. -/
inductive Slot
  /-- The operand has not started yet. -/
  | awaiting
  | filled (t : Tree)
  /-- A dot stands behind the operand. -/
  | dotted (t : Tree)

/-- A row in progress. -/
structure Line where
  /-- The operands before the last one, and the operator behind them. -/
  before : Option (Row × Link) := none
  /-- The signs of the last operand. -/
  signs : List Unary := []
  slot : Slot := .awaiting

/-- The row up to the given operand. -/
def complete : Option (Row × Link) → Operand → Row
  | none, operand => ⟨operand, []⟩
  | some (r, link), operand => ⟨r.first, r.rest ++ [(link, operand)]⟩

namespace Line

/-- The whole row, if it does not end too early. -/
def row? (l : Line) : Option Row :=
  match l.slot with
  | .filled t => some (complete l.before ⟨l.signs, t⟩)
  | _ => none

/-- A line whose last operand is the given one. -/
def fill (l : Line) (t : Tree) : Line := { l with slot := .filled t }

/-- An operand that stands by itself. -/
def operand? (l : Line) (t : Tree) : Option Line :=
  match l.slot with
  | .awaiting => some (l.fill t)
  | _ => none

/-- A word: an operand, the name of a member, or the name of a symbol. -/
def word? (l : Line) (text : String) : Option Line :=
  match l.slot with
  | .awaiting => some (l.fill (.leaf text))
  | .dotted t => some (l.fill (.member t text))
  | .filled .everything => some (l.fill (.symbol text))
  | .filled _ => none

/-- An operator between operands. -/
def link? (l : Line) (link : Link) : Option Line := do
  let row ← l.row?
  return { before := some (row, link) }

/-- A sign before an operand. -/
def sign? (l : Line) (op : Unary) : Option Line :=
  match l.slot with
  | .awaiting => some { l with signs := l.signs ++ [op] }
  | _ => none

/-- An operator.  Plus and minus are signs where an operand is expected. -/
def operator? (l : Line) (op : Operator) : Option Line :=
  match l.slot, op with
  | .awaiting, .plus => l.sign? (.sign .add)
  | .awaiting, .minus => l.sign? (.sign .sub)
  | _, _ => l.link? (.operator op)

/-- A colon: between operands that of a range, by itself an operand. -/
def colon? (l : Line) : Option Line :=
  match l.slot with
  | .awaiting => some (l.fill .everything)
  | _ => l.link? .colon

/-- A dot behind an operand. -/
def dot? (l : Line) : Option Line :=
  match l.slot with
  | .filled t => some { l with slot := .dotted t }
  | _ => none

end Line

/-! ## Brackets -/

/-- What an open bracket stands behind. -/
inductive Opener
  /-- The whole text, which is in no bracket. -/
  | whole
  | group
  | vector
  | call (function : Tree)
  | broadcast (function : Tree)
  | subscript (base : Tree)
  /-- An expression in a string, behind the given pieces. -/
  | embedded (pieces : List Piece)

/-- An open bracket, the elements before the last comma in it, and the row behind that comma. -/
structure Frame where
  opener : Opener
  elements : List Tree := []
  line : Line := {}

/-- The state of the reader. -/
structure State where
  /-- The innermost bracket. -/
  frame : Frame
  outer : List Frame := []
  /-- The pieces of the string that is being read. -/
  pieces : Option (List Piece) := none

/-- What is in round brackets: one expression or several. -/
def bracketed : List Tree → Tree
  | [t] => .group t
  | ts => .tuple ts

/-- The operand that a closed round bracket makes. -/
def Opener.round? : Opener → List Tree → Option Tree
  | group, ts => some (bracketed ts)
  | call f, ts => some (.call f ts)
  | broadcast f, ts => some (.broadcast f ts)
  | _, _ => none

/-- The operand that a closed square bracket makes. -/
def Opener.square? : Opener → List Tree → Option Tree
  | vector, ts => some (.vector ts)
  | subscript base, ts => some (.subscript base ts)
  | _, _ => none

/-- The bracket that opens at the end of a line with a round bracket. -/
def Line.openRound (l : Line) : Opener :=
  match l.slot with
  | .awaiting => .group
  | .filled t => .call t
  | .dotted t => .broadcast t

/-- The bracket that opens at the end of a line with a square bracket. -/
def Line.openSquare? (l : Line) : Option Opener :=
  match l.slot with
  | .awaiting => some .vector
  | .filled t => some (.subscript t)
  | .dotted _ => none

section Reading

variable (assoc : Association)

/-- The elements of a bracket that closes.  It may be empty. -/
def Frame.elements? (f : Frame) : Option (List Tree) :=
  match f.line.slot, f.elements with
  | .awaiting, [] =>
    if f.line.before.isNone && f.line.signs.isEmpty then some [] else none
  | _, _ => do
    let row ← f.line.row?
    return f.elements ++ [row.resolve assoc]

namespace State

/-- Changes the row in progress. -/
def onLine (s : State) (f : Line → Option Line) : Option State := do
  let line ← f s.frame.line
  return { s with frame := { s.frame with line } }

/-- Opens a bracket. -/
def enter (s : State) (opener : Opener) : State :=
  { frame := { opener }, outer := s.frame :: s.outer }

/-- Closes a bracket, which becomes an operand of the row around it. -/
def leave (s : State) (operand? : Opener → List Tree → Option Tree) : Option State := do
  let elements ← s.frame.elements? assoc
  let t ← operand? s.frame.opener elements
  match s.outer with
  | [] => none
  | f :: outer => return { frame := { f with line := f.line.fill t }, outer }

/-- Closes a round bracket.  That of an expression in a string leads back to the string. -/
def leaveRound (s : State) : Option State :=
  match s.frame.opener, s.outer with
  | .embedded pieces, f :: outer => do
    match ← s.frame.elements? assoc with
    | [t] => return { frame := f, outer, pieces := some (pieces ++ [.embedded t]) }
    | _ => none
  | _, _ => s.leave assoc Opener.round?

/-- Starts a string. -/
def startString (s : State) : Option State :=
  match s.frame.line.slot with
  | .awaiting => some { s with pieces := some [] }
  | _ => none

/-- Passes a word, a number or a mark. -/
def step (s : State) : Lexeme → Option State
  | .word text => s.onLine (·.word? text)
  | .number text => s.onLine (·.operand? (.leaf text))
  | .operator op => s.onLine (·.operator? op)
  | .bang => s.onLine (·.sign? .not)
  | .colon => s.onLine Line.colon?
  | .dot => s.onLine Line.dot?
  | .comma => do
    let row ← s.frame.line.row?
    let elements := s.frame.elements ++ [row.resolve assoc]
    return { s with frame := { opener := s.frame.opener, elements } }
  | .quote => s.startString
  | .parenOpen => some (s.enter s.frame.line.openRound)
  | .parenClose => s.leaveRound assoc
  | .bracketOpen => do return s.enter (← s.frame.line.openSquare?)
  | .bracketClose => s.leave assoc Opener.square?

/-- Passes a part of a string. -/
def stringStep (s : State) (pieces : List Piece) : List Char → Option (State × List Char)
  | '"' :: cs =>
    some ({ s with frame := { s.frame with line := s.frame.line.fill (.str pieces) }, pieces :=
      none }, cs)
  | '\\' :: c :: cs => some ({ s with pieces := some (pieces ++ [.char '\\', .char c]) }, cs)
  | '$' :: '(' :: cs => some (s.enter (.embedded pieces), cs)
  | c :: cs =>
    if c = '$' ∨ c = '\\' then none
    else some ({ s with pieces := some (pieces ++ [.char c]) }, cs)
  | [] => none

/-- Passes the beginning of a text. -/
def next? (s : State) (cs : List Char) : Option (State × List Char) :=
  match s.pieces with
  | some pieces => s.stringStep pieces cs
  | none =>
    match cs with
    | ' ' :: cs => some (s, cs)
    | cs => do
      let (lexeme, rest) ← lexeme? cs
      return (← s.step assoc lexeme, rest)

/-- Passing a part of a string takes at least one character. -/
theorem length_stringStep_lt {s s' : State} {pieces : List Piece} {cs rest : List Char}
    (h : s.stringStep pieces cs = some (s', rest)) : rest.length < cs.length := by
  revert h
  fun_cases stringStep s pieces cs with
  | case1 cs | case2 c cs | case3 cs | case5 c cs =>
    intro h
    obtain ⟨-, rfl⟩ := Prod.mk.inj (Option.some.inj h)
    simp only [List.length_cons]
    omega
  | case4 c cs | case6 => exact nofun

/-- Passing the beginning of a text takes at least one character. -/
theorem length_next?_lt {s s' : State} {cs rest : List Char}
    (h : s.next? assoc cs = some (s', rest)) : rest.length < cs.length := by
  revert h
  unfold next?
  cases s.pieces with
  | some pieces => exact length_stringStep_lt
  | none =>
    dsimp only
    split
    · intro h
      obtain ⟨-, rfl⟩ := Prod.mk.inj (Option.some.inj h)
      simp
    · intro h
      obtain ⟨⟨x, tail⟩, hx, h⟩ := Option.bind_eq_some_iff.mp h
      obtain ⟨s'', -, h⟩ := Option.bind_eq_some_iff.mp h
      obtain ⟨-, rfl⟩ := Prod.mk.inj (Option.some.inj h)
      exact length_lexeme?_lt hx

/-- Reads a text to its end. -/
def run (s : State) (cs : List Char) : Option State :=
  match cs with
  | [] => some s
  | c :: cs =>
    match _h : s.next? assoc (c :: cs) with
    | none => none
    | some (s', rest) => s'.run rest
termination_by cs.length
decreasing_by exact length_next?_lt assoc _h

/-- The expression that was read, if all brackets are closed. -/
def result? (s : State) : Option Tree :=
  match s.frame.opener, s.frame.elements, s.outer, s.pieces with
  | .whole, [], [], none => s.frame.line.row?.map (·.resolve assoc)
  | _, _, _, _ => none

end State

/-- The expression that a text stands for. -/
def read (text : String) : Option Tree := do
  let s ← State.run assoc { frame := { opener := .whole } } text.toList
  s.result? assoc

end Reading

end Offside.Julia
