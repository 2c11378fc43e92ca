import Offside.Class.Registry
import Offside.Event
import Offside.NameTable
import Offside.Reader.Stream

/-!
# Readers

A reader turns tokens into a tree.  It looks at the current token to choose a rule, and names what
it expected when no rule applies.  The names and the classes met are kept also when it fails, and it
can be used on from where it stopped.

Repetitions are bounded by the number of tokens that are left: every round passes at least one.
-/

namespace Offside

/-- The state of a reader. -/
structure Reader where
  stream : TokenStream
  names : NameTable := {}
  registry : ClassRegistry := {}
  /-- The number of blocks around the current token. -/
  blockDepth : Nat := 0
  /-- What the reader reported, the latest first. -/
  reported : List Event := []

/-- A step of a reader.  The state is kept when the step fails. -/
abbrev Read := EStateM ReadError Reader

namespace Reader

/-- A reader at the first of some tokens. -/
def ofTokens (tokens : List Token) (names : NameTable := {}) : Reader where
  stream := .ofTokens tokens
  names := names

/-! ## Single tokens -/

/-- The kind of the current token. -/
def peek : Read Kind := return (← get).stream.peek

/-- Passes the current token. -/
def advance : Read Token :=
  modifyGet fun r => (r.stream.current, { r with stream := r.stream.advance })

/-- Where the current token starts. -/
def location : Read Location := return (← get).stream.location

/-- The span from a location to where the last token passed stops. -/
def spanFrom (start : Location) : Read Span := return ⟨start, (← get).stream.stop⟩

/-- The number of tokens that are left. -/
def remaining : Read Nat := return (← get).stream.size

/-- Enters a name in the table. -/
def intern (name : String) : Read Unit :=
  modify fun r => { r with names := r.names.intern name }

/-- Fails with a semantic error. -/
def refuse {α : Type} (cause : SemanticCause) (location : Option Location) : Read α :=
  throw (.semantic ⟨cause, location⟩)

/-- How the current token is named when it is not what was expected. -/
def found (r : Reader) : String :=
  match r.stream.peek with
  | .identifier name => "identifier '" ++ name ++ "'"
  | kind => kind.describe

/-- Fails at the current token, which is not what was expected. -/
def unexpected {α : Type} (expected : String) : Read α := do
  let r ← get
  throw (.grammar ⟨.unexpectedToken expected r.found, r.stream.location⟩)

/-- Passes the current token if it is accepted. -/
def expect (accepts : Kind → Bool) (expected : String) : Read Token := do
  if accepts (← peek) then advance else unexpected expected

/-- Passes the given delimiter. -/
def expectDelimiter (d : Delimiter) : Read Token :=
  expect (·.isDelimiter d) ("'" ++ d.spelling ++ "'")

/-- Passes the given keyword. -/
def expectKeyword (k : Keyword) : Read Token :=
  expect (·.isKeyword k) ("'" ++ k.spelling ++ "'")

/-- Passes an identifier, or the name of a known function used as an identifier. -/
def expectName (expected : String) : Read String := do
  match ← peek with
  | .identifier name =>
    discard advance
    return name
  | .function name =>
    discard advance
    intern name
    return name
  | _ => unexpected expected

/-- Passes the given delimiter if it is the current token, and tells whether it was. -/
def eat (d : Delimiter) : Read Bool := do
  if (← peek).isDelimiter d then
    discard advance
    return true
  else return false

/-! ## Repetitions -/

/-- Reads items while the current kind starts one, at most `bound` of them. -/
def manyWithin {α : Type} (starts : Kind → Bool) (item : Read α) : Nat → Read (List α)
  | 0 => return []
  | bound + 1 => do
    if starts (← peek) then
      let first ← item
      return first :: (← manyWithin starts item bound)
    else return []

/-- Reads items while the current kind starts one. -/
def many {α : Type} (starts : Kind → Bool) (item : Read α) : Read (List α) := do
  manyWithin starts item (← remaining)

/-- Reads operators and the operands behind them, at most `bound` of each. -/
def chainWithin {α β : Type} (operator : Kind → Option β) (operand : Read α) :
    Nat → Read (List (β × α))
  | 0 => return []
  | bound + 1 => do
    match operator (← peek) with
    | none => return []
    | some op =>
      discard advance
      let first ← operand
      return (op, first) :: (← chainWithin operator operand bound)

/-- Reads an operand, and further operands behind operators. -/
def chain {α β : Type} (operator : Kind → Option β) (operand : Read α) :
    Read (α × List (β × α)) := do
  let first ← operand
  return (first, ← chainWithin operator operand (← remaining))

/-- The empty operator that a kind stands for. -/
def separator (is : Kind → Bool) (kind : Kind) : Option Unit :=
  if is kind then some () else none

/-- Reads an item, and further items behind commas. -/
def commaSeparated {α : Type} (item : Read α) : Read (List α) := do
  let (first, rest) ← chain (separator (·.isDelimiter .comma)) item
  return first :: rest.map Prod.snd

/-- Reads items up to a closing bracket, with a comma between two of them and an optional one behind
the last, at most `bound` of them. -/
def itemsWithin {α : Type} (closing : Delimiter) (expected : String) (item : Read α) :
    Nat → Read (List α)
  | 0 => return []
  | bound + 1 => do
    if (← peek).isDelimiter closing then return []
    else
      let first ← item
      if ← eat .comma then return first :: (← itemsWithin closing expected item bound)
      else if (← peek).isDelimiter closing then return [first]
      else unexpected expected

/-- Reads items between brackets, with a comma between two of them and an optional one behind the
last. -/
def bracketed {α : Type} (opening closing : Delimiter) (expected : String) (item : Read α) :
    Read (List α) := do
  discard (expectDelimiter opening)
  let items ← itemsWithin closing expected item (← remaining)
  discard (expectDelimiter closing)
  return items

end Reader

end Offside
