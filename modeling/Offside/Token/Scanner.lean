import Offside.Indentation
import Offside.Token.Formatted
import Offside.Token.Layout
import Offside.Token.Vocabulary

/-!
# Scanners

A scanner yields one token at a time.  It is told when it stands at the start of a line, so that it
measures the indentation there, and when a block was just closed, so that it closes the further
blocks that end on the same line.  At the end of the text it ends the last line, closes the blocks
that are open, and then reports the end of input for ever.

The scanner keeps its place, the names met and the open blocks also when it fails, and can be used
on from there.
-/

namespace Offside

/-- The state of a scanner. -/
structure Scanner where
  cursor : Cursor
  names : NameTable := {}
  indentation : Indentation := {}
  /-- The number of brackets that are open. -/
  bracketDepth : Nat := 0
  /-- Whether the current line holds a token. -/
  lineHasTokens : Bool := false
  /-- Whether the text is an expression embedded in a formatted string. -/
  embedded : Bool := false

/-- A step of a scanner.  The state is kept when the step fails. -/
abbrev Scan := EStateM LexicalError Scanner

namespace Scanner

/-- A scanner at the beginning of a text. -/
def ofText (text : String) (names : NameTable := {}) : Scanner where
  cursor := .ofText text
  names := names

/-- Runs a step that concerns the cursor alone. -/
def onCursor {α : Type} (step : Cursor → Scanned α) : Scan α := fun s =>
  match step s.cursor with
  | (.ok a, cursor) => .ok a { s with cursor }
  | (.error e, cursor) => .error e { s with cursor }

/-- Whether lines are joined here. -/
def joined (s : Scanner) : Bool := 0 < s.bracketDepth || s.embedded

/-- The token at the end of the text. -/
def finish : Scan Token := fun s =>
  let here := s.cursor.location
  if s.embedded then .ok (.mark .endOfInput here) s
  else if s.lineHasTokens then .ok (.mark .newline here) { s with lineHasTokens := false }
  else
    let (closed, indentation) := s.indentation.flushOne
    .ok (.mark (if closed then .dedent else .endOfInput) here) { s with indentation }

/-- Reads a word, or the formatted string that it starts. -/
def scanWord (nested : EmbeddedScanner) : Scan Kind := fun s =>
  let (word, next) := s.cursor.run Text.isWordPart
  if (word = ['f'] ∨ word = ['F']) ∧ next.peek.any isQuote then
    match scanFormatted nested s.cursor.location s.names next with
    | (.ok kind, names, cursor) => .ok kind { s with cursor, names }
    | (.error e, names, cursor) => .error e { s with cursor, names }
  else
    match Kind.ofWord (String.ofList word) with
    | .identifier name =>
      .ok (.identifier name) { s with cursor := next, names := s.names.intern name }
    | kind => .ok kind { s with cursor := next }

/-- Reads a symbol that starts with `d`. -/
def scanSymbol (d : Char) : Scan Kind := fun s =>
  match symbol? s.cursor.rest with
  | none => .error ⟨.unexpectedCharacter d, s.cursor.location⟩ s
  | some (spelling, kind) =>
    let cursor := s.cursor.skipMany spelling.length
    match kind with
    | .delimiter mark =>
      .ok kind { s with cursor, bracketDepth := mark.depthAfter s.bracketDepth }
    | _ => .ok kind { s with cursor }

/-- Reads the word, number, string or symbol that starts with `d`. -/
def scanKind (nested : EmbeddedScanner) (d : Char) : Scan Kind :=
  if Text.isWordStart d then scanWord nested
  else if d.isDigit then onCursor scanNumber
  else if isQuote d then onCursor scanString
  else scanSymbol d

/-- Reads a token within a line. -/
def scanWith (nested : EmbeddedScanner) : Scan Token := do
  modify fun s => { s with cursor := skipGaps s.joined s.cursor }
  let start := (← get).cursor.location
  match (← get).cursor.peek with
  | none => finish
  | some d =>
    if isNewline d then
      modify fun s => { s with cursor := s.cursor.skip, lineHasTokens := false }
      return ⟨.newline, ⟨start, (← get).cursor.location⟩⟩
    else
      let kind ← scanKind nested d
      modify fun s => { s with lineHasTokens := true }
      return ⟨kind, ⟨start, (← get).cursor.location⟩⟩

/-- Reads tokens up to the end of input, and at most `bound` of them. -/
def scanToEnd (next : Scan Token) : Nat → Scan (List Token)
  | 0 => pure []
  | bound + 1 => do
    let token ← next
    if token.kind.isEnd then return [token]
    return token :: (← scanToEnd next bound)

/-- Reads a token within a line in which formatted strings are nested at most `depth` deep. -/
def scan : Nat → Scan Token
  | 0 => scanWith fun _ names => (.ok [], names)
  | depth + 1 => scanWith fun inside names =>
    match scanToEnd (scan depth) (inside.rest.length + 1)
        { cursor := inside, names, embedded := true } with
    | .ok tokens s => (.ok tokens, s.names)
    | .error e s => (.error e, s.names)

/-- Closes one more block for the current line, if one is to be closed. -/
def owedDedent : Scan Bool := fun s =>
  match s.indentation.continueDedent with
  | (.ok owed, indentation) => .ok owed { s with indentation }
  | (.error cause, indentation) => .error ⟨cause, s.cursor.location⟩ { s with indentation }

/-- Measures the indentation of a line and tells what it does to the open blocks. -/
def enterLine : Scan IndentChange := do
  let level ← onCursor measureIndentation
  modifyGet fun s =>
    let (change, indentation) := s.indentation.enterLine level
    (change, { s with indentation })

/-- Reads the next token, in a text in which formatted strings are nested at most `depth` deep. -/
def nextWithin (depth : Nat) (atLineStart pendingDedent : Bool) : Scan Token := do
  if pendingDedent then
    if ← owedDedent then return .mark .dedent (← get).cursor.location
    scan depth
  else if atLineStart && !(← get).embedded then
    match ← enterLine with
    | .indent => return .mark .indent (← get).cursor.location
    | .dedent => return .mark .dedent (← get).cursor.location
    | .same => scan depth
  else scan depth

/-- Reads the next token.  Nested strings lie inside each other, so they are not nested deeper than
the text is long. -/
def next (atLineStart pendingDedent : Bool) : Scan Token := fun s =>
  nextWithin s.cursor.rest.length atLineStart pendingDedent s

end Scanner

end Offside
