import Offside.Reader.Basic

/-!
# Reading expressions

One function for each level of the grammar.  An expression inside brackets or inside a formatted
string is read by the parameter `inner`; the functions are tied together at the end, where `inner`
becomes the reading of an expression itself.  The depth of that nesting is bounded by the number of
tokens.
-/

namespace Offside

namespace Reader

/-- Whether an expression can start with the kind. -/
def startsExpression : Kind → Bool
  | .identifier _ | .integer _ | .float _ | .str _ | .formatted _ | .sumOp _ | .library
  | .function _ => true
  | .keyword word => word == .trueKw || word == .falseKw || word == .noneKw || word == .notKw
  | .delimiter mark => mark == .parenOpen || mark == .bracketOpen
  | _ => false

/-- Whether an access can start with the kind. -/
def startsTrailer (kind : Kind) : Bool :=
  kind.isDelimiter .dot || kind.isDelimiter .bracketOpen || kind.isDelimiter .parenOpen

section Levels

variable (inner : Read Expression)

/-- `( [expression {, expression} [,]] )` -/
def argumentsWith : Read Arguments := do
  let start ← location
  let values ← bracketed .parenOpen .parenClose "',' or ')' in the argument list" inner
  return ⟨values, ← spanFrom start⟩

/-- An expression, if one can start here. -/
def optionalWith : Read (Option Expression) := do
  if startsExpression (← peek) then return some (← inner) else return none

/-- `expression` or `[lower] : [upper] [: [step]]` -/
def sliceWith : Read Slice := do
  let lower ← optionalWith inner
  if ← eat .colon then
    let upper ← optionalWith inner
    let step ← if ← eat .colon then optionalWith inner else pure none
    return .range lower upper step
  else
    match lower with
    | some index => return .index index
    | none => unexpected "an index or slice"

/-- `. name`, `( arguments )` or `[ slices ]` -/
def trailerWith : Read Trailer := do
  match ← peek with
  | .delimiter .dot =>
    discard advance
    let start ← location
    let name ← expectName "an attribute name"
    return .member name (← spanFrom start)
  | .delimiter .parenOpen => return .call (← argumentsWith inner)
  | .delimiter .bracketOpen =>
    discard advance
    let slices ← commaSeparated (sliceWith inner)
    discard (expectDelimiter .bracketClose)
    return .subscript slices
  | _ => unexpected "'.', '(' or '['"

/-- `super ( [name [, expression]] ) . name ( arguments )`.  The expression is read and dropped. -/
def superCallWith : Read SuperCall := do
  let start ← location
  discard advance
  discard (expectDelimiter .parenOpen)
  let superclass ←
    if (← peek).isDelimiter .parenClose then pure none
    else do
      let name ← expectName "a superclass name"
      if ← eat .comma then discard inner
      pure (some name)
  discard (expectDelimiter .parenClose)
  discard (expectDelimiter .dot)
  let method ← expectName "a method name after super()"
  let arguments ← argumentsWith inner
  return ⟨superclass, method, arguments, ← spanFrom start⟩

/-- Reads the tokens of an embedded expression to their end.  They have a reader of their own, with
the same table of names. -/
def embeddedWith (tokens : List Token) : Read Expression := fun r =>
  let whole : Read Expression := do
    let expression ← inner
    discard (expect Kind.isEnd "end of the f-string expression")
    return expression
  match whole (.ofTokens tokens r.names) with
  | .ok expression nested => .ok expression { r with names := nested.names }
  | .error e nested => .error e { r with names := nested.names }

/-- Reads the parts of a formatted string. -/
def formattedWith : List Fragment → Read (List FormattedPart)
  | [] => return []
  | .literal text :: rest => return .literal text :: (← formattedWith rest)
  | .embedded tokens :: rest => do
    let expression ← embeddedWith inner tokens
    return .embedded expression :: (← formattedWith rest)

/-- A name, a literal, an expression in brackets, or a call of a known function. -/
def atomWith : Read Atom := do
  let start ← location
  match ← peek with
  | .identifier name =>
    if name = "super" ∧ ((← get).stream.peekAt 1).isDelimiter .parenOpen then
      return .super (← superCallWith inner)
    else
      discard advance
      return .name name
  | .keyword .trueKw =>
    discard advance
    return .boolean true
  | .keyword .falseKw =>
    discard advance
    return .boolean false
  | .keyword .noneKw =>
    discard advance
    return .none
  | .integer value =>
    discard advance
    return .integer value
  | .float value =>
    discard advance
    return .float value
  | .str text =>
    discard advance
    return .str text
  | .formatted fragments =>
    discard advance
    return .formatted (← formattedWith inner fragments)
  | .delimiter .parenOpen =>
    discard advance
    let expression ← inner
    discard (expectDelimiter .parenClose)
    return .group expression
  | .delimiter .bracketOpen =>
    return .list (← bracketed .bracketOpen .bracketClose "',' or ']' in the list" inner)
  | .library =>
    discard advance
    discard (expectDelimiter .dot)
    match ← peek with
    | .function name | .identifier name =>
      discard advance
      let arguments ← argumentsWith inner
      return .library ⟨name, arguments, ← spanFrom start⟩
    | _ => unexpected "a numerical library function"
  | .function name =>
    discard advance
    if (← peek).isDelimiter .parenOpen then
      let arguments ← argumentsWith inner
      return .builtin ⟨name, arguments, ← spanFrom start⟩
    else
      intern name
      return .name name
  | _ => unexpected "an expression"

/-- An atom and what is accessed through it. -/
def primaryWith : Read Primary := do
  let start ← location
  let atom ← atomWith inner
  let trailers ← many startsTrailer (trailerWith inner)
  return ⟨atom, trailers, ← spanFrom start⟩

/-- `sign factor` or `primary [** factor]`, with at most `bound` signs and powers in a row. -/
def factorWithin : Nat → Read Expr
  | 0 => unexpected "an expression"
  | bound + 1 => do
    match (← peek).sumOp? with
    | some op =>
      discard advance
      return .sign op (← factorWithin bound)
    | none =>
      let base ← primaryWith inner
      if (← peek).isPower then
        discard advance
        return .power base (← factorWithin bound)
      else return .primary base

/-- A factor. -/
def factorWith : Read Expr := do
  factorWithin inner (← remaining)

/-- Factors joined by product operators. -/
def productWith : Read Expr := do
  let (first, rest) ← chain Kind.termOp? (factorWith inner)
  return .ofProduct first rest

/-- Products joined by sum operators. -/
def sumWith : Read Expr := do
  let (first, rest) ← chain Kind.sumOp? (productWith inner)
  return .ofSum first rest

/-- Sums joined by comparisons. -/
def comparisonWith : Read Expr := do
  let (first, rest) ← chain Kind.comparison? (sumWith inner)
  return .ofCompare first rest

/-- A comparison behind at most `bound` negations. -/
def inversionWithin : Nat → Read Expr
  | 0 => unexpected "an expression"
  | bound + 1 => do
    if (← peek).isKeyword .notKw then
      discard advance
      return .not (← inversionWithin bound)
    else comparisonWith inner

/-- A comparison behind any number of negations. -/
def inversionWith : Read Expr := do
  inversionWithin inner (← remaining)

/-- Inversions joined by `and`. -/
def conjunctionWith : Read Expr := do
  let (first, rest) ← chain (separator (·.isKeyword .andKw)) (inversionWith inner)
  return .ofAnd first (rest.map Prod.snd)

/-- Conjunctions joined by `or`. -/
def disjunctionWith : Read Expr := do
  let (first, rest) ← chain (separator (·.isKeyword .orKw)) (conjunctionWith inner)
  return .ofOr first (rest.map Prod.snd)

/-- An expression whose inner expressions are read by `inner`. -/
def expressionWith : Read Expression := do
  let start ← location
  let tree ← disjunctionWith inner
  return ⟨tree, ← spanFrom start⟩

end Levels

/-- An expression with at most `depth` expressions inside each other. -/
def expressionWithin : Nat → Read Expression
  | 0 => unexpected "an expression"
  | depth + 1 => expressionWith (expressionWithin depth)

/-- An expression. -/
def expression : Read Expression := do
  expressionWithin (← get).stream.weight

/-- `expression {, expression}` -/
def expressionList : Read (List Expression) := commaSeparated expression

/-- An access through an expression. -/
def trailer : Read Trailer := trailerWith expression

/-- The arguments of a call. -/
def arguments : Read Arguments := argumentsWith expression

end Reader

end Offside
