import Offside.Class.Attributes
import Offside.Class.Body
import Offside.Reader.Expression

/-!
# Reading statements

One function for each kind of statement.  The statements of a block are read by the parameter
`inner`; the functions are tied together at the end, as those for expressions are.
-/

namespace Offside

namespace Reader

/-! ## Types and parameters -/

/-- `name` or `name [ type {, type} ]`, with at most `depth` types inside each other. -/
def typeHintWithin : Nat → Read TypeHint
  | 0 => unexpected "a type annotation"
  | depth + 1 => do
    let start ← location
    let name ← match ← peek with
      | .identifier name | .function name => pure name
      | .keyword .noneKw => pure "None"
      | _ => unexpected "a type annotation"
    discard advance
    let arguments ←
      if ← eat .bracketOpen then do
        let arguments ← commaSeparated (typeHintWithin depth)
        discard (expectDelimiter .bracketClose)
        pure arguments
      else pure []
    return ⟨name, arguments, ← spanFrom start⟩

/-- A type. -/
def typeHint : Read TypeHint := do
  typeHintWithin (← remaining)

/-- A type behind the given delimiter, if that follows. -/
def typeHintBehind (d : Delimiter) : Read (Option TypeHint) := do
  if ← eat d then return some (← typeHint) else return none

/-- `name [: type] [= expression]` -/
def parameter : Read Parameter := do
  let start ← location
  let name ← expectName "a parameter name"
  let hint ← typeHintBehind .colon
  let default ← if ← eat .assign then some <$> expression else pure none
  return ⟨name, hint, default, ← spanFrom start⟩

/-- `( [parameter {, parameter} [,]] )` -/
def parameters : Read (List Parameter) :=
  bracketed .parenOpen .parenClose "',' or ')' in the parameter list" parameter

/-! ## Simple statements -/

/-- `return [expression {, expression}]` -/
def returnStatement : Read Statement := do
  let start ← location
  discard (expectKeyword .returnKw)
  let value ← if startsExpression (← peek) then some <$> expressionList else pure none
  return .returns value (← spanFrom start)

/-- `name {trailer} [: type]` -/
def declaration : Read Declaration := do
  let start ← location
  let name ← expectName "an assignment target"
  let accesses ← many startsTrailer trailer
  let hint ← typeHintBehind .colon
  return ⟨name, hint, accesses, ← spanFrom start⟩

/-- The operator of an assignment to the given number of targets. -/
def assignOp (targets : Nat) : Read AssignOp := do
  match ← peek with
  | .delimiter .assign => return .plain
  | .delimiter (.augmented op) =>
    if targets = 1 then return .augmented op
    else throw (.grammar ⟨.invalidAugmentedTarget, ← location⟩)
  | _ => unexpected "'=' or an augmented assignment"

/-- `declaration {, declaration} operator expression {, expression}` -/
def assignment : Read Assignment := do
  let start ← location
  let targets ← commaSeparated declaration
  let op ← assignOp targets.length
  discard advance
  let value ← expressionList
  return ⟨targets, op, value, ← spanFrom start⟩

/-- The statement that some expressions form. -/
def ofExpressions : List Expression → Statement
  | [⟨.primary ⟨.super call, [], _⟩, _⟩] => .superCall call
  | list => .expressions list

/-- Whether an assignment starts here: a name, and an assignment further on in the line. -/
def startsAssignment : Read Bool := do
  match ← peek with
  | .identifier _ | .function _ => return (← get).stream.lineHasAssignment
  | _ => return false

/-- A statement without a block, without the end of its line. -/
def simpleStatement : Read Statement := do
  match ← peek with
  | .keyword .returnKw => returnStatement
  | .keyword .passKw =>
    discard advance
    return .pass
  | .keyword .breakKw =>
    discard advance
    return .breaks
  | .keyword .continueKw =>
    discard advance
    return .continues
  | _ =>
    if ← startsAssignment then return .assign (← assignment)
    else return ofExpressions (← expressionList)

/-! ## Statements with blocks -/

/-- Registers a class and reports it. -/
def registerClass (c : ClassDef) : Read Unit := do
  modify fun r =>
    { r with reported := .registering c.name c.superclass c.attributes.length :: r.reported }
  match (← get).registry.register c with
  | .ok registry => modify fun r => { r with registry }
  | .error e => throw (.semantic e)

section Blocks

variable (inner : Read Statement)

/-- The end of a line, and an indented block of statements. -/
def blockWith : Read (List Statement) := do
  discard (expect Kind.isNewline "newline before an indented block")
  discard (expect Kind.isIndent "an indented block")
  modify fun r => { r with blockDepth := r.blockDepth + 1 }
  let statements ← many (fun kind => !kind.isDedent && !kind.isEnd) inner
  modify fun r => { r with blockDepth := r.blockDepth - 1 }
  discard (expect Kind.isDedent "end of the indented block")
  return statements

/-- `def name ( parameters ) [-> type] : block` -/
def functionWith : Read FunctionDef := do
  let start ← location
  discard (expectKeyword .defKw)
  let name ← expectName "a function name"
  let parameters ← parameters
  let returnHint ← typeHintBehind .arrow
  discard (expectDelimiter .colon)
  let body ← blockWith inner
  return ⟨name, parameters, returnHint, body, ← spanFrom start⟩

/-- `[( [name] )]` -/
def superclassName : Read (Option String) := do
  if ← eat .parenOpen then
    let superclass ←
      if (← peek).isDelimiter .parenClose then pure none
      else some <$> expectName "a superclass name"
    discard (expectDelimiter .parenClose)
    return superclass
  else return none

/-- `class name [( [name] )] : block`, outside all blocks.  The class is registered behind its
body. -/
def classWith : Read ClassDef := do
  let start ← location
  discard (expectKeyword .classKw)
  let name ← expectName "a class name"
  if 0 < (← get).blockDepth then refuse (.nestedClass name) start
  let superclass ← superclassName
  discard (expectDelimiter .colon)
  let header ← spanFrom start
  let body ← blockWith inner
  match checkClassBody name [] body with
  | .error e => throw (.semantic e)
  | .ok () =>
    intern initializerName
    let definition : ClassDef := ⟨name, superclass, body, attributesOfBody body, header⟩
    registerClass definition
    return definition

/-- `expression : block {elif expression : block} [else : block]`, with at most `bound` conditions.
-/
def conditionalWithin : Nat → Read Conditional
  | 0 => unexpected "an expression"
  | bound + 1 => do
    let start ← location
    let condition ← expression
    discard (expectDelimiter .colon)
    let body ← blockWith inner
    let otherwise ← match ← peek with
      | .keyword .elifKw =>
        discard advance
        Otherwise.elseIf <$> conditionalWithin bound
      | .keyword .elseKw =>
        discard advance
        discard (expectDelimiter .colon)
        Otherwise.block <$> blockWith inner
      | _ => pure .nothing
    return ⟨condition, body, otherwise, ← spanFrom start⟩

/-- `if` and its branches. -/
def conditionalWith : Read Conditional := do
  discard (expectKeyword .ifKw)
  conditionalWithin inner (← remaining)

/-- `for name in expression {, expression} : block` -/
def forWith : Read Statement := do
  let start ← location
  discard (expectKeyword .forKw)
  let target ← expectName "a loop variable"
  discard (expectKeyword .inKw)
  let iterable ← expressionList
  discard (expectDelimiter .colon)
  let body ← blockWith inner
  return .forLoop target iterable body (← spanFrom start)

/-- `while expression : block` -/
def whileWith : Read Statement := do
  let start ← location
  discard (expectKeyword .whileKw)
  let condition ← expression
  discard (expectDelimiter .colon)
  let body ← blockWith inner
  return .whileLoop condition body (← spanFrom start)

/-- A statement whose blocks hold statements read by `inner`. -/
def statementWith : Read Statement := do
  match ← peek with
  | .keyword .defKw => return .function (← functionWith inner)
  | .keyword .classKw => return .classDef (← classWith inner)
  | .keyword .ifKw => return .conditional (← conditionalWith inner)
  | .keyword .forKw => forWith inner
  | .keyword .whileKw => whileWith inner
  | _ =>
    let simple ← simpleStatement
    discard (expect Kind.isNewline "end of line")
    return simple

end Blocks

/-- A statement with at most `depth` statements inside each other. -/
def statementWithin : Nat → Read Statement
  | 0 => unexpected "an expression"
  | depth + 1 => statementWith (statementWithin depth)

/-- A statement. -/
def statement : Read Statement := do
  statementWithin (← remaining)

/-- An indented block of statements. -/
def block : Read (List Statement) := blockWith statement

/-- All statements up to the end of input. -/
def program : Read Program := do
  let statements ← many (!·.isEnd) statement
  modify fun r => { r with reported := .parsed statements.length r.registry.size :: r.reported }
  return statements

end Reader

end Offside
