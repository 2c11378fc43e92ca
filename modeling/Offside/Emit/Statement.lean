import Offside.Emit.Class
import Offside.Emit.Expression
import Offside.Event

/-!
# Emitting statements

Names assigned outside functions and loops are remembered: an assignment to one of them inside a
loop declares it global.
-/

namespace Offside.Emit

open Target

/-- What is remembered from one statement to the next. -/
structure Progress where
  /-- The names assigned outside functions and loops. -/
  globals : List String := []
  /-- What was reported, the latest first. -/
  reported : List Event := []
deriving Repr, Inhabited

/-- A step of the emission.  What is remembered is kept when the step fails. -/
abbrev Emission := EStateM SemanticError Progress

instance : MonadLift (Except SemanticError) Emission where
  monadLift
    | .ok a => pure a
    | .error e => throw e

/-! ## Assignments -/

/-- The emitted form of a target of an assignment. -/
def targetCode (scope : Scope) (d : Declaration) : Except SemanticError Code :=
  accesses scope (.ofName scope d.name d.span.start) d.accesses

/-- The type of the only target of an assignment, if it is a plain name with a hint. -/
def targetType (scope : Scope) : List Declaration → Except SemanticError (Option TypeName)
  | [⟨_, some hint, [], _⟩] => do return some (← TypeName.ofHint scope.registry hint)
  | _ => .ok none

/-- The operator of an augmented assignment, if there is one.  A string literal is joined. -/
def augmentedOperator? (value : List Expression) : AugmentedOp → Option Operator
  | .add =>
    match value with
    | [single] => some (sumOperator single.tree.isStringLiteral .add)
    | _ => some (.sum .add)
  | .sub => some (.sum .sub)
  | .mul => some (.product .mul)
  | .div => some (.product .div)
  | .floorDiv => some (.product .floorDiv)
  | .mod => some (.product .mod)
  | .pow => some .power
  | .matMul | .bitAnd | .bitOr | .bitXor | .shiftLeft | .shiftRight => none

/-- Whether the value of an augmented assignment needs no parentheses. -/
def isSimpleValue (value : Expression) : Bool :=
  value.tree.primary?.isSome || value.tree.integer?.isSome

/-- The value of an augmented assignment, as an operand. -/
def augmentedValue (scope : Scope) : List Expression → Except SemanticError Code
  | [value] => do
    let code ← expression scope value
    return groupIf (!isSimpleValue value) code
  | values => do return .tuple (← expressions scope values)

/-- The targets with an operator and an operand behind the last of them. -/
def augment (op : Operator) (value : Code) : List Code → List Code
  | [] => []
  | [target] => [.chain target [(op, value)]]
  | target :: rest => target :: augment op value rest

/-- The emitted form of an assignment, before names are declared global. -/
def assignmentParts (scope : Scope) (a : Assignment) :
    Except SemanticError (List Code × Option TypeName × List Code) := do
  let targets ← a.targets.mapM (targetCode scope)
  match a.op with
  | .plain =>
    let type ← targetType scope a.targets
    return (targets, type, ← expressions scope a.value)
  | .augmented op =>
    match augmentedOperator? a.value op with
    | none => .error ⟨.unsupportedAugmentedOperator op.spelling, a.span.start⟩
    | some operator =>
      let value ← augmentedValue scope a.value
      return (targets, none, augment operator value targets)

/-- The targets of an assignment that are plain names. -/
def plainTargets (a : Assignment) : List String :=
  (a.targets.filter (·.accesses.isEmpty)).map Declaration.name

/-- The names that an assignment declares global, spelled as in the emitted code.  Outside functions
and loops its names are remembered instead. -/
def globalTargets (scope : Scope) (a : Assignment) : Emission (List String) :=
  if scope.inFunction then return []
  else if scope.inLoop then do
    let globals := (← get).globals
    let declared := (plainTargets a).filter fun name =>
      globals.contains name && !scope.loopVariables.contains name
    return declared.map escape
  else do
    modify fun p => { p with globals := p.globals ++ plainTargets a }
    return []

/-- The emitted form of an assignment. -/
def assignment (scope : Scope) (a : Assignment) : Emission (List Item) := do
  let (targets, type, values) ← assignmentParts scope a
  match ← globalTargets scope a with
  | [] => return [.assign false targets type values]
  | declared =>
    if a.targets.length = 1 then return [.assign true targets type values]
    else return [.globals declared, .assign false targets type values]

/-! ## Functions -/

/-- The emitted form of an optional hint. -/
def hintType (scope : Scope) : Option TypeHint → Except SemanticError (Option TypeName)
  | none => .ok none
  | some hint => do return some (← TypeName.ofHint scope.registry hint)

/-- The emitted form of a default value. -/
def defaultCode (scope : Scope) : Option Expression → Except SemanticError (Option Code)
  | none => .ok none
  | some value => do return some (← expression scope value)

/-- The emitted form of a parameter. -/
def formal (scope : Scope) (p : Parameter) : Except SemanticError Formal := do
  let type ← hintType scope p.hint
  return .plain (escape p.name) type (← defaultCode scope p.default)

/-- The emitted form of the parameters of a method.  The first of them has the marker of the class
as its type, whatever its hint. -/
def methodFormals (scope : Scope) (marker : TypeName) :
    List Parameter → Except SemanticError (List Formal)
  | [] => .ok []
  | receiver :: rest => do
    let default ← defaultCode scope receiver.default
    return .plain (escape receiver.name) (some marker) default :: (← rest.mapM (formal scope))

/-- Whether the last of some statements is a return. -/
def endsWithReturn (body : List Statement) : Bool :=
  match body.getLast? with
  | some (.returns _ _) => true
  | _ => false

/-- The return of the receiver at the end of an initializer that does not end with a return. -/
def finalReturn (f : FunctionDef) : List Item :=
  match f.receiver? with
  | some receiver =>
    if f.isInitializer && !endsWithReturn f.body then [.returns [nameCode receiver]] else []
  | none => []

/-- The form of a method that is chosen by the class of its first argument. -/
def dispatchItems (l : Layout) (f : FunctionDef) (name : String) (formals : List Formal) :
    List Item :=
  if f.parameters.isEmpty then []
  else [
    .blank,
    .equation ⟨methodName, .tag name :: formals, none⟩
      (.staticCall l.name name (f.parameters.map fun p => nameCode p.name))]

/-- The head of the form of a method that its class defines itself, and its parameters.  An
initializer returns the instance, whatever its hint. -/
def methodHead (scope : Scope) (l : Layout) (f : FunctionDef) :
    Except SemanticError (Signature × List Formal) := do
  let formals ← methodFormals scope l.marker f.parameters
  let returns ← if f.isInitializer then .ok none else hintType scope f.returnHint
  let name := memberName f.name l.className
  return (⟨staticName, .tag l.name :: .tag name :: formals, returns⟩, formals)

/-- The values of a return.  An initializer returns its receiver. -/
def returnValues (scope : Scope) : Option (List Expression) → Except SemanticError (List Code)
  | some values => expressions scope values
  | none =>
    match scope.receiver with
    | some receiver => .ok (if scope.inInitializer then [nameCode receiver] else [])
    | none => .ok []

/-- What a loop runs over. -/
def iterableCode (scope : Scope) : List Expression → Except SemanticError Code
  | [single] => expression scope single
  | values => do return .tuple (← expressions scope values)

/-- The layout of a class, which is reported. -/
def enterClass (scope : Scope) (c : ClassDef) : Emission Layout := do
  match scope.layout? c.name with
  | none =>
    let what := "class '" ++ c.name ++ "' is missing from the class registry"
    throw ⟨.unsupportedClassStatement what, c.span.start⟩
  | some layout =>
    modify fun p =>
      { p with reported :=
        .lowering layout.name layout.fields.length c.methods.length :: p.reported }
    return layout

/-! ## Statements -/

mutual

/-- The emitted form of a statement. -/
def statement (scope : Scope) : Statement → Emission (List Item)
  | .assign a => assignment scope a
  | .superCall call => do return [.expressions [← superCall scope call]]
  | .returns value _ => do return [.returns (← returnValues scope value)]
  | .pass => return [.expressions [.nothing]]
  | .breaks => return [.breaks]
  | .continues => return [.continues]
  | .expressions list => do return [.expressions (← expressions scope list)]
  | .function ⟨name, parameters, returnHint, body, _⟩ => do
    let formals ← parameters.mapM fun p => (formal scope p : Emission Formal)
    let returns ← hintType scope returnHint
    let items ← block scope.ofFunction body
    return [.function ⟨escape name, formals, returns⟩ items]
  | .classDef ⟨name, superclass, body, attributes, span⟩ => do
    let layout ← enterClass scope ⟨name, superclass, body, attributes, span⟩
    return classItems layout ++ (← methods scope layout body)
  | .conditional ⟨condition, body, otherwise, _⟩ => do
    let code ← expression scope condition
    let items ← block scope body
    return [.conditional code items (← alternative scope otherwise)]
  | .forLoop target iterable body _ => do
    let code ← iterableCode scope iterable
    return [.forLoop (escape target) code (← block (scope.ofLoop target) body)]
  | .whileLoop condition body _ => do
    let code ← expression scope condition
    return [.whileLoop code (← block (scope.ofLoop none) body)]

/-- The emitted form of a block. -/
def block (scope : Scope) : List Statement → Emission (List Item)
  | [] => return []
  | first :: rest => do
    let items ← statement scope first
    return items ++ (← block scope rest)

/-- The emitted form of what is done when a condition does not hold. -/
def alternative (scope : Scope) : Otherwise → Emission Alternative
  | .nothing => return .nothing
  | .elseIf ⟨condition, body, otherwise, _⟩ => do
    let code ← expression scope condition
    let items ← block scope body
    return .branch code items (← alternative scope otherwise)
  | .block body => return .block (← block scope body)

/-- The emitted forms of the methods of a class body.  Their parameters belong to the scope around
the class. -/
def methods (scope : Scope) (l : Layout) : List Statement → Emission (List Item)
  | [] => return []
  | .function ⟨name, parameters, returnHint, body, span⟩ :: rest => do
    let method : FunctionDef := ⟨name, parameters, returnHint, body, span⟩
    let (signature, formals) ← methodHead scope l method
    let items ← block (scope.ofMethod l.className method) body
    let dispatch := dispatchItems l method (memberName name l.className) formals
    return .blank :: .function signature (items ++ finalReturn method) :: dispatch ++
      (← methods scope l rest)
  | _ :: rest => methods scope l rest

end

end Offside.Emit
