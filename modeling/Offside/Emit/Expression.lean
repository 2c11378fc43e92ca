import Offside.Emit.Bound
import Offside.Emit.Call
import Offside.Emit.Scope

/-!
# Emitting expressions

The emitted form of an expression keeps the order of its parts, so the first part without an emitted
form decides the error.
-/

namespace Offside.Emit

open Target

/-- The name of a plain name in the emitted code. -/
def nameCode (name : String) : Code := .name (escape name)

/-- Parentheses around an expression, if they are needed. -/
def groupIf (needed : Bool) (code : Code) : Code :=
  if needed then .group code else code

/-- Whether `!` can stand directly before the operand. -/
def isBare : Expr → Bool
  | .not _ | .primary _ => true
  | _ => false

/-- Whether the operand holds a product operator. -/
def isProduct : Expr → Bool
  | .product .. => true
  | _ => false

/-- Whether a sum joins strings: one of its operands is a string literal. -/
def concatenates (first : Expr) (rest : List (SumOp × Expr)) : Bool :=
  first.isStringLiteral || rest.any fun operand => operand.2.isStringLiteral

/-- The operator of a sum. -/
def sumOperator (concatenates : Bool) : SumOp → Operator
  | .add => if concatenates then .times else .sum .add
  | .sub => .sum .sub

/-- Whether a step is a literal below zero. -/
def isDescending (step : Option Expression) : Bool :=
  (step.bind (·.tree.integer?)).any (· < 0)

/-- The refusal of a call with the wrong number of arguments. -/
def arityError (call : FunctionCall) (expected : String) : SemanticError :=
  ⟨.unsupportedArity call.name call.arguments.values.length expected, call.span.start⟩

/-- What accesses start from: an emitted expression, or the name of a class. -/
inductive Root
  | code (base : Code)
  | className (name : String) (location : Location)

/-- What a name stands for at the start of accesses. -/
def Root.ofName (scope : Scope) (name : String) (location : Location) : Root :=
  if scope.registry.contains name then .className name location else .code (nameCode name)

/-- The root as an expression of its own. -/
def Root.toCode : Root → Code
  | .code base => base
  | .className name _ => nameCode name

/-- The class that a call of a method of the given class ends at, and the name of the method there.
A class without an initializer has one of its own. -/
def staticTarget (scope : Scope) (className method : String) (location : Location) :
    Except SemanticError (String × String) :=
  match scope.registry.owner? className method with
  | some owner => .ok (escape owner.name, memberName method owner.name)
  | none =>
    if method = initializerName then .ok (escape className, memberName method className)
    else .error ⟨.unknownMethod className method, location⟩

/-- The receiver of a call of a method of a superclass, and the class where the method is looked
for. -/
def superTarget (scope : Scope) (superclass : Option String) (location : Location) :
    Except SemanticError (String × String) :=
  match scope.className, scope.receiver with
  | some className, some receiver =>
    match superclass with
    | some name =>
      if scope.registry.contains name then .ok (receiver, name)
      else .error ⟨.unknownSuperclass className name, location⟩
    | none =>
      match (scope.registry.get? className).bind ClassDef.superclass with
      | some name => .ok (receiver, name)
      | none => .error ⟨.superWithoutSuperclass className, location⟩
  | _, _ => .error ⟨.superOutsideMethod, location⟩

/-- A call of a method of a value: dynamic if some class has such a method, else a call of the
function that the method of lists becomes, or of the function of the same name. -/
def methodCallCode (scope : Scope) (receiver : Code) (method : String) (arguments : List Code) :
    Code :=
  if scope.registry.anyDeclares method then
    .methodCall (memberName method scope.className) (receiver :: arguments)
  else .call (.name ((listMethod? method).getD (escape method))) (receiver :: arguments)

/-- A member of a value. -/
def memberCode (scope : Scope) (base : Code) (name : String) : Code :=
  .member base (memberName name scope.className)

/-- The arguments of a printed line, with blanks between them. -/
def spaced (arguments : List Code) : List Code :=
  arguments.intersperse (.str [.literal " "])

/-- Operands with one operator between them. -/
def joined (op : Operator) : List Code → Code
  | [] => .tuple []
  | first :: rest => .chain first (rest.map fun code => (op, code))

mutual

/-- The emitted form of an expression. -/
def expression (scope : Scope) : Expression → Except SemanticError Code
  | ⟨tree, _⟩ => operators scope tree

/-- The emitted forms of some expressions. -/
def expressions (scope : Scope) : List Expression → Except SemanticError (List Code)
  | [] => .ok []
  | first :: rest => do
    let code ← expression scope first
    return code :: (← expressions scope rest)

/-- The emitted form of an expression, in parentheses unless its operators bind at least as tightly
as those of sums. -/
def operand (scope : Scope) : Expression → Except SemanticError Code
  | ⟨tree, _⟩ => do
    let code ← operators scope tree
    return groupIf (!tree.isSum) code

/-- The emitted form of operators and their operands. -/
def operators (scope : Scope) : Expr → Except SemanticError Code
  | .or first rest => do
    let first ← operators scope first
    return .chain first (← operands scope .or rest)
  | .and first rest => do
    let first ← operators scope first
    return .chain first (← operands scope .and rest)
  | .not inner => do
    let code ← operators scope inner
    return .not (groupIf (!isBare inner) code)
  | .compare first rest => do
    let first ← operators scope first
    return .chain first (← comparisons scope rest)
  | .sum first rest => do
    let joins := concatenates first rest
    let code ← operators scope first
    return .chain (groupIf (joins && isProduct first) code) (← summands scope joins rest)
  | .product first rest => do
    let first ← operators scope first
    return .chain first (← factors scope rest)
  | .sign op inner => do
    let code ← operators scope inner
    return .sign op (groupIf code.startsSigned code)
  | .power base exponent => do
    let base ← primary scope base
    return .chain base [(.power, ← operators scope exponent)]
  | .primary inner => primary scope inner

/-- The emitted forms of operands behind one operator. -/
def operands (scope : Scope) (op : Operator) :
    List Expr → Except SemanticError (List (Operator × Code))
  | [] => .ok []
  | first :: rest => do
    let code ← operators scope first
    return (op, code) :: (← operands scope op rest)

/-- The emitted forms of operands behind comparisons. -/
def comparisons (scope : Scope) :
    List (Comparison × Expr) → Except SemanticError (List (Operator × Code))
  | [] => .ok []
  | (op, first) :: rest => do
    let code ← operators scope first
    return (.comparison op, code) :: (← comparisons scope rest)

/-- The emitted forms of operands behind sum operators. -/
def summands (scope : Scope) (joins : Bool) :
    List (SumOp × Expr) → Except SemanticError (List (Operator × Code))
  | [] => .ok []
  | (op, first) :: rest => do
    let code ← operators scope first
    return (sumOperator joins op, groupIf (joins && isProduct first) code) ::
      (← summands scope joins rest)

/-- The emitted forms of operands behind product operators. -/
def factors (scope : Scope) :
    List (TermOp × Expr) → Except SemanticError (List (Operator × Code))
  | [] => .ok []
  | (op, first) :: rest => do
    let code ← operators scope first
    return (.product op, code) :: (← factors scope rest)

/-- The emitted form of an atom and what is accessed through it. -/
def primary (scope : Scope) : Primary → Except SemanticError Code
  | ⟨.name name, trailers, span⟩ => accesses scope (.ofName scope name span.start) trailers
  | ⟨atom, trailers, _⟩ => do
    let code ← atomCode scope atom
    accesses scope (.code code) trailers

/-- The emitted form of accesses. -/
def accesses (scope : Scope) (root : Root) : List Trailer → Except SemanticError Code
  | [] => .ok root.toCode
  | .member name _ :: .call ⟨values, _⟩ :: rest =>
    match root with
    | .code base => do
      let arguments ← expressions scope values
      accesses scope (.code (methodCallCode scope base name arguments)) rest
    | .className className location => do
      let target ← staticTarget scope className name location
      let arguments ← expressions scope values
      accesses scope (.code (.staticCall target.1 target.2 arguments)) rest
  | .member name span :: rest =>
    match root with
    | .code base => accesses scope (.code (memberCode scope base name)) rest
    | .className className _ => .error ⟨.unsupportedClassAttribute className name, span.start⟩
  | .call ⟨values, _⟩ :: rest => do
    let arguments ← expressions scope values
    match root with
    | .code base => accesses scope (.code (.call base arguments)) rest
    | .className className _ =>
      let instanceCode : Code := .call (nameCode className) []
      accesses scope (.code (.methodCall initializerName (instanceCode :: arguments))) rest
  | .subscript slices :: rest => do
    let indices ← subscripts scope slices
    accesses scope (.code (.subscript root.toCode indices)) rest

/-- The emitted forms of the parts of a subscript. -/
def subscripts (scope : Scope) : List Slice → Except SemanticError (List Code)
  | [] => .ok []
  | first :: rest => do
    let code ← subscript scope first
    return code :: (← subscripts scope rest)

/-- The emitted form of a part of a subscript. -/
def subscript (scope : Scope) : Slice → Except SemanticError Code
  | .index index => bound scope .index index
  | .range none none none => .ok .everything
  | .range lower upper step => do
    let descending := isDescending step
    let first ← match lower with
      | some lower => bound scope .index lower
      | none => .ok (if descending then .lastIndex else .integer 1)
    let last ← match upper with
      | some upper => bound scope (if descending then .descendingUpper else .upper) upper
      | none => .ok (if descending then .integer 1 else .lastIndex)
    match step with
    | some step => return .range first (some (← expression scope step)) last
    | none => return .range first none last

/-- The emitted form of a bound. -/
def bound (scope : Scope) (kind : Bound) : Expression → Except SemanticError Code
  | ⟨tree, _⟩ =>
    match tree.integer?.bind kind.fold? with
    | some code => .ok code
    | none => do
      let code ← operators scope tree
      return kind.shift (groupIf (!tree.isSum) code)

/-- The last value of a range with the given end. -/
def rangeLast (scope : Scope) (descending : Bool) : Expression → Except SemanticError Code
  | ⟨tree, _⟩ =>
    match tree.integer?.bind (foldLast? descending) with
    | some code => .ok code
    | none => do
      let code ← operators scope tree
      return shiftLast descending (groupIf (!tree.isSum) code)

/-- The emitted form of a call of a known function. -/
def functionCall (scope : Scope) : FunctionCall → Except SemanticError Code
  | ⟨name, ⟨values, argumentsSpan⟩, span⟩ =>
    let refuse (expected : String) : Except SemanticError Code :=
      .error (arityError ⟨name, ⟨values, argumentsSpan⟩, span⟩ expected)
    match callForm name with
    | .printLine => do return .call (.name "println") (spaced (← expressions scope values))
    | .firstDimension =>
      match values with
      | [value] => do return .call (.name "size") [← expression scope value, .integer 1]
      | _ => refuse "1"
    | .range =>
      match values with
      | [stop] => do return .range (.integer 0) none (← rangeLast scope false stop)
      | [start, stop] => do
        let first ← operand scope start
        return .range first none (← rangeLast scope false stop)
      | [start, stop, step] => do
        let first ← operand scope start
        let stepCode ← expression scope step
        return .range first (some stepCode) (← rangeLast scope (isDescending (some step)) stop)
      | _ => refuse "1 to 3"
    | .truncate =>
      match values with
      | [value] => do return .call (.name "trunc") [.name "Int64", ← expression scope value]
      | _ => refuse "1"
    | .rename function => do return .call (.name function) (← expressions scope values)
    | .elementwise function => do return .broadcast function (← expressions scope values)
    | .statistics function => do return .statistic function (← expressions scope values)
    | .operatorChain op =>
      if values.length < 2 then refuse "at least 2"
      else do return .group (joined op (← expressions scope values))
    | .identity =>
      match values with
      | [value] => do
        let code ← expression scope value
        return groupIf value.tree.primary?.isNone code
      | _ => refuse "1"
    | .passThrough => do return .call (nameCode name) (← expressions scope values)

/-- The emitted form of a call of a method of a superclass. -/
def superCall (scope : Scope) : SuperCall → Except SemanticError Code
  | ⟨superclass, method, ⟨values, _⟩, span⟩ => do
    let start ← superTarget scope superclass span.start
    let target ← staticTarget scope start.2 method span.start
    let arguments ← expressions scope values
    return .staticCall target.1 target.2 (nameCode start.1 :: arguments)

/-- The emitted form of an atom. -/
def atomCode (scope : Scope) : Atom → Except SemanticError Code
  | .name name => .ok (nameCode name)
  | .boolean value => .ok (.boolean value)
  | .none => .ok .nothing
  | .integer value => .ok (.integer value)
  | .float value => .ok (.float value)
  | .str text => .ok (.str [.literal text])
  | .formatted parts => do return .str (← formattedParts scope parts)
  | .group inner => do return .group (← expression scope inner)
  | .list elements => do return .vector (← expressions scope elements)
  | .library call => functionCall scope call
  | .builtin call => functionCall scope call
  | .super call => superCall scope call

/-- The emitted forms of the parts of a formatted string. -/
def formattedParts (scope : Scope) : List FormattedPart → Except SemanticError (List CodePart)
  | [] => .ok []
  | .literal text :: rest => do return .literal text :: (← formattedParts scope rest)
  | .embedded inner :: rest => do
    let code ← expression scope inner
    return .embedded code :: (← formattedParts scope rest)

end

end Offside.Emit
