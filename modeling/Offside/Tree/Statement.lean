import Offside.Tree.Expression

/-!
# Statements

A program is a list of statements.  A statement with a block holds the statements of the block.
-/

namespace Offside

/-- A type named in the source, such as `list[int]`. -/
structure TypeHint where
  name : String
  arguments : List TypeHint
  span : Span

mutual

/-- The spelling of a type in the source. -/
def TypeHint.text : TypeHint → String
  | ⟨name, [], _⟩ => name
  | ⟨name, first :: rest, _⟩ =>
    name ++ "[" ++ ", ".intercalate (first.text :: TypeHint.texts rest) ++ "]"

/-- The spellings of some types. -/
def TypeHint.texts : List TypeHint → List String
  | [] => []
  | hint :: rest => hint.text :: TypeHint.texts rest

end

/-- A target of an assignment: a name, what is accessed through it, and its type. -/
structure Declaration where
  name : String
  hint : Option TypeHint
  accesses : List Trailer
  span : Span

/-- The attribute that is declared, if the target is exactly that attribute of the receiver. -/
def Declaration.attributeOf? (d : Declaration) (receiver : String) : Option String :=
  match d.accesses with
  | [.member name _] => if d.name = receiver then some name else none
  | _ => none

/-- The operator of an assignment. -/
inductive AssignOp
  | plain
  | augmented (op : AugmentedOp)
deriving DecidableEq, Repr, Inhabited

/-- The spelling of the operator of an assignment. -/
def AssignOp.spelling : AssignOp → String
  | plain => "="
  | augmented op => op.spelling

/-- An assignment of values to targets. -/
structure Assignment where
  targets : List Declaration
  op : AssignOp
  value : List Expression
  span : Span

/-- A parameter of a function. -/
structure Parameter where
  name : String
  hint : Option TypeHint
  default : Option Expression
  span : Span

/-- An attribute of a class, with the type it is declared with. -/
structure Attribute where
  name : String
  hint : Option TypeHint

mutual

/-- A statement. -/
inductive Statement
  | assign (assignment : Assignment)
  /-- A call of a method of a superclass that stands alone. -/
  | superCall (call : SuperCall)
  | returns (value : Option (List Expression)) (span : Span)
  | pass
  | breaks
  | continues
  | expressions (list : List Expression)
  | function (definition : FunctionDef)
  | classDef (definition : ClassDef)
  | conditional (branch : Conditional)
  | forLoop (target : String) (iterable : List Expression) (body : List Statement) (span : Span)
  | whileLoop (condition : Expression) (body : List Statement) (span : Span)

/-- The definition of a function or a method. -/
structure FunctionDef where
  name : String
  parameters : List Parameter
  returnHint : Option TypeHint
  body : List Statement
  span : Span

/-- The definition of a class.  The attributes are those its initializers declare; the span is that
of its header. -/
structure ClassDef where
  name : String
  superclass : Option String
  body : List Statement
  attributes : List Attribute
  span : Span

/-- A condition, the block it guards, and what is done otherwise. -/
structure Conditional where
  condition : Expression
  body : List Statement
  otherwise : Otherwise
  span : Span

/-- What is done when a condition does not hold. -/
inductive Otherwise
  | nothing
  | elseIf (branch : Conditional)
  | block (body : List Statement)

end

/-- A program is the list of its statements. -/
abbrev Program := List Statement

instance : Inhabited Statement := ⟨.pass⟩

/-- The name of the method that initializes an instance. -/
def initializerName : String := "__init__"

namespace FunctionDef

/-- The number of parameters. -/
def arity (f : FunctionDef) : Nat := f.parameters.length

/-- The name of the first parameter, which stands for the instance inside a method. -/
def receiver? (f : FunctionDef) : Option String := f.parameters.head?.map Parameter.name

/-- Whether the function is an initializer. -/
def isInitializer (f : FunctionDef) : Bool := f.name == initializerName

end FunctionDef

/-- The function that a statement defines. -/
def Statement.function? : Statement → Option FunctionDef
  | function f => some f
  | _ => none

/-- Whether a statement defines a function or a class. -/
def Statement.isDefinition : Statement → Bool
  | function _ | classDef _ => true
  | _ => false

namespace ClassDef

/-- The methods of a class, in order. -/
def methods (c : ClassDef) : List FunctionDef := c.body.filterMap Statement.function?

/-- Whether a class has a method of the given name. -/
def declares (c : ClassDef) (method : String) : Bool := c.methods.any (·.name == method)

end ClassDef

end Offside
