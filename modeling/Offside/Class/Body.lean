import Offside.Error
import Offside.Tree.Statement

/-!
# Class bodies

A class body holds methods, `pass` and plain strings.  Two methods of one name differ in the number
of their parameters.
-/

namespace Offside

/-- Whether the expressions are a lone plain string. -/
def isDocstring : List Expression → Bool
  | [⟨.primary ⟨.str _, [], _⟩, _⟩] => true
  | _ => false

/-- How a statement is named when a class body may not hold it. -/
def Statement.describe : Statement → String
  | assign _ => "class attribute assignment"
  | returns _ _ => "return"
  | function _ => "function"
  | classDef _ => "nested class"
  | conditional _ => "if"
  | forLoop .. => "for"
  | whileLoop .. => "while"
  | _ => "expression statement"

/-- Checks a class body.  `seen` holds the names and parameter counts of the methods before it. -/
def checkClassBody (className : String) (seen : List (String × Nat)) :
    List Statement → Except SemanticError Unit
  | [] => .ok ()
  | .function method :: rest =>
    if (method.name, method.arity) ∈ seen then
      .error ⟨.duplicateMethod className method.name method.arity, method.span.start⟩
    else checkClassBody className ((method.name, method.arity) :: seen) rest
  | .pass :: rest => checkClassBody className seen rest
  | statement :: rest =>
    match statement with
    | .expressions list =>
      if isDocstring list then checkClassBody className seen rest
      else .error ⟨.unsupportedClassStatement statement.describe, none⟩
    | _ => .error ⟨.unsupportedClassStatement statement.describe, none⟩

end Offside
