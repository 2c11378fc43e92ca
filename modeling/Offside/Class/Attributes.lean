import Offside.Tree.Statement

/-!
# Attributes of a class

The attributes of a class are those that its initializers assign to their receiver at the top level
of their bodies.  An attribute has the first type it is declared with.
-/

namespace Offside

/-- The attributes of the receiver that a statement declares, in order. -/
def Statement.attributesOf (receiver : String) : Statement → List Attribute
  | .assign ⟨targets, .plain, _, _⟩ =>
    targets.filterMap fun target => (target.attributeOf? receiver).map fun name =>
      ⟨name, target.hint⟩
  | _ => []

/-- The attributes that a method declares, in order and as often as it declares them.  Only
initializers with a receiver declare attributes. -/
def FunctionDef.declaredAttributes (f : FunctionDef) : List Attribute :=
  match f.receiver? with
  | some receiver => if f.isInitializer then f.body.flatMap (·.attributesOf receiver) else []
  | none => []

/-- Enters a declaration of an attribute: a new attribute goes to the end, and one without a type
takes the type of the declaration. -/
def Attribute.enter : List Attribute → Attribute → List Attribute
  | [], new => [new]
  | old :: rest, new =>
    if old.name = new.name then ⟨old.name, old.hint.or new.hint⟩ :: rest
    else old :: enter rest new

/-- The attributes of a class with the given body. -/
def attributesOfBody (body : List Statement) : List Attribute :=
  (body.filterMap Statement.function?).flatMap FunctionDef.declaredAttributes
    |>.foldl Attribute.enter []

end Offside
