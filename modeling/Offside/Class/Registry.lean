import Offside.Error
import Offside.Tree.Statement

/-!
# Class registries

The classes of a program, in the order in which they were registered.  A class is registered under a
new name, and after its superclass; so the chain of superclasses of a class runs through ever
earlier classes and ends.
-/

namespace Offside

/-- The registered classes, the latest first. -/
structure ClassRegistry where
  latestFirst : List ClassDef := []

namespace ClassRegistry

/-- The registry without classes. -/
def empty : ClassRegistry := {}

/-- The classes in the order in which they were registered. -/
def classes (r : ClassRegistry) : List ClassDef := r.latestFirst.reverse

/-- The number of classes. -/
def size (r : ClassRegistry) : Nat := r.latestFirst.length

/-- Whether there are no classes. -/
def isEmpty (r : ClassRegistry) : Bool := r.latestFirst.isEmpty

/-- The class of the given name. -/
def get? (r : ClassRegistry) (name : String) : Option ClassDef :=
  r.latestFirst.find? (·.name == name)

/-- Whether there is a class of the given name. -/
def contains (r : ClassRegistry) (name : String) : Bool :=
  r.latestFirst.any (·.name == name)

/-- Registers a class under a new name, after its superclass. -/
def register (r : ClassRegistry) (c : ClassDef) : Except SemanticError ClassRegistry :=
  if r.contains c.name then .error ⟨.duplicateClass c.name, c.span.start⟩
  else
    match c.superclass.filter (!r.contains ·) with
    | some superclass => .error ⟨.unknownSuperclass c.name superclass, c.span.start⟩
    | none => .ok ⟨c :: r.latestFirst⟩

/-- The class of the given name among `latestFirst`, followed by its superclasses, the nearest
first.  A superclass is looked for among the classes registered before. -/
def chain : (latestFirst : List ClassDef) → String → List ClassDef
  | [], _ => []
  | c :: earlier, name =>
    if c.name = name then
      match c.superclass with
      | some superclass => c :: chain earlier superclass
      | none => [c]
    else chain earlier name

/-- A class followed by its superclasses, the nearest first. -/
def ancestors (r : ClassRegistry) (name : String) : List ClassDef :=
  chain r.latestFirst name

/-- The nearest class, from the given one upwards, that has a method of the given name. -/
def owner? (r : ClassRegistry) (name method : String) : Option ClassDef :=
  (r.ancestors name).find? (·.declares method)

/-- Whether some class has a method of the given name. -/
def anyDeclares (r : ClassRegistry) (method : String) : Bool :=
  r.latestFirst.any (·.declares method)

end ClassRegistry

end Offside
