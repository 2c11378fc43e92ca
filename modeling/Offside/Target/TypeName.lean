import Offside.Class.Registry
import Offside.Target.Name

/-!
# Types of the emitted code

A hint of the source stands for a type of the emitted code.  A class stands for its marker, so that
instances of subclasses are accepted too.
-/

namespace Offside.Target

/-- A type of the emitted code. -/
inductive TypeName
  | any
  | named (name : String)
  | vector (element : TypeName)
  /-- The marker of the class that is spelled `className`. -/
  | marker (className : String)
deriving DecidableEq, Repr, Inhabited

namespace TypeName

/-- The text of a type. -/
def text : TypeName → String
  | any => "Any"
  | named name => name
  | vector element => "Vector\x7b" ++ element.text ++ "\x7d"
  | marker className => markerName className

/-- The hints that stand for types of their own. -/
def scalars : List (String × TypeName) := [
  ("int", named "Int64"),
  ("float", named "Float64"),
  ("str", named "String"),
  ("bool", named "Bool"),
  ("None", named "Nothing"),
  ("list", vector any)]

/-- The refusal of a hint that stands for no type. -/
def unsupported (hint : TypeHint) : SemanticError :=
  ⟨.unsupportedTypeHint hint.text, hint.span.start⟩

/-- The type that a hint stands for.  Only `list` takes an argument, the type of its elements. -/
def ofHint (registry : ClassRegistry) : TypeHint → Except SemanticError TypeName
  | ⟨name, [], span⟩ =>
    match scalars.lookup name with
    | some type => .ok type
    | none =>
      if registry.contains name then .ok (marker (escape name))
      else .error (unsupported ⟨name, [], span⟩)
  | ⟨name, [element], span⟩ =>
    if name = "list" then (ofHint registry element).map vector
    else .error (unsupported ⟨name, [element], span⟩)
  | hint => .error (unsupported hint)

end TypeName

end Offside.Target
