import Offside.Target.TypeName

/-!
# Class layouts

A class is laid out as a flat record.  The fields it inherits come first; its own attributes follow,
except those that are there already.  A private attribute is spelled with the name of the class that
declares it, so it shares a field with one of a superclass only where the two spellings are the
same.
-/

namespace Offside

open Target

/-- A field of a record. -/
structure Field where
  name : String
  type : TypeName
deriving DecidableEq, Repr, Inhabited

/-- How a class is laid out in the emitted code. -/
structure Layout where
  /-- The name of the class in the source. -/
  className : String
  /-- The superclass, spelled as in the emitted code. -/
  superclass : Option String
  fields : List Field
  /-- Whether neither the class nor a superclass has an initializer. -/
  needsInitializer : Bool
deriving DecidableEq, Repr, Inhabited

namespace Layout

/-- The name of the record. -/
def name (l : Layout) : String := escape l.className

/-- The marker of the class. -/
def marker (l : Layout) : TypeName := .marker l.name

/-- The marker of the superclass. -/
def superMarker (l : Layout) : Option TypeName := l.superclass.map .marker

/-- Enters an attribute of the given class among the fields. -/
def enterField (registry : ClassRegistry) (className : String) (fields : List Field)
    (a : Attribute) : Except SemanticError (List Field) :=
  let name := memberName a.name className
  if fields.any (·.name == name) then .ok fields
  else
    match a.hint with
    | none => .ok (fields ++ [⟨name, .any⟩])
    | some hint => do return fields ++ [⟨name, ← TypeName.ofHint registry hint⟩]

/-- The layout of a class, behind those of its superclasses. -/
def ofClass (registry : ClassRegistry) (layouts : List Layout) (c : ClassDef) :
    Except SemanticError Layout := do
  let parent := c.superclass.bind fun s => layouts.find? (·.className == s)
  let inherited := (parent.map fields).getD []
  let fields ← c.attributes.foldlM (enterField registry c.name) inherited
  return ⟨c.name, parent.map name, fields, (registry.owner? c.name initializerName).isNone⟩

/-- The layouts of all classes, in the order in which they were registered. -/
def all (registry : ClassRegistry) : Except SemanticError (List Layout) :=
  registry.classes.foldlM (fun layouts c => do return layouts ++ [← ofClass registry layouts c]) []

end Layout

end Offside
