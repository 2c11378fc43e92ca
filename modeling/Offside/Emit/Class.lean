import Offside.Class.Layout
import Offside.Target.Item

/-!
# Emitting the types of a class

A class becomes an abstract type that marks its instances, a record below it, and two functions that
read and write attributes.  Attributes without a field are kept in the table of the record.
-/

namespace Offside.Emit

open Target

/-- The name of the function that holds the methods that classes define themselves. -/
def staticName : String := "__static__"

/-- The name of the function that holds the methods chosen by the class of their first argument. -/
def methodName : String := "__method__"

/-- The parameter of the given name and type. -/
def typed (name : String) (type : TypeName) : Formal := .plain name type none

/-- The instance, in the functions that every class has. -/
def selfCode : Code := .name "self"

/-- A call of a function of the given name. -/
def callOf (function : String) (arguments : List Code) : Code := .call (.name function) arguments

/-- Whether the record of the instance has a field of the wanted name. -/
def hasFieldCode : Code := callOf "hasfield" [callOf "typeof" [selfCode], .name "name"]

/-- The table of further attributes of the instance. -/
def tableCode : Code := callOf "getfield" [selfCode, .symbol "__dict__"]

/-- The function that reads an attribute. -/
def readAttribute (l : Layout) : Item :=
  .function ⟨"Base.getproperty", [typed "self" l.marker, typed "name" (.named "Symbol")], none⟩ [
    .conditional hasFieldCode [.returns [callOf "getfield" [selfCode, .name "name"]]] .nothing,
    .assign false [.name "attributes"] none [tableCode],
    .conditional (callOf "haskey" [.name "attributes", .name "name"])
      [.returns [.subscript (.name "attributes") [.name "name"]]] .nothing,
    .expressions [callOf "error" [.str [.embedded (callOf "typeof" [selfCode]),
      .literal " has no attribute ", .embedded (.name "name")]]]]

/-- The value that is written, converted to the type of its field. -/
def convertedCode : Code :=
  callOf "convert"
    [callOf "fieldtype" [callOf "typeof" [selfCode], .name "name"], .name "value"]

/-- The function that writes an attribute. -/
def writeAttribute (l : Layout) : Item :=
  .function ⟨"Base.setproperty!",
      [typed "self" l.marker, typed "name" (.named "Symbol"), .plain "value" none none], none⟩ [
    .conditional hasFieldCode
      [.returns [callOf "setfield!" [selfCode, .name "name", convertedCode]]] .nothing,
    .assign false [.subscript tableCode [.name "name"]] none [.name "value"],
    .returns [.name "value"]]

/-- The initializer of a class that has none. -/
def defaultInitializer (l : Layout) : List Item := [
  .function ⟨staticName, [.tag l.name, .tag initializerName, typed "self" l.marker], none⟩
    [.returns [selfCode]],
  .blank,
  .equation ⟨methodName, [.tag initializerName, typed "self" l.marker], none⟩
    (.staticCall l.name initializerName [selfCode])]

/-- The types of a class and what every class has. -/
def classItems (l : Layout) : List Item :=
  [.abstractType l.marker l.superMarker,
    .blank,
    .record l.name l.marker (l.fields.map fun field => (field.name, field.type)),
    .blank,
    readAttribute l,
    .blank,
    writeAttribute l] ++
  if l.needsInitializer then .blank :: defaultInitializer l else []

end Offside.Emit
