import Offside.Proofs.Traversal
import Offside.Target.Item

/-!
# Types in emitted code

Running the definitions of a program declares types and looks up the types that it meets.  The
events of an item are what is done with types, in this order; an abstract type is declared behind
its supertype, and a record in front of the types that its declaration names.  The type of the
target of an assignment belongs to no definition and is left out.
-/

namespace Offside.Target

/-- What is done with a type when a definition is run. -/
inductive TypeEvent
  /-- A name is looked up. -/
  | use (name : String)
  | abstractType (name : String)
  | record (name : String) (fields : List String)
deriving DecidableEq, Repr

/-- The names in the text of a type. -/
def TypeName.names : TypeName → List String
  | any => ["Any"]
  | named name => [name]
  | vector element => "Vector" :: element.names
  | marker className => [markerName className]

/-- The events of a type behind what has the type. -/
def typeEvents : Option TypeName → List TypeEvent
  | none => []
  | some type => type.names.map .use

/-- The events of a parameter. -/
def Formal.typeEvents : Formal → List TypeEvent
  | tag _ => [.use "Val"]
  | plain _ type _ => Target.typeEvents type
  | remaining _ => []

/-- The events of a signature. -/
def Signature.typeEvents (s : Signature) : List TypeEvent :=
  s.formals.flatMap Formal.typeEvents ++ Target.typeEvents s.returns

/-- The field of a record that holds the table of further attributes. -/
def tableField : String := "__dict__"

mutual

/-- The events of a statement. -/
def Item.typeEvents : Item → List TypeEvent
  | .blank | .library _ | .expressions _ | .returns _ | .breaks | .continues | .globals _
  | .assign _ _ _ _ => []
  | .conditional _ body alternative => Item.allTypeEvents body ++ alternative.typeEvents
  | .forLoop _ _ body => Item.allTypeEvents body
  | .whileLoop _ body => Item.allTypeEvents body
  | .function signature body => signature.typeEvents ++ Item.allTypeEvents body
  | .equation signature _ => signature.typeEvents
  | .abstractType type supertype =>
    Target.typeEvents supertype ++ [TypeEvent.abstractType type.text]
  | .record name supertype fields =>
    .record name (tableField :: fields.map Prod.fst) :: Target.typeEvents supertype ++
      [.use "Dict", .use "Symbol", .use "Any"] ++
      fields.flatMap fun field => Target.typeEvents field.2

/-- The events of an alternative. -/
def Alternative.typeEvents : Alternative → List TypeEvent
  | .nothing => []
  | .branch _ body alternative => Item.allTypeEvents body ++ alternative.typeEvents
  | .block body => Item.allTypeEvents body

/-- The events of some statements. -/
def Item.allTypeEvents : List Item → List TypeEvent
  | [] => []
  | item :: rest => item.typeEvents ++ Item.allTypeEvents rest

end

@[simp] theorem typeEvents_none : typeEvents none = [] := rfl

@[simp] theorem Formal.typeEvents_tag (name : String) : (tag name).typeEvents = [.use "Val"] := rfl

attribute [simp] Signature.typeEvents Item.typeEvents Item.allTypeEvents

theorem Item.allTypeEvents_singleton (item : Item) : Item.allTypeEvents [item] = item.typeEvents :=
  List.append_nil _

@[simp] theorem Item.allTypeEvents_append (items rest : List Item) :
    Item.allTypeEvents (items ++ rest) = Item.allTypeEvents items ++ Item.allTypeEvents rest :=
  append_of_cons rfl (fun _ _ => rfl) items rest

end Offside.Target
