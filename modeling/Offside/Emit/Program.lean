import Offside.Emit.Statement

/-!
# Emitting programs

The emitted program starts with the import of the statistics library, if it is used, and with the
methods of lists that some class has too: these still reach plain lists.
-/

namespace Offside.Emit

open Target

/-- The emitted forms of the statements of a program, with a blank line behind each definition that
is not the last statement. -/
def statements (scope : Scope) : Program → Emission (List Item)
  | [] => return []
  | first :: rest => do
    let items ← statement scope first
    let gap := if first.isDefinition && !rest.isEmpty then [.blank] else []
    return items ++ gap ++ (← statements scope rest)

/-- The import of the statistics library, if an item uses it. -/
def importItems (items : List Item) : List Item :=
  if (Item.allParts items).any Code.isStatistic then [.library "Statistics", .blank] else []

/-- The methods of lists that some class has too. -/
def shadowedMethods (registry : ClassRegistry) : List (String × String) :=
  listMethods.filter fun method => registry.anyDeclares method.1

/-- A method of lists as one that is chosen by its first argument. -/
def shadowedItem (method : String × String) : Item :=
  .equation ⟨methodName, [.tag method.1, typed "self" (.named "AbstractVector"), .remaining "args"],
      none⟩
    (callOf method.2 [selfCode, .spread (.name "args")])

/-- The methods of lists that some class has too, with a blank line behind them. -/
def shadowedItems (registry : ClassRegistry) : List Item :=
  match (shadowedMethods registry).map shadowedItem with
  | [] => []
  | items => items ++ [.blank]

/-- The items of the emitted program. -/
def programItems (registry : ClassRegistry) (source : Program) : Emission (List Item) := do
  let layouts ← Layout.all registry
  let items ← statements { registry, layouts } source
  return importItems items ++ shadowedItems registry ++ items

/-- What comes of emitting a program. -/
structure Emitted where
  items : Except SemanticError (List Item)
  /-- What was reported, in order. -/
  events : List Event

/-- The text of the emitted program. -/
def Emitted.code (e : Emitted) : Except SemanticError String := e.items.map Item.programText

/-- Emits a program with the given classes. -/
def program (registry : ClassRegistry) (source : Program) : Emitted :=
  match programItems registry source {} with
  | .ok items p => ⟨.ok items, p.reported.reverse⟩
  | .error e p => ⟨.error e, p.reported.reverse⟩

end Offside.Emit
