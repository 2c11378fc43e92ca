import Offside.Class.Layout

/-!
# Scopes

What the emitted form of a statement or an expression depends on, besides itself.
-/

namespace Offside.Emit

/-- The classes of the program, and what stands around a statement. -/
structure Scope where
  registry : ClassRegistry
  layouts : List Layout
  /-- The class around. -/
  className : Option String := none
  /-- The first parameter of the method around. -/
  receiver : Option String := none
  inInitializer : Bool := false
  inFunction : Bool := false
  /-- Whether there is a loop around, outside functions. -/
  inLoop : Bool := false
  /-- The variables of the loops around, outside functions. -/
  loopVariables : List String := []

namespace Scope

/-- The scope of the body of a function.  The class around stays; its receiver does not. -/
def ofFunction (s : Scope) : Scope where
  registry := s.registry
  layouts := s.layouts
  className := s.className
  inFunction := true

/-- The scope of the body of a method. -/
def ofMethod (s : Scope) (className : String) (f : FunctionDef) : Scope where
  registry := s.registry
  layouts := s.layouts
  className := className
  receiver := f.receiver?
  inInitializer := f.isInitializer
  inFunction := true

/-- The scope of the body of a loop with the given variable.  Inside functions it is that of the
loop. -/
def ofLoop (s : Scope) (target : Option String) : Scope :=
  if s.inFunction then s
  else { s with inLoop := true, loopVariables := s.loopVariables ++ target.toList }

/-- The layout of a class. -/
def layout? (s : Scope) (className : String) : Option Layout :=
  s.layouts.find? (·.className == className)

end Scope

end Offside.Emit
