import Offside.Emit.Program

/-!
# Generators

A generator emits one program as often as it is asked to.  The names that a run remembers are
forgotten at the start of the next run; what is reported is added to what was reported before.
-/

namespace Offside.Emit

open Target

/-- A program and its classes, with what the last run remembered. -/
structure Generator where
  registry : ClassRegistry
  source : Program
  progress : Progress := {}

namespace Generator

/-- The code of the program, and the generator behind the run. -/
def generate (g : Generator) : Except SemanticError String × Generator :=
  match programItems g.registry g.source { g.progress with globals := [] } with
  | .ok items p => (.ok (Item.programText items), { g with progress := p })
  | .error e p => (.error e, { g with progress := p })

end Generator

end Offside.Emit
