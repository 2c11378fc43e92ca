import Offside.Emit.Program
import Offside.Reader.Program

/-!
# Compiling a text

A text is read and code is emitted for it.  Nothing is left over from one text to the next.
-/

namespace Offside

/-- What comes of compiling a text. -/
structure Compilation where
  result : Except CompileError String
  /-- What was reported, in order, also before an error. -/
  events : List Event

/-- Compiles a text and tells what happened. -/
def compilation (text : String) : Compilation :=
  let reading := readProgram text
  match reading.result with
  | .error e => ⟨.error (.read e), reading.events⟩
  | .ok program =>
    let emitted := Emit.program reading.registry program
    ⟨emitted.code.mapError .emit, reading.events ++ emitted.events⟩

/-- The code of a text. -/
def compile (text : String) : Except CompileError String := (compilation text).result

end Offside
