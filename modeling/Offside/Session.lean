import Offside.Emit.Generator
import Offside.Reader.Program

/-!
# Sessions

A session keeps one table of names, and the classes of the last program it read without an error.
-/

namespace Offside

/-- The state of a session. -/
structure Session where
  names : NameTable := {}
  registry : ClassRegistry := {}

namespace Session

/-- The session that nothing was read in. -/
def empty : Session := {}

/-- Enters a name in the table. -/
def intern (s : Session) (name : String) : Session :=
  { s with names := s.names.intern name }

/-- Cuts a text into tokens. -/
def tokenize (s : Session) (text : String) : Except LexicalError (List Token) × Session :=
  let (result, names) := Offside.tokenize text s.names
  (result, { s with names })

/-- Reads the program of a text.  Its classes replace those of the session, unless there is an
error. -/
def read (s : Session) (text : String) : Except ReadError Program × Session :=
  let reading := readProgram text s.names
  match reading.result with
  | .ok program => (.ok program, ⟨reading.names, reading.registry⟩)
  | .error e => (.error e, { s with names := reading.names })

/-- A generator of a program, with the classes of the session. -/
def generator (s : Session) (program : Program) : Emit.Generator where
  registry := s.registry
  source := program

/-- The code of a program, with the classes of the session. -/
def emit (s : Session) (program : Program) : Except SemanticError String :=
  (s.generator program).generate.1

end Session

end Offside
