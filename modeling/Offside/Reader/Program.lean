import Offside.Reader.Statement
import Offside.Token.Tokenize

/-!
# Reading programs
-/

namespace Offside

/-- What comes of reading a text. -/
structure Reading where
  result : Except ReadError Program
  /-- The names met, also those met before an error. -/
  names : NameTable
  /-- The classes met, also those met before an error. -/
  registry : ClassRegistry := {}
  /-- What was reported, in order. -/
  events : List Event := []

/-- Reads the program that some tokens form. -/
def readTokens (tokens : List Token) (names : NameTable) : Reading :=
  let start : List Event := [.tokenized tokens.length]
  match Reader.program (.ofTokens tokens names) with
  | .ok program r => ⟨.ok program, r.names, r.registry, start ++ r.reported.reverse⟩
  | .error e r => ⟨.error e, r.names, r.registry, start ++ r.reported.reverse⟩

/-- Reads the program of a text.  The names in the table keep their handles. -/
def readProgram (text : String) (names : NameTable := {}) : Reading :=
  match tokenize text names with
  | (.ok tokens, names) => readTokens tokens names
  | (.error e, names) => { result := .error (.lexical e), names }

end Offside
