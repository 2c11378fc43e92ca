import Offside.CommandLine

/-!
# The program

The command line on the files of the system.
-/

namespace Offside

namespace SystemFiles

/-- The number and the text that the system gives for an error. -/
def codeOf : IO.Error → UInt32 × String
  | .alreadyExists _ code text | .otherError code text | .resourceBusy code text
  | .resourceVanished code text | .unsupportedOperation code text | .hardwareFault code text
  | .unsatisfiedConstraints code text | .illegalOperation code text | .protocolError code text
  | .timeExpired code text | .interrupted _ code text | .noFileOrDirectory _ code text
  | .invalidArgument _ code text | .permissionDenied _ code text | .resourceExhausted _ code text
  | .inappropriateType _ code text | .noSuchThing _ code text => (code, text)
  | .unexpectedEof => (0, "unexpected end of file")
  | .userError text => (0, text)

/-- The number of an error.  Some operations give it with a minus sign. -/
def positive (code : UInt32) : UInt32 := if code < 0x80000000 then code else 0 - code

/-- The error that the system reports. -/
def errorOf (e : IO.Error) : FileError :=
  match (codeOf e).map positive id with
  | (2, _) => .notFound
  | (17, _) => .alreadyExists
  | (20, _) => .notDirectory
  | (21, _) => .isDirectory
  | (36, _) => .nameTooLong
  | (code, text) => .system (text ++ " (os error " ++ toString code ++ ")")

/-- Does an action and keeps its error. -/
def attempt {α : Type} (action : IO α) : IO (Except FileError α) := do
  try return .ok (← action)
  catch e => return .error (errorOf e)

/-- The entry that a path stands for. -/
def entryAt (path : Path) : IO.FS.DirEntry := ⟨path.text, ""⟩

/-- Whether there is a directory at a path. -/
def isDirectory (path : Path) : IO Bool := do
  return (← (entryAt path).root.metadata).type == .dir

/-- The entries of a directory, in the order of their names. -/
def entries (path : Path) : IO (List Entry) := do
  let found ← (← (entryAt path).root.readDir).toList.mapM fun entry => do
    return (⟨entry.fileName, (← entry.path.symlinkMetadata).type == .file⟩ : Entry)
  return found.mergeSort fun a b => decide (a.name ≤ b.name)

/-- The text of a file. -/
def read (path : Path) : IO (Except FileError String) := do
  match ← attempt (IO.FS.readBinFile path.text) with
  | .error e => return .error e
  | .ok bytes =>
    match String.fromUTF8? bytes with
    | some text => return .ok text
    | none => return .error .invalidText

end SystemFiles

instance : Files IO where
  isDirectory path := SystemFiles.attempt (SystemFiles.isDirectory path)
  entries path := SystemFiles.attempt (SystemFiles.entries path)
  read := SystemFiles.read
  makeDirectory path := SystemFiles.attempt (IO.FS.createDir path.text)
  write path text := SystemFiles.attempt (IO.FS.writeFile path.text text)

/-- Shows the outcome of a run. -/
def showOutcome (outcome : CommandLine.Outcome) : IO UInt32 := do
  (← IO.getStdout).putStr outcome.printed
  for line in outcome.log do IO.eprintln line
  if outcome.exitCode = 2 then IO.eprint CommandLine.usageText
  return outcome.exitCode

end Offside

/-- Runs the command line. -/
def main (arguments : List String) : IO UInt32 := do
  Offside.showOutcome (← Offside.CommandLine.run arguments)
