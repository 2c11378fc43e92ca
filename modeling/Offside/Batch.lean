import Offside.Compile
import Offside.Files.Basic
import Offside.Log

/-!
# Batches

A batch compiles files and the source files of directories, one after the other.  An input or a file
that fails is logged and counted, and the batch goes on.
-/

namespace Offside

/-- What a batch is to do. -/
structure Batch where
  /-- Files, or directories whose source files are compiled. -/
  inputs : List Path := [⟨"test"⟩]
  /-- Where code is written; beside each source if there is none. -/
  directory : Option Path := none
  extension : String := "jl"
  /-- Whether code is printed instead of written. -/
  toOutput : Bool := false
deriving DecidableEq, Repr, Inhabited

/-- Why a file of a batch fails. -/
inductive UnitError
  | unreadable (source : Path) (error : FileError)
  | notCompiled (source : Path) (error : CompileError)
  | noDirectory (directory : Path) (error : FileError)
  | unwritable (target : Path) (error : FileError)
deriving DecidableEq, Repr, Inhabited

/-- The text of an error and its causes. -/
def UnitError.message : UnitError → String
  | unreadable source e => "failed to read '" ++ source.text ++ "': " ++ e.message
  | notCompiled source e =>
    "failed to translate '" ++ source.text ++ "': " ++ e.message ++ ": " ++ e.detail
  | noDirectory directory e => "failed to create '" ++ directory.text ++ "': " ++ e.message
  | unwritable target e => "failed to write '" ++ target.text ++ "': " ++ e.message

/-- What a batch has done. -/
structure Report where
  compiled : Nat := 0
  failed : Nat := 0
  /-- What was printed. -/
  printed : String := ""
  log : List Log.Entry := []
deriving DecidableEq, Repr, Inhabited

namespace Report

/-- Whether nothing failed. -/
def isSuccess (r : Report) : Bool := r.failed == 0

/-- What two batches have done, one after the other. -/
def append (r s : Report) : Report :=
  ⟨r.compiled + s.compiled, r.failed + s.failed, r.printed ++ s.printed, r.log ++ s.log⟩

instance : Append Report := ⟨append⟩

/-- The report of a failure. -/
def failure (entry : Log.Entry) : Report := { failed := 1, log := [entry] }

/-- The report of a success. -/
def success (printed : String) (entry : Log.Entry) : Report :=
  { compiled := 1, printed, log := [entry] }

/-- The report of events. -/
def ofEvents (events : List Event) : Report := { log := events.map Log.Entry.ofEvent }

end Report

namespace Batch

/-- The extension of source files. -/
def sourceExtension : String := "py"

section Run

variable {m : Type → Type} [Monad m] [Files m]

/-- The text of an error that an input meets. -/
def inputError (what : String) (input : Path) (consequence : String) (e : FileError) : String :=
  what ++ " '" ++ input.text ++ "'" ++ consequence ++ ": " ++ e.message

/-- The source files of an input: a file itself, or the source files directly in a directory in the
order of their names. -/
def units (input : Path) : m (Except String (List Path)) := do
  match ← Files.isDirectory input with
  | .error e => return .error (inputError "input" input " does not exist" e)
  | .ok false => return .ok [input]
  | .ok true =>
    match ← Files.entries input with
    | .error e => return .error (inputError "failed to read directory" input "" e)
    | .ok entries =>
      let files := (entries.filter Entry.isFile).map fun entry => input.join entry.name
      return .ok (files.filter fun path => path.extension? == some sourceExtension)

/-- Makes the directory of a file, unless that is the working directory. -/
def prepare (target : Path) : m (Except UnitError Unit) := do
  match target.parent?.filter (·.text != "") with
  | none => return .ok ()
  | some parent =>
    match ← Files.makeDirectories parent with
    | .ok () => return .ok ()
    | .error e => return .error (.noDirectory parent e)

/-- Writes code to a file. -/
def store (target : Path) (code : String) : m (Except UnitError Unit) := do
  match ← prepare target with
  | .error e => return .error e
  | .ok () =>
    match ← Files.write target code with
    | .ok () => return .ok ()
    | .error e => return .error (.unwritable target e)

/-- The report of a file that fails. -/
def unitFailure (source : Path) (e : UnitError) : Report :=
  .failure ⟨.warn, e.message, [("source", source.text)]⟩

/-- Hands out the code of a source file. -/
def deliver (b : Batch) (source : Path) (code : String) : m Report := do
  if b.toOutput then
    return .success ("# " ++ source.text ++ "\n" ++ code)
      ⟨.info, "translated", [("source", source.text)]⟩
  else
    let target := source.output b.directory b.extension
    match ← store target code with
    | .error e => return unitFailure source e
    | .ok () =>
      return .success "" ⟨.info, "translated", [("source", source.text), ("output", target.text)]⟩

/-- Compiles one source file. -/
def runUnit (b : Batch) (source : Path) : m Report := do
  match ← Files.read source with
  | .error e => return unitFailure source (.unreadable source e)
  | .ok text =>
    let compiled := compilation text
    let reported := Report.ofEvents compiled.events
    match compiled.result with
    | .error e => return reported ++ unitFailure source (.notCompiled source e)
    | .ok code => return reported ++ (← b.deliver source code)

/-- Does a step for each item, one after the other. -/
def runEach {α : Type} (step : α → m Report) : List α → m Report
  | [] => return {}
  | first :: rest => do
    let report ← step first
    return report ++ (← runEach step rest)

/-- Compiles one input. -/
def runInput (b : Batch) (input : Path) : m Report := do
  match ← units input with
  | .error message => return .failure ⟨.warn, message, [("input", input.text)]⟩
  | .ok sources =>
    let found : Report := { log := [⟨.debug, "collected inputs",
      [("input", input.text), ("units", toString sources.length)]⟩] }
    return found ++ (← runEach b.runUnit sources)

/-- Compiles all inputs. -/
def run (b : Batch) : m Report := runEach b.runInput b.inputs

end Run

end Batch

end Offside
