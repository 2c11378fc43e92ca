import Offside.Files.Path

/-!
# Files

What is asked of a store of files and directories, and the errors it can answer with.
-/

namespace Offside

/-- Why a file or a directory cannot be used. -/
inductive FileError
  | notFound
  | alreadyExists
  | notDirectory
  | isDirectory
  | nameTooLong
  | nulCharacter
  | invalidText
  /-- Any other reason that a system gives. -/
  | system (text : String)
deriving DecidableEq, Repr, Inhabited

/-- The text of an error. -/
def FileError.message : FileError → String
  | notFound => "No such file or directory (os error 2)"
  | alreadyExists => "File exists (os error 17)"
  | notDirectory => "Not a directory (os error 20)"
  | isDirectory => "Is a directory (os error 21)"
  | nameTooLong => "File name too long (os error 36)"
  | nulCharacter => "file name contained an unexpected NUL byte"
  | invalidText => "stream did not contain valid UTF-8"
  | system text => text

/-- An entry of a directory. -/
structure Entry where
  name : String
  isFile : Bool
deriving DecidableEq, Repr, Inhabited

/-- The operations on a store of files and directories. -/
class Files (m : Type → Type) where
  /-- Whether there is a directory, and not a file, at a path. -/
  isDirectory (path : Path) : m (Except FileError Bool)
  /-- The entries of a directory, in the order of their names. -/
  entries (path : Path) : m (Except FileError (List Entry))
  /-- The text of a file. -/
  read (path : Path) : m (Except FileError String)
  /-- Makes one directory. -/
  makeDirectory (path : Path) : m (Except FileError Unit)
  /-- Writes a text to a file, which is made or replaced. -/
  write (path : Path) (text : String) : m (Except FileError Unit)

namespace Files

variable {m : Type → Type} [Monad m] [Files m]

/-- Makes a directory.  One that is there already is fine. -/
def ensureDirectory (path : Path) : m (Except FileError Unit) := do
  match ← makeDirectory path with
  | .ok () => return .ok ()
  | .error e =>
    match ← isDirectory path with
    | .ok true => return .ok ()
    | _ => return .error e

/-- Makes the first of some directories, and before it those behind it that are missing. -/
def ensureAll : List Path → m (Except FileError Unit)
  | [] => return .ok ()
  | path :: parents => do
    match ← ensureDirectory path with
    | .error .notFound =>
      match ← ensureAll parents with
      | .ok () => ensureDirectory path
      | .error e => return .error e
    | result => return result

/-- Makes a directory and all directories above it that are missing. -/
def makeDirectories (path : Path) : m (Except FileError Unit) := ensureAll path.ancestors

end Files

end Offside
