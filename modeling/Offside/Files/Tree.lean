import Offside.Files.Basic
import Offside.Source.Location

/-!
# File trees

A file tree is a finite map from places to files and directories, together with the directory that
relative paths start from.  A place is the list of names on the way from the root.
-/

namespace Offside

/-- What a file holds. -/
inductive Contents
  | text (text : String)
  /-- Bytes that are no text. -/
  | binary
deriving DecidableEq, Repr, Inhabited

/-- What there is at a place. -/
inductive Node
  | directory
  | file (contents : Contents)
deriving DecidableEq, Repr, Inhabited

/-- The names on the way from the root. -/
abbrev Place := List String

/-- The nodes of a tree, and the directory that relative paths start from.  The root is always a
directory. -/
structure FileTree where
  nodes : List (Place × Node) := []
  workingDirectory : Place := []
deriving DecidableEq, Repr, Inhabited

namespace FileTree

/-- The node at a place. -/
def node? (t : FileTree) (place : Place) : Option Node :=
  if place = [] then some .directory else t.nodes.lookup place

/-- Puts a node at a place. -/
def put (t : FileTree) (place : Place) (node : Node) : FileTree :=
  { t with nodes := t.nodes.filter (·.1 != place) ++ [(place, node)] }

/-- Whether a name is too long for a file. -/
def isTooLong (name : String) : Bool := 255 < byteLength name.toList

/-- Follows one segment of a path, up to a place that may be empty. -/
def enter (t : FileTree) (place : Place) (segment : String) : Except FileError Place :=
  match t.node? place with
  | none => .error .notFound
  | some (.file _) => .error .notDirectory
  | some .directory =>
    if Path.isVoid segment then .ok place
    else if segment = ".." then .ok place.dropLast
    else if isTooLong segment then .error .nameTooLong
    else .ok (place ++ [segment])

/-- Follows some segments, up to a place that may be empty. -/
def follow (t : FileTree) (place : Place) (segments : List String) : Except FileError Place :=
  segments.foldlM t.enter place

/-- Refuses the texts that are no paths. -/
def checkPath (path : Path) : Except FileError Unit :=
  if path.text.toList.contains '\x00' then .error .nulCharacter
  else if path.text = "" then .error .notFound
  else if 4096 ≤ byteLength path.text.toList then .error .nameTooLong
  else .ok ()

/-- The place where a path starts. -/
def start (t : FileTree) (path : Path) : Place :=
  if path.isAbsolute then [] else t.workingDirectory

/-- The node that a path leads to. -/
def find (t : FileTree) (path : Path) : Except FileError Node := do
  checkPath path
  match t.node? (← t.follow (t.start path) path.segments) with
  | some node => return node
  | none => throw .notFound

/-- The segments of a path without the empty ones at its end, the last first. -/
def trimmedReversed (path : Path) : List String := path.segments.reverse.dropWhile (· == "")

/-- The directory that the last segment of a path is looked up in, and that segment. -/
def parentPlace (t : FileTree) (path : Path) : Except FileError (Place × String) := do
  checkPath path
  match trimmedReversed path with
  | [] => return (t.start path, ".")
  | last :: before =>
    let place ← t.follow (t.start path) before.reverse
    discard (t.enter place last)
    return (place, last)

/-- The names in a directory, with what they stand for. -/
def children (t : FileTree) (place : Place) : List (String × Node) :=
  t.nodes.filterMap fun (other, node) =>
    match other.getLast? with
    | some name => if other.dropLast = place then some (name, node) else none
    | none => none

/-- The place that the directory of a path is at. -/
def directoryPlace (t : FileTree) (path : Path) : Except FileError Place := do
  match ← t.find path with
  | .directory => t.follow (t.start path) path.segments
  | .file _ => throw .notDirectory

/-- The entries of a directory, in the order of their names. -/
def entries (t : FileTree) (path : Path) : Except FileError (List Entry) := do
  let place ← t.directoryPlace path
  let listed := (t.children place).map fun (name, node) => (⟨name, node != .directory⟩ : Entry)
  return listed.mergeSort fun a b => decide (a.name ≤ b.name)

/-- The text of a file. -/
def read (t : FileTree) (path : Path) : Except FileError String := do
  match ← t.find path with
  | .directory => throw .isDirectory
  | .file .binary => throw .invalidText
  | .file (.text text) => return text

/-- Makes one directory. -/
def makeDirectory (t : FileTree) (path : Path) : Except FileError FileTree := do
  let (place, name) ← t.parentPlace path
  if Path.isVoid name || name == ".." then throw .alreadyExists
  else if (t.node? (place ++ [name])).isSome then throw .alreadyExists
  else return t.put (place ++ [name]) .directory

/-- Writes what a file holds.  The file is made or replaced. -/
def write (t : FileTree) (path : Path) (contents : Contents) : Except FileError FileTree := do
  let (place, name) ← t.parentPlace path
  if Path.isVoid name || name == ".." || ['/'].isSuffixOf path.text.toList then throw .isDirectory
  else
    match t.node? (place ++ [name]) with
    | some .directory => throw .isDirectory
    | _ => return t.put (place ++ [name]) (.file contents)

/-- Does a step that changes the tree unless it fails. -/
def change (step : FileTree → Except FileError FileTree) :
    StateM FileTree (Except FileError Unit) :=
  fun t =>
    match step t with
    | .ok changed => (.ok (), changed)
    | .error e => (.error e, t)

instance : Files (StateM FileTree) where
  isDirectory path := return ((← get).find path).map (· == .directory)
  entries path := return (← get).entries path
  read path := return (← get).read path
  makeDirectory path := change fun t => t.makeDirectory path
  write path text := change fun t => t.write path (.text text)

/-- The tree that holds nothing but the directories on the way to the working directory. -/
def startingAt (place : Place) : FileTree where
  nodes := (List.range place.length).map fun n => (place.take (n + 1), .directory)
  workingDirectory := place

/-- Makes a file and the directories above it that are missing. -/
def addFile (path : Path) (contents : Contents) : StateM FileTree (Except FileError Unit) := do
  match ← Files.makeDirectories (path.parent?.getD ⟨""⟩) with
  | .ok () => change fun t => t.write path contents
  | .error e => return .error e

/-- The files below a place, with the names on the way from it. -/
def filesBelow (t : FileTree) (place : Place) : List (Place × Contents) :=
  t.nodes.filterMap fun (other, node) =>
    match node with
    | .file contents =>
      if place.isPrefixOf other then some (other.drop place.length, contents) else none
    | .directory => none

end FileTree

end Offside
