/-!
# Paths

A path is a text whose segments are divided by slashes.  A path that starts with a slash is
absolute.  Empty segments and `.` count for nothing, except a `.` at the start.
-/

namespace Offside

/-- The parts of a text between slashes; there is one more part than there are slashes. -/
def splitAtSlash : List Char → List (List Char)
  | [] => [[]]
  | c :: rest =>
    match splitAtSlash rest with
    | [] => [[c]]
    | first :: others => if c = '/' then [] :: first :: others else (c :: first) :: others

/-- A path to a file or a directory. -/
structure Path where
  text : String
deriving DecidableEq, Repr, Inhabited

namespace Path

/-- The segments of a path. -/
def segments (p : Path) : List String := (splitAtSlash p.text.toList).map String.ofList

/-- Whether a path starts at the root. -/
def isAbsolute (p : Path) : Bool := ['/'].isPrefixOf p.text.toList

/-- Whether a segment counts for nothing. -/
def isVoid (segment : String) : Bool := segment == "" || segment == "."

/-- The path of some segments. -/
def ofSegments (segments : List String) : Path := ⟨"/".intercalate segments⟩

/-- The segment at the start of a path: it is empty if the path is absolute or empty. -/
def lead (p : Path) : String := p.segments.headD ""

/-- The segments behind the start, the last first, without those at the end that count for nothing.
-/
def tailReversed (p : Path) : List String := (p.segments.drop 1).reverse.dropWhile isVoid

/-- The path of the start of a path and of further segments, the last first. -/
def withTail (p : Path) (reversed : List String) : Path :=
  if p.isAbsolute && reversed.isEmpty then ⟨"/"⟩ else ofSegments (p.lead :: reversed.reverse)

/-- The path without its last segment.  The root and the empty path have none. -/
def parent? (p : Path) : Option Path :=
  match p.tailReversed with
  | _ :: rest => some (p.withTail (rest.dropWhile isVoid))
  | [] => if p.lead = "" then none else some ⟨""⟩

/-- The last segment of a path, unless that is `.` or `..`. -/
def fileName? (p : Path) : Option String :=
  let last := p.tailReversed.headD p.lead
  if isVoid last || last == ".." then none else some last

/-- The parts of a name before and behind its last dot.  A name whose only dot is at its start has
none. -/
def splitName (name : String) : String × Option String :=
  let reversed := name.toList.reverse
  let behind := reversed.takeWhile (· != '.')
  match reversed.drop behind.length with
  | [] | [_] => (name, none)
  | _ :: before => (String.ofList before.reverse, some (String.ofList behind.reverse))

/-- The name of a file without its extension. -/
def stem? (p : Path) : Option String := p.fileName?.map fun name => (splitName name).1

/-- The part of the name of a file behind its last dot. -/
def extension? (p : Path) : Option String := p.fileName?.bind fun name => (splitName name).2

/-- The path of `name` seen from the directory `p`. -/
def join (p : Path) (name : String) : Path :=
  if isAbsolute ⟨name⟩ then ⟨name⟩
  else if p.text == "" || ['/'].isSuffixOf p.text.toList then ⟨p.text ++ name⟩
  else ⟨p.text ++ "/" ++ name⟩

/-- The paths of the start of a path and of its further segments, the longest first. -/
def ancestorsOf (p : Path) : List String → List Path
  | [] => if p.lead = "" && !p.isAbsolute then [] else [p.withTail []]
  | segment :: rest =>
    if isVoid segment then p.ancestorsOf rest
    else p.withTail (segment :: rest) :: p.ancestorsOf rest

/-- A path, its parent, the parent of that, and so on, without the empty path. -/
def ancestors (p : Path) : List Path := p.ancestorsOf p.tailReversed

/-- Where the code of a source file goes: into the given directory or beside the source, under the
name of the source with another extension. -/
def output (source : Path) (directory : Option Path) (extension : String) : Path :=
  let target := directory.getD (source.parent?.getD ⟨""⟩)
  target.join (source.stem?.getD source.text ++ "." ++ extension)

end Path

end Offside
