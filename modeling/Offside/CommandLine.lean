import Offside.Batch

/-!
# The command line

The arguments are read from left to right.  The first fault decides that the command line is
refused, unless help or the version was asked for before it.
-/

namespace Offside

namespace CommandLine

/-- The options that take a value. -/
inductive ValueOption
  | directory
  | extension
deriving DecidableEq, Repr, Inhabited

/-- The options that take none. -/
inductive Flag
  | toOutput
  | verbose
  | quiet
  | help
  | version
deriving DecidableEq, Repr, Inhabited

/-- An option. -/
inductive Switch
  | value (option : ValueOption)
  | flag (flag : Flag)
deriving DecidableEq, Repr, Inhabited

/-- The options by their long names. -/
def longNames : List (String × Switch) := [
  ("out-dir", .value .directory),
  ("extension", .value .extension),
  ("stdout", .flag .toOutput),
  ("verbose", .flag .verbose),
  ("quiet", .flag .quiet),
  ("help", .flag .help),
  ("version", .flag .version)]

/-- The options by their letters. -/
def letters : List (Char × Switch) := [
  ('o', .value .directory),
  ('e', .value .extension),
  ('v', .flag .verbose),
  ('q', .flag .quiet),
  ('h', .flag .help),
  ('V', .flag .version)]

/-- The arguments read so far. -/
structure Options where
  paths : List Path := []
  directory : Option Path := none
  extension : Option String := none
  toOutput : Bool := false
  verbose : Nat := 0
  quiet : Nat := 0
deriving DecidableEq, Repr, Inhabited

/-- Why the reading of arguments stops. -/
inductive Stop
  /-- The arguments are refused. -/
  | usage
  | help
  | version
deriving DecidableEq, Repr, Inhabited

namespace Options

/-- Adds a path, which may not be empty. -/
def addPath (o : Options) (text : String) : Except Stop Options :=
  if text = "" then .error .usage else .ok { o with paths := o.paths ++ [⟨text⟩] }

/-- Sets the value of an option.  It is set at most once, and a directory may not be empty. -/
def setValue (o : Options) (value : String) : ValueOption → Except Stop Options
  | .directory =>
    if o.directory.isSome || value == "" then .error .usage
    else .ok { o with directory := some ⟨value⟩ }
  | .extension =>
    if o.extension.isSome then .error .usage else .ok { o with extension := some value }

/-- Sets a flag. -/
def setFlag (o : Options) : Flag → Except Stop Options
  | .toOutput => if o.toOutput then .error .usage else .ok { o with toOutput := true }
  | .verbose => .ok { o with verbose := o.verbose + 1 }
  | .quiet => .ok { o with quiet := o.quiet + 1 }
  | .help => .error .help
  | .version => .error .version

end Options

/-- What an argument leaves open: whether the next argument is the value of an option. -/
abbrev Pending := Option ValueOption

/-- Reads letters behind a dash.  The rest behind an option with a value is the value; an equality
sign before it is dropped. -/
def readLetters (o : Options) : List Char → Except Stop (Options × Pending)
  | [] => .ok (o, none)
  | c :: rest =>
    match letters.lookup c with
    | none => .error .usage
    | some (.flag flag) => do readLetters (← o.setFlag flag) rest
    | some (.value option) =>
      match rest with
      | [] => .ok (o, some option)
      | '=' :: value => do return (← o.setValue (String.ofList value) option, none)
      | value => do return (← o.setValue (String.ofList value) option, none)

/-- Reads a long name behind two dashes, and a value behind an equality sign. -/
def readLong (o : Options) (text : List Char) : Except Stop (Options × Pending) := do
  let name := text.takeWhile (· != '=')
  match longNames.lookup (String.ofList name), text.drop name.length with
  | some (.flag flag), [] => return (← o.setFlag flag, none)
  | some (.value option), [] => return (o, some option)
  | some (.value option), _ :: value => return (← o.setValue (String.ofList value) option, none)
  | _, _ => throw .usage

/-- Whether an argument is an option or the end of the options. -/
def isSwitch (argument : String) : Bool :=
  ['-'].isPrefixOf argument.toList && argument != "-"

/-- Reads the arguments behind the end of the options. -/
def readPaths (o : Options) (arguments : List String) : Except Stop Options :=
  arguments.foldlM Options.addPath o

/-- Reads an option. -/
def readSwitch (o : Options) (argument : String) : Except Stop (Options × Pending) :=
  match argument.toList with
  | '-' :: '-' :: name => readLong o name
  | _ :: rest => readLetters o rest
  | [] => .ok (o, none)

/-- Reads arguments, the first of which may be the value of an option. -/
def readArguments (o : Options) : Pending → List String → Except Stop Options
  | none, [] => .ok o
  | some _, [] => .error .usage
  | some option, argument :: rest =>
    if isSwitch argument then .error .usage
    else do readArguments (← o.setValue argument option) none rest
  | none, argument :: rest =>
    if argument = "--" then readPaths o rest
    else if isSwitch argument then do
      let (read, pending) ← readSwitch o argument
      readArguments read pending rest
    else do readArguments (← o.addPath argument) none rest

/-- Reads a command line.  One cannot ask for more and for less to be logged. -/
def read (arguments : List String) : Except Stop Options := do
  let o ← readArguments {} none arguments
  if o.verbose ≠ 0 ∧ o.quiet ≠ 0 then throw .usage else return o

/-- The rank of the least level that is logged. -/
def Options.logRank (o : Options) : Nat :=
  match o.verbose, o.quiet with
  | 0, 0 => Log.Level.info.rank
  | 0, 1 => Log.Level.error.rank
  | 0, _ => 0
  | _, _ => Log.Level.debug.rank

/-- The batch that a command line asks for. -/
def Options.batch (o : Options) : Batch :=
  let base : Batch := { directory := o.directory, toOutput := o.toOutput }
  { base with
    inputs := if o.paths.isEmpty then base.inputs else o.paths
    extension := o.extension.getD base.extension }

/-- What a run of the program shows. -/
structure Outcome where
  exitCode : UInt32
  printed : String := ""
  log : List String := []
deriving DecidableEq, Repr, Inhabited

/-- The text that tells the version. -/
def versionText : String := "pyjl 0.1.0\n"

/-- The text that is shown when a command line is refused. -/
def usageText : String := "Usage: pyjl [OPTIONS] [PATHS]...\n"

/-- The text that tells how the program is called. -/
def helpText : String :=
  "Julia code generator and batch translation driver\n" ++
  "\n" ++
  usageText ++
  "\n" ++
  "Arguments:\n" ++
  "  [PATHS]...  Source files or directories of `.py` files [default: test]\n" ++
  "\n" ++
  "Options:\n" ++
  "  -o, --out-dir <DIR>          Write translations here instead of beside the inputs\n" ++
  "  -e, --extension <EXTENSION>  Extension of the written files [default: jl]\n" ++
  "      --stdout                 Print translations instead of writing files\n" ++
  "  -v, --verbose...             More logging (-v debug, -vv trace)\n" ++
  "  -q, --quiet...               Less logging (-q errors only, -qq nothing)\n" ++
  "  -h, --help                   Print help\n" ++
  "  -V, --version                Print version\n"

/-- The entries behind those of the batch. -/
def closingEntries (r : Report) : List Log.Entry :=
  ⟨.info, "done", [("translated", toString r.compiled), ("failed", toString r.failed)]⟩ ::
    if r.isSuccess then []
    else [⟨.error, toString r.failed ++ " unit(s) failed to translate", []⟩]

/-- The outcome of a batch. -/
def outcome (o : Options) (r : Report) : Outcome where
  exitCode := if r.isSuccess then 0 else 1
  printed := r.printed
  log := Log.shown o.logRank (r.log ++ closingEntries r)

/-- Runs the program with the given arguments. -/
def run {m : Type → Type} [Monad m] [Files m] (arguments : List String) : m Outcome := do
  match read arguments with
  | .error .usage => return { exitCode := 2 }
  | .error .help => return { exitCode := 0, printed := helpText }
  | .error .version => return { exitCode := 0, printed := versionText }
  | .ok options => return outcome options (← options.batch.run)

end CommandLine

end Offside
