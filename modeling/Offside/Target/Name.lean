/-!
# Names in the emitted code

A name that Julia reserves gets an underscore behind it.  A private name, which has two underscores
before it and not behind it, is prefixed by the class it belongs to.
-/

namespace Offside.Target

/-- The words that Julia reserves and that are plain names in the source. -/
def reservedWords : List String := [
  "baremodule", "begin", "catch", "const", "do", "elseif", "end", "export", "function",
  "let", "local", "macro", "module", "mutable", "abstract", "primitive", "quote", "struct",
  "using"]

/-- The spelling of a name in the emitted code. -/
def escape (name : String) : String :=
  if name ∈ reservedWords then name ++ "_" else name

/-- Whether a name has two underscores before it and not behind it. -/
def isPrivate (name : String) : Bool :=
  ['_', '_'].isPrefixOf name.toList && !(['_', '_'].isSuffixOf name.toList)

/-- The name of a class without the underscores before it. -/
def bareOwner (owner : String) : String :=
  String.ofList (owner.toList.dropWhile (· == '_'))

/-- A name as a member of the given class: a private one is prefixed by an underscore and the class.
-/
def mangle (name : String) (owner : Option String) : String :=
  match owner with
  | none => name
  | some owner =>
    if isPrivate name && bareOwner owner != "" then "_" ++ bareOwner owner ++ name else name

/-- The spelling of a name as a member of the given class. -/
def memberName (name : String) (owner : Option String) : String := escape (mangle name owner)

/-- The name of the abstract type that marks the instances of a class and of its subclasses. -/
def markerName (name : String) : String := "Abstract" ++ name

end Offside.Target
