import Offside.Target.Code
import Offside.Target.TypeName

/-!
# Statements of the emitted code

The emitted program is a list of items.  Its text is made of lines, each with the depth of the
blocks around it.
-/

namespace Offside.Target

/-- A parameter of an emitted function. -/
inductive Formal
  /-- A parameter that only the tag of the given name fits. -/
  | tag (name : String)
  | plain (name : String) (type : Option TypeName) (default : Option Code)
  /-- All further arguments. -/
  | remaining (name : String)

/-- The text of a type behind what has the type. -/
def typeText : Option TypeName → String
  | none => ""
  | some type => "::" ++ type.text

/-- The text of a parameter. -/
def Formal.text : Formal → String
  | tag name => "::Val\x7b:" ++ name ++ "\x7d"
  | plain name type none => name ++ typeText type
  | plain name type (some default) => name ++ typeText type ++ " = " ++ default.text
  | remaining name => name ++ "..."

/-- The default value of a parameter. -/
def Formal.default? : Formal → Option Code
  | plain _ _ default => default
  | _ => none

/-- The name, the parameters and the type of the result of an emitted function. -/
structure Signature where
  name : String
  formals : List Formal
  returns : Option TypeName := none

/-- The text of a signature. -/
def Signature.text (s : Signature) : String :=
  s.name ++ "(" ++ commas (s.formals.map Formal.text) ++ ")" ++ typeText s.returns

mutual

/-- A statement of the emitted code. -/
inductive Item
  | blank
  /-- The import of a library. -/
  | library (name : String)
  | expressions (values : List Code)
  | returns (values : List Code)
  | breaks
  | continues
  /-- The declaration that some names are global. -/
  | globals (names : List String)
  /-- An assignment, which may declare its target global. -/
  | assign (isGlobal : Bool) (targets : List Code) (type : Option TypeName) (values : List Code)
  | conditional (condition : Code) (body : List Item) (alternative : Alternative)
  | forLoop (target : String) (iterable : Code) (body : List Item)
  | whileLoop (condition : Code) (body : List Item)
  | function (signature : Signature) (body : List Item)
  /-- A function that is given by one expression. -/
  | equation (signature : Signature) (value : Code)
  | abstractType (type : TypeName) (supertype : Option TypeName)
  /-- A mutable record with a table of further attributes, and its constructor. -/
  | record (name : String) (supertype : TypeName) (fields : List (String × TypeName))

/-- What is done when a condition does not hold. -/
inductive Alternative
  | nothing
  | branch (condition : Code) (body : List Item) (alternative : Alternative)
  | block (body : List Item)

end

instance : Inhabited Item := ⟨.blank⟩

/-- A line of the emitted text. -/
inductive Line
  | blank
  | code (depth : Nat) (text : String)
deriving DecidableEq, Repr, Inhabited

/-- The text of a line, with its end. -/
def Line.text : Line → String
  | blank => "\n"
  | code depth text => String.ofList (List.replicate (4 * depth) ' ') ++ text ++ "\n"

/-- The type of the table of further attributes. -/
def tableType : String := "Dict\x7bSymbol, Any\x7d"

mutual

/-- The lines of a statement inside `depth` blocks. -/
def Item.lines (depth : Nat) : Item → List Line
  | .blank => [.blank]
  | .library name => [.code depth ("using " ++ name)]
  | .expressions values => [.code depth (commas (Code.texts values))]
  | .returns [] => [.code depth "return"]
  | .returns (first :: rest) => [.code depth ("return " ++ commas (Code.texts (first :: rest)))]
  | .breaks => [.code depth "break"]
  | .continues => [.code depth "continue"]
  | .globals names => [.code depth ("global " ++ commas names)]
  | .assign isGlobal targets type values =>
    [.code depth ((if isGlobal then "global " else "") ++ commas (Code.texts targets) ++
      typeText type ++ " = " ++ commas (Code.texts values))]
  | .conditional condition body alternative =>
    .code depth ("if " ++ condition.text) ::
      (Item.allLines (depth + 1) body ++ alternative.lines depth ++ [.code depth "end"])
  | .forLoop target iterable body =>
    .code depth ("for " ++ target ++ " in " ++ iterable.text) ::
      (Item.allLines (depth + 1) body ++ [.code depth "end"])
  | .whileLoop condition body =>
    .code depth ("while " ++ condition.text) ::
      (Item.allLines (depth + 1) body ++ [.code depth "end"])
  | .function signature body =>
    .code depth ("function " ++ signature.text) ::
      (Item.allLines (depth + 1) body ++ [.code depth "end"])
  | .equation signature value => [.code depth (signature.text ++ " = " ++ value.text)]
  | .abstractType type none => [.code depth ("abstract type " ++ type.text ++ " end")]
  | .abstractType type (some supertype) =>
    [.code depth ("abstract type " ++ type.text ++ " <: " ++ supertype.text ++ " end")]
  | .record name supertype fields =>
    .code depth ("mutable struct " ++ name ++ " <: " ++ supertype.text) ::
      .code (depth + 1) ("__dict__::" ++ tableType) ::
      (fields.map fun field => .code (depth + 1) (field.1 ++ "::" ++ field.2.text)) ++
      [.code (depth + 1) (name ++ "() = new(" ++ tableType ++ "())"), .code depth "end"]

/-- The lines of an alternative inside `depth` blocks. -/
def Alternative.lines (depth : Nat) : Alternative → List Line
  | .nothing => []
  | .branch condition body alternative =>
    .code depth ("elseif " ++ condition.text) ::
      (Item.allLines (depth + 1) body ++ alternative.lines depth)
  | .block body => .code depth "else" :: Item.allLines (depth + 1) body

/-- The lines of some statements inside `depth` blocks. -/
def Item.allLines (depth : Nat) : List Item → List Line
  | [] => []
  | item :: rest => item.lines depth ++ Item.allLines depth rest

end

/-- The text of a program. -/
def Item.programText (items : List Item) : String :=
  String.join ((Item.allLines 0 items).map Line.text)

mutual

/-- The expressions of a statement, with all expressions inside them. -/
def Item.parts : Item → List Code
  | .blank | .library _ | .breaks | .continues | .globals _ | .abstractType _ _ | .record _ _ _ =>
    []
  | .expressions values => Code.allParts values
  | .returns values => Code.allParts values
  | .assign _ targets _ values => Code.allParts targets ++ Code.allParts values
  | .conditional condition body alternative =>
    condition.parts ++ Item.allParts body ++ alternative.parts
  | .forLoop _ iterable body => iterable.parts ++ Item.allParts body
  | .whileLoop condition body => condition.parts ++ Item.allParts body
  | .function signature body =>
    Code.allParts (signature.formals.filterMap Formal.default?) ++ Item.allParts body
  | .equation signature value =>
    Code.allParts (signature.formals.filterMap Formal.default?) ++ value.parts

/-- The expressions of an alternative, with all expressions inside them. -/
def Alternative.parts : Alternative → List Code
  | .nothing => []
  | .branch condition body alternative =>
    condition.parts ++ Item.allParts body ++ alternative.parts
  | .block body => Item.allParts body

/-- The expressions of some statements, with all expressions inside them. -/
def Item.allParts : List Item → List Code
  | [] => []
  | item :: rest => item.parts ++ Item.allParts rest

end

end Offside.Target
