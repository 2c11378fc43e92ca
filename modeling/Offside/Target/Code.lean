import Offside.Real.Text
import Offside.Target.Literal
import Offside.Token.Operator

/-!
# Expressions of the emitted code

Emitted expressions are trees, and their text is written in one place.  The tree says which
parentheses are written: nothing is added when the text is made.
-/

namespace Offside.Target

/-- The operators between operands.  Comparisons, sums, products and powers work elementwise; the
last three do not. -/
inductive Operator
  | or
  | and
  | comparison (op : Comparison)
  | sum (op : SumOp)
  | product (op : TermOp)
  | power
  | plus
  | minus
  | times
deriving DecidableEq, Repr, Inhabited

/-- The spelling of an operator. -/
def Operator.spelling : Operator → String
  | or => "||"
  | and => "&&"
  | comparison op => "." ++ op.spelling
  | sum op => "." ++ op.spelling
  | product .floorDiv => ".÷"
  | product op => "." ++ op.spelling
  | power => ".^"
  | plus => "+"
  | minus => "-"
  | times => "*"

mutual

/-- An expression of the emitted code. -/
inductive Code
  | name (text : String)
  | boolean (value : Bool)
  | nothing
  | integer (value : Int)
  | float (value : Binary64)
  | str (parts : List CodePart)
  | symbol (name : String)
  /-- The last index, inside a subscript. -/
  | lastIndex
  /-- All indices, inside a subscript. -/
  | everything
  | group (inner : Code)
  | tuple (elements : List Code)
  | vector (elements : List Code)
  /-- The values of a sequence, as arguments of a call. -/
  | spread (sequence : Code)
  /-- Operands with operators between them. -/
  | chain (first : Code) (rest : List (Operator × Code))
  | not (operand : Code)
  | sign (op : SumOp) (operand : Code)
  /-- A closed range, with or without a step. -/
  | range (first : Code) (step : Option Code) (last : Code)
  | call (function : Code) (arguments : List Code)
  /-- A call of a function on each element. -/
  | broadcast (function : String) (arguments : List Code)
  /-- A call of a function of the statistics library. -/
  | statistic (function : String) (arguments : List Code)
  /-- A call of the method that a class defines itself. -/
  | staticCall (owner method : String) (arguments : List Code)
  /-- A call of the method that the class of the first argument has. -/
  | methodCall (method : String) (arguments : List Code)
  | member (base : Code) (name : String)
  | subscript (base : Code) (indices : List Code)

/-- A part of a string. -/
inductive CodePart
  | literal (text : String)
  | embedded (code : Code)

end

instance : Inhabited Code := ⟨.nothing⟩

/-- The value that stands for a name in the choice of a method. -/
def tagText (name : String) : String := "Val(:" ++ name ++ ")"

/-- Texts with commas between them. -/
def commas (texts : List String) : String := ", ".intercalate texts

mutual

/-- The text of an expression. -/
def Code.text : Code → String
  | .name text => text
  | .boolean value => if value then "true" else "false"
  | .nothing => "nothing"
  | .integer value => toString value
  | .float value => value.textWith "Inf"
  | .str parts => "\"" ++ CodePart.texts parts ++ "\""
  | .symbol name => ":" ++ name
  | .lastIndex => "end"
  | .everything => ":"
  | .group inner => "(" ++ inner.text ++ ")"
  | .tuple elements => "(" ++ commas (Code.texts elements) ++ ")"
  | .vector elements => "[" ++ commas (Code.texts elements) ++ "]"
  | .spread sequence => sequence.text ++ "..."
  | .chain first rest => first.text ++ Code.restText rest
  | .not operand => "!" ++ operand.text
  | .sign op operand => op.spelling ++ operand.text
  | .range first none last => first.text ++ ":" ++ last.text
  | .range first (some step) last => first.text ++ ":" ++ step.text ++ ":" ++ last.text
  | .call function arguments => function.text ++ "(" ++ commas (Code.texts arguments) ++ ")"
  | .broadcast function arguments => function ++ ".(" ++ commas (Code.texts arguments) ++ ")"
  | .statistic function arguments => function ++ "(" ++ commas (Code.texts arguments) ++ ")"
  | .staticCall owner method arguments =>
    "__static__(" ++ commas (tagText owner :: tagText method :: Code.texts arguments) ++ ")"
  | .methodCall method arguments =>
    "__method__(" ++ commas (tagText method :: Code.texts arguments) ++ ")"
  | .member base name => base.text ++ "." ++ name
  | .subscript base indices => base.text ++ "[" ++ commas (Code.texts indices) ++ "]"

/-- The texts of some expressions. -/
def Code.texts : List Code → List String
  | [] => []
  | code :: rest => code.text :: Code.texts rest

/-- The text of the further operands of a chain. -/
def Code.restText : List (Operator × Code) → String
  | [] => ""
  | (op, code) :: rest => " " ++ op.spelling ++ " " ++ code.text ++ Code.restText rest

/-- The text of the parts of a string. -/
def CodePart.texts : List CodePart → String
  | [] => ""
  | .literal text :: rest => escapeText text ++ CodePart.texts rest
  | .embedded code :: rest => "$(" ++ code.text ++ ")" ++ CodePart.texts rest

end

/-- Whether the text of an expression starts with a sign. -/
def Code.startsSigned : Code → Bool
  | .integer value => value < 0
  | .sign _ _ => true
  | .spread sequence => sequence.startsSigned
  | .chain first _ => first.startsSigned
  | .range first _ _ => first.startsSigned
  | .call function _ => function.startsSigned
  | .member base _ => base.startsSigned
  | .subscript base _ => base.startsSigned
  | _ => false

mutual

/-- The expressions inside an expression, itself included. -/
def Code.parts : Code → List Code
  | .str parts => .str parts :: CodePart.parts parts
  | .group inner => .group inner :: inner.parts
  | .tuple elements => .tuple elements :: Code.allParts elements
  | .vector elements => .vector elements :: Code.allParts elements
  | .spread sequence => .spread sequence :: sequence.parts
  | .chain first rest => .chain first rest :: (first.parts ++ Code.restParts rest)
  | .not operand => .not operand :: operand.parts
  | .sign op operand => .sign op operand :: operand.parts
  | .range first none last => .range first none last :: (first.parts ++ last.parts)
  | .range first (some step) last =>
    .range first (some step) last :: (first.parts ++ step.parts ++ last.parts)
  | .call function arguments =>
    .call function arguments :: (function.parts ++ Code.allParts arguments)
  | .broadcast function arguments => .broadcast function arguments :: Code.allParts arguments
  | .statistic function arguments => .statistic function arguments :: Code.allParts arguments
  | .staticCall owner method arguments =>
    .staticCall owner method arguments :: Code.allParts arguments
  | .methodCall method arguments => .methodCall method arguments :: Code.allParts arguments
  | .member base name => .member base name :: base.parts
  | .subscript base indices => .subscript base indices :: (base.parts ++ Code.allParts indices)
  | code => [code]

/-- The expressions inside some expressions. -/
def Code.allParts : List Code → List Code
  | [] => []
  | code :: rest => code.parts ++ Code.allParts rest

/-- The expressions inside the further operands of a chain. -/
def Code.restParts : List (Operator × Code) → List Code
  | [] => []
  | (_, code) :: rest => code.parts ++ Code.restParts rest

/-- The expressions inside the parts of a string. -/
def CodePart.parts : List CodePart → List Code
  | [] => []
  | .literal _ :: rest => CodePart.parts rest
  | .embedded code :: rest => code.parts ++ CodePart.parts rest

end

/-- Whether an expression is a call of a function of the statistics library. -/
def Code.isStatistic : Code → Bool
  | .statistic _ _ => true
  | _ => false

end Offside.Target
