import Offside.Token.Basic

/-!
# Vocabulary

Words with a kind of their own, and the table of symbols.
-/

namespace Offside

/-- The qualifier of the functions of the numerical library. -/
def libraryName : String := "np"

/-- The functions of the language itself. -/
def builtinFunctions : List String := ["print", "len", "range", "str", "int", "float"]

/-- The functions of the numerical library that are known without the qualifier. -/
def numericFunctions : List String := [
  "min", "max", "sum", "subtract", "multiply", "divide", "minimum", "maximum", "round", "mean",
  "median", "std", "log", "exp", "sqrt", "sin", "cos", "abs", "dot", "zeros", "ones", "shape",
  "transpose", "array", "equal", "less", "greater", "less_equal", "greater_equal"]

/-- The functions whose names have a kind of their own. -/
def knownFunctions : List String := builtinFunctions ++ numericFunctions

/-- The kind of a word that starts no formatted string. -/
def Kind.ofWord (word : String) : Kind :=
  match Keyword.ofWord? word with
  | some k => .keyword k
  | none =>
    if word = libraryName then .library
    else if word ∈ knownFunctions then .function word
    else .identifier word

/-- The symbols, longer ones before their beginnings. -/
def symbols : List (String × Kind) := [
  ("**=", .delimiter (.augmented .pow)),
  ("//=", .delimiter (.augmented .floorDiv)),
  (">>=", .delimiter (.augmented .shiftRight)),
  ("<<=", .delimiter (.augmented .shiftLeft)),
  ("+=", .delimiter (.augmented .add)),
  ("-=", .delimiter (.augmented .sub)),
  ("*=", .delimiter (.augmented .mul)),
  ("/=", .delimiter (.augmented .div)),
  ("%=", .delimiter (.augmented .mod)),
  ("@=", .delimiter (.augmented .matMul)),
  ("&=", .delimiter (.augmented .bitAnd)),
  ("|=", .delimiter (.augmented .bitOr)),
  ("^=", .delimiter (.augmented .bitXor)),
  ("->", .delimiter .arrow),
  ("**", .power),
  ("//", .termOp .floorDiv),
  ("==", .comparison .equal),
  ("!=", .comparison .notEqual),
  ("<=", .comparison .lessEqual),
  (">=", .comparison .greaterEqual),
  ("<<", .operator "<<"),
  (">>", .operator ">>"),
  (":=", .operator ":="),
  ("+", .sumOp .add),
  ("-", .sumOp .sub),
  ("*", .termOp .mul),
  ("/", .termOp .div),
  ("%", .termOp .mod),
  ("<", .comparison .less),
  (">", .comparison .greater),
  ("=", .delimiter .assign),
  ("(", .delimiter .parenOpen),
  (")", .delimiter .parenClose),
  ("[", .delimiter .bracketOpen),
  ("]", .delimiter .bracketClose),
  ("\x7b", .delimiter .braceOpen),
  ("\x7d", .delimiter .braceClose),
  (",", .delimiter .comma),
  (":", .delimiter .colon),
  (".", .delimiter .dot),
  (";", .delimiter .semicolon),
  ("@", .operator "@"),
  ("&", .operator "&"),
  ("|", .operator "|"),
  ("^", .operator "^"),
  ("~", .operator "~")]

/-- The longest symbol a text starts with. -/
def symbol? (text : List Char) : Option (String × Kind) :=
  symbols.find? fun symbol => symbol.1.toList.isPrefixOf text

end Offside
