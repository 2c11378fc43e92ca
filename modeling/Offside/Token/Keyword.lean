/-!
# Keywords

The reserved words of the source language, and the part each of them plays in the grammar.
-/

namespace Offside

/-- A reserved word. -/
inductive Keyword
  | trueKw | falseKw | noneKw
  | andKw | orKw | notKw
  | ifKw | elifKw | elseKw
  | forKw | whileKw | inKw | isKw
  | defKw | classKw | returnKw
  | passKw | breakKw | continueKw
  | importKw | fromKw | asKw | assertKw | delKw | globalKw | nonlocalKw | lambdaKw
  | tryKw | exceptKw | finallyKw | raiseKw | withKw | yieldKw | asyncKw | awaitKw
deriving DecidableEq, Repr, Inhabited

/-- The part a keyword plays in the grammar. -/
inductive KeywordRole
  /-- A statement by itself. -/
  | simple
  /-- The first word of a statement with a block. -/
  | compound
  /-- A literal. -/
  | atom
  /-- Any other part, or none. -/
  | other
deriving DecidableEq, Repr, Inhabited

namespace Keyword

/-- All keywords. -/
def all : List Keyword := [
  trueKw, falseKw, noneKw, andKw, orKw, notKw, ifKw, elifKw, elseKw, forKw, whileKw, inKw, isKw,
  defKw, classKw, returnKw, passKw, breakKw, continueKw, importKw, fromKw, asKw, assertKw, delKw,
  globalKw, nonlocalKw, lambdaKw, tryKw, exceptKw, finallyKw, raiseKw, withKw, yieldKw, asyncKw,
  awaitKw]

/-- The word itself. -/
def spelling : Keyword → String
  | trueKw => "True" | falseKw => "False" | noneKw => "None"
  | andKw => "and" | orKw => "or" | notKw => "not"
  | ifKw => "if" | elifKw => "elif" | elseKw => "else"
  | forKw => "for" | whileKw => "while" | inKw => "in" | isKw => "is"
  | defKw => "def" | classKw => "class" | returnKw => "return"
  | passKw => "pass" | breakKw => "break" | continueKw => "continue"
  | importKw => "import" | fromKw => "from" | asKw => "as" | assertKw => "assert"
  | delKw => "del" | globalKw => "global" | nonlocalKw => "nonlocal" | lambdaKw => "lambda"
  | tryKw => "try" | exceptKw => "except" | finallyKw => "finally" | raiseKw => "raise"
  | withKw => "with" | yieldKw => "yield" | asyncKw => "async" | awaitKw => "await"

/-- The part the keyword plays in the grammar. -/
def role : Keyword → KeywordRole
  | passKw | breakKw | continueKw => .simple
  | defKw | classKw | ifKw | forKw | whileKw => .compound
  | trueKw | falseKw | noneKw => .atom
  | _ => .other

/-- The keyword spelled by a word. -/
def ofWord? (word : String) : Option Keyword :=
  all.find? (·.spelling == word)

theorem mem_all (k : Keyword) : k ∈ all := by
  cases k <;> decide

theorem spelling_of_ofWord? {word : String} {k : Keyword} (h : ofWord? word = some k) :
    k.spelling = word := by
  simpa using List.find?_some h

/-- Every keyword is read from its own spelling, so no two are spelled alike. -/
theorem ofWord?_spelling (k : Keyword) : ofWord? k.spelling = some k := by
  cases k <;> decide

end Keyword

end Offside
