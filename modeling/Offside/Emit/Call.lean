import Offside.Target.Code

/-!
# Known functions

How a call of a function that is known to the language is emitted.
-/

namespace Offside.Emit

open Target

/-- The form that a call takes in the emitted code. -/
inductive CallForm
  /-- The arguments are printed with blanks between them. -/
  | printLine
  /-- The first dimension of the only argument. -/
  | firstDimension
  /-- A closed range. -/
  | range
  /-- The only argument without its fraction. -/
  | truncate
  /-- A call of another function. -/
  | rename (function : String)
  /-- A call of a function on each element. -/
  | elementwise (function : String)
  /-- A call of a function of the statistics library. -/
  | statistics (function : String)
  /-- The arguments with an operator between them. -/
  | operatorChain (op : Operator)
  /-- The only argument itself. -/
  | identity
  /-- A call of the function of the same name. -/
  | passThrough
deriving DecidableEq, Repr, Inhabited

/-- The functions with a form of their own. -/
def callForms : List (String × CallForm) := [
  ("print", .printLine),
  ("len", .firstDimension),
  ("range", .range),
  ("int", .truncate),
  ("str", .rename "string"),
  ("float", .rename "Float64"),
  ("shape", .rename "size"),
  ("minimum", .elementwise "min"),
  ("maximum", .elementwise "max"),
  ("round", .elementwise "round"),
  ("log", .elementwise "log"),
  ("exp", .elementwise "exp"),
  ("sqrt", .elementwise "sqrt"),
  ("sin", .elementwise "sin"),
  ("cos", .elementwise "cos"),
  ("abs", .elementwise "abs"),
  ("mean", .statistics "mean"),
  ("median", .statistics "median"),
  ("std", .statistics "std"),
  ("equal", .operatorChain (.comparison .equal)),
  ("less", .operatorChain (.comparison .less)),
  ("greater", .operatorChain (.comparison .greater)),
  ("less_equal", .operatorChain (.comparison .lessEqual)),
  ("greater_equal", .operatorChain (.comparison .greaterEqual)),
  ("multiply", .operatorChain (.product .mul)),
  ("subtract", .operatorChain (.sum .sub)),
  ("divide", .operatorChain (.product .div)),
  ("add", .operatorChain (.sum .add)),
  ("dot", .operatorChain .times),
  ("array", .identity)]

/-- The form of the calls of a function. -/
def callForm (name : String) : CallForm := (callForms.lookup name).getD .passThrough

/-- The methods of lists, and the functions that they become. -/
def listMethods : List (String × String) := [
  ("append", "push!"),
  ("extend", "append!"),
  ("pop", "pop!"),
  ("copy", "copy")]

/-- The function that a method of lists becomes. -/
def listMethod? (name : String) : Option String := listMethods.lookup name

end Offside.Emit
