import Offside.Token.Basic

/-!
# Expressions

The tree of an expression.  From the loosest to the tightest binding, its levels are `or`, `and`,
`not`, comparisons, sums, products, signs and powers.  The operands of one level in a row form one
node; a level with a single operand and no operator has no node of its own.
-/

namespace Offside

mutual

/-- The operators of an expression and their operands. -/
inductive Expr
  | or (first : Expr) (rest : List Expr)
  | and (first : Expr) (rest : List Expr)
  | not (operand : Expr)
  | compare (first : Expr) (rest : List (Comparison × Expr))
  | sum (first : Expr) (rest : List (SumOp × Expr))
  | product (first : Expr) (rest : List (TermOp × Expr))
  | sign (op : SumOp) (operand : Expr)
  | power (base : Primary) (exponent : Expr)
  | primary (operand : Primary)

/-- An expression and the part of the source it stands for. -/
structure Expression where
  tree : Expr
  span : Span

/-- An atom and what is accessed through it. -/
structure Primary where
  atom : Atom
  trailers : List Trailer
  span : Span

/-- The operands that hold no operator outside brackets. -/
inductive Atom
  | name (name : String)
  | boolean (value : Bool)
  | none
  | integer (value : Nat)
  | float (value : Binary64)
  | str (text : String)
  | formatted (parts : List FormattedPart)
  | group (inner : Expression)
  | list (elements : List Expression)
  /-- A call of a function of the numerical library, with its qualifier. -/
  | library (call : FunctionCall)
  /-- A call of a function known to the language. -/
  | builtin (call : FunctionCall)
  | super (call : SuperCall)

/-- A part of a formatted string. -/
inductive FormattedPart
  | literal (text : String)
  | embedded (expression : Expression)

/-- An access: a member, a call or a subscript. -/
inductive Trailer
  | member (name : String) (span : Span)
  | call (arguments : Arguments)
  | subscript (slices : List Slice)

/-- A part of a subscript. -/
inductive Slice
  | index (index : Expression)
  | range (lower upper step : Option Expression)

/-- The arguments of a call, with their parentheses. -/
structure Arguments where
  values : List Expression
  span : Span

/-- A call of a function by its name. -/
structure FunctionCall where
  name : String
  arguments : Arguments
  span : Span

/-- A call of a method of a superclass, which is named or is the direct one. -/
structure SuperCall where
  superclass : Option String
  method : String
  arguments : Arguments
  span : Span

end

instance : Inhabited Atom := ⟨.none⟩

instance : Inhabited Primary := ⟨⟨default, [], {}⟩⟩

instance : Inhabited Expr := ⟨.primary default⟩

instance : Inhabited Expression := ⟨⟨default, {}⟩⟩

instance : Inhabited Arguments := ⟨⟨[], {}⟩⟩

/-- A string, formatted or not, that nothing is accessed through. -/
def Primary.isStringLiteral (p : Primary) : Bool :=
  p.trailers.isEmpty &&
    match p.atom with
    | .str _ | .formatted _ => true
    | _ => false

/-- The value of an integer literal that nothing is accessed through. -/
def Primary.integer? (p : Primary) : Option Int :=
  match p.atom, p.trailers with
  | .integer value, [] => some value
  | _, _ => none

namespace Expr

/-- Joins the operands of an `or`. -/
def ofOr (first : Expr) (rest : List Expr) : Expr :=
  if rest.isEmpty then first else .or first rest

/-- Joins the operands of an `and`. -/
def ofAnd (first : Expr) (rest : List Expr) : Expr :=
  if rest.isEmpty then first else .and first rest

/-- Joins the operands of a chain of comparisons. -/
def ofCompare (first : Expr) (rest : List (Comparison × Expr)) : Expr :=
  if rest.isEmpty then first else .compare first rest

/-- Joins the operands of a sum. -/
def ofSum (first : Expr) (rest : List (SumOp × Expr)) : Expr :=
  if rest.isEmpty then first else .sum first rest

/-- Joins the operands of a product. -/
def ofProduct (first : Expr) (rest : List (TermOp × Expr)) : Expr :=
  if rest.isEmpty then first else .product first rest

/-- Whether the outermost operator, if any, binds at least as tightly as a sum. -/
def isSum : Expr → Bool
  | or .. | and .. | not _ | compare .. => false
  | _ => true

/-- Whether the outermost operator, if any, binds at least as tightly as a product. -/
def isTerm : Expr → Bool
  | or .. | and .. | not _ | compare .. | sum .. => false
  | _ => true

/-- The primary of an expression without operators. -/
def primary? : Expr → Option Primary
  | primary p => some p
  | _ => none

/-- Whether the expression is a string literal. -/
def isStringLiteral (e : Expr) : Bool :=
  e.primary?.any Primary.isStringLiteral

/-- The value of an integer literal with any number of signs. -/
def integer? : Expr → Option Int
  | sign .sub operand => operand.integer?.map (- ·)
  | sign .add operand => operand.integer?
  | primary p => p.integer?
  | _ => Option.none

end Expr

end Offside
