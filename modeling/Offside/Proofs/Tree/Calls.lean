import Offside.Class.Body

/-!
# Calls by name

The calls of functions by their names that stand in an expression, in the order of the source.  A
name that is called is a call, and so is a known function with its arguments; a function of the
numerical library is called through its qualifier, and not by its name alone.
-/

namespace Offside

/-- A call of a function by its name. -/
inductive NamedCall
  /-- The call of a name. -/
  | plain (call : FunctionCall)
  /-- The call of a function known to the language. -/
  | known (call : FunctionCall)

/-- The name and the arguments of a call. -/
def NamedCall.call : NamedCall → FunctionCall
  | plain call => call
  | known call => call

/-- The call that an atom and the first access through it make. -/
def headCalls (span : Span) : Atom → List Trailer → List NamedCall
  | .name name, .call arguments :: _ => [.plain ⟨name, arguments, span⟩]
  | _, _ => []

mutual

/-- The calls in an expression. -/
def Expression.calls : Expression → List NamedCall
  | ⟨tree, _⟩ => tree.calls

/-- The calls in some expressions. -/
def Expression.allCalls : List Expression → List NamedCall
  | [] => []
  | first :: rest => first.calls ++ Expression.allCalls rest

/-- The calls in operators and their operands. -/
def Expr.calls : Expr → List NamedCall
  | .or first rest => first.calls ++ Expr.allCalls rest
  | .and first rest => first.calls ++ Expr.allCalls rest
  | .not operand => operand.calls
  | .compare first rest => first.calls ++ Expr.comparisonCalls rest
  | .sum first rest => first.calls ++ Expr.sumCalls rest
  | .product first rest => first.calls ++ Expr.productCalls rest
  | .sign _ operand => operand.calls
  | .power base exponent => base.calls ++ exponent.calls
  | .primary operand => operand.calls

/-- The calls in operands behind one operator. -/
def Expr.allCalls : List Expr → List NamedCall
  | [] => []
  | first :: rest => first.calls ++ Expr.allCalls rest

/-- The calls in operands behind comparisons. -/
def Expr.comparisonCalls : List (Comparison × Expr) → List NamedCall
  | [] => []
  | (_, first) :: rest => first.calls ++ Expr.comparisonCalls rest

/-- The calls in operands behind sum operators. -/
def Expr.sumCalls : List (SumOp × Expr) → List NamedCall
  | [] => []
  | (_, first) :: rest => first.calls ++ Expr.sumCalls rest

/-- The calls in operands behind product operators. -/
def Expr.productCalls : List (TermOp × Expr) → List NamedCall
  | [] => []
  | (_, first) :: rest => first.calls ++ Expr.productCalls rest

/-- The calls in an atom and in what is accessed through it. -/
def Primary.calls : Primary → List NamedCall
  | ⟨atom, trailers, span⟩ =>
    headCalls span atom trailers ++ atom.calls ++ Trailer.allCalls trailers

/-- The calls in an atom. -/
def Atom.calls : Atom → List NamedCall
  | .name _ | .boolean _ | .none | .integer _ | .float _ | .str _ => []
  | .formatted parts => FormattedPart.allCalls parts
  | .group inner => inner.calls
  | .list elements => Expression.allCalls elements
  | .library ⟨_, ⟨values, _⟩, _⟩ => Expression.allCalls values
  | .builtin ⟨name, ⟨values, argumentsSpan⟩, span⟩ =>
    .known ⟨name, ⟨values, argumentsSpan⟩, span⟩ :: Expression.allCalls values
  | .super ⟨_, _, ⟨values, _⟩, _⟩ => Expression.allCalls values

/-- The calls in the parts of a formatted string. -/
def FormattedPart.allCalls : List FormattedPart → List NamedCall
  | [] => []
  | .literal _ :: rest => FormattedPart.allCalls rest
  | .embedded inner :: rest => inner.calls ++ FormattedPart.allCalls rest

/-- The calls in accesses. -/
def Trailer.allCalls : List Trailer → List NamedCall
  | [] => []
  | .member _ _ :: rest => Trailer.allCalls rest
  | .call ⟨values, _⟩ :: rest => Expression.allCalls values ++ Trailer.allCalls rest
  | .subscript slices :: rest => Slice.allCalls slices ++ Trailer.allCalls rest

/-- The calls in the parts of a subscript. -/
def Slice.allCalls : List Slice → List NamedCall
  | [] => []
  | .index index :: rest => index.calls ++ Slice.allCalls rest
  | .range lower upper step :: rest =>
    Expression.optionalCalls lower ++ Expression.optionalCalls upper ++
      Expression.optionalCalls step ++
      Slice.allCalls rest

/-- The calls in an expression that may be left out. -/
def Expression.optionalCalls : Option Expression → List NamedCall
  | none => []
  | some e => e.calls

end

/-- The calls in a target of an assignment. -/
def Declaration.calls (d : Declaration) : List NamedCall :=
  Primary.calls ⟨.name d.name, d.accesses, d.span⟩

/-- The calls in an assignment. -/
def Assignment.calls (a : Assignment) : List NamedCall :=
  a.targets.flatMap Declaration.calls ++ Expression.allCalls a.value

/-- The calls in a call of a method of a superclass. -/
def SuperCall.calls (call : SuperCall) : List NamedCall := Expression.allCalls call.arguments.values

/-- The calls in the default values of some parameters. -/
def Parameter.allCalls (parameters : List Parameter) : List NamedCall :=
  parameters.flatMap fun p => Expression.optionalCalls p.default

end Offside
