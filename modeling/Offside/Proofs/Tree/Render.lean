import Offside.Proofs.Traversal
import Offside.Token.Vocabulary
import Offside.Tree.Statement

/-!
# The tokens of a tree

The canonical tokens of a tree, given by their kinds.  A word has the kind it is read as, so the
name of a known function becomes a token of its own kind and every other name an identifier.  A
block is the end of a line, an opening, its statements and a closing; a statement without a block
ends with its line; and a program ends with the end of the input.  The spans of the tokens are left
empty.
-/

namespace Offside

/-- Lists of kinds with commas between them. -/
def withCommas : List (List Kind) → List Kind
  | [] => []
  | [last] => last
  | first :: rest => first ++ .delimiter .comma :: withCommas rest

/-- Tokens of the given kinds, and the end of the input behind them. -/
def Token.complete (kinds : List Kind) : List Token :=
  (kinds ++ [Kind.endOfInput]).map fun kind => ⟨kind, {}⟩

/-! ## Expressions -/

mutual

/-- The tokens of operators and operands. -/
def Expr.kinds : Expr → List Kind
  | .or first rest => first.kinds ++ Expr.joinedKinds (.keyword .orKw) rest
  | .and first rest => first.kinds ++ Expr.joinedKinds (.keyword .andKw) rest
  | .not operand => .keyword .notKw :: operand.kinds
  | .compare first rest => first.kinds ++ Expr.comparedKinds rest
  | .sum first rest => first.kinds ++ Expr.addedKinds rest
  | .product first rest => first.kinds ++ Expr.multipliedKinds rest
  | .sign op operand => .sumOp op :: operand.kinds
  | .power base exponent => base.kinds ++ .power :: exponent.kinds
  | .primary operand => operand.kinds

/-- The tokens of operands behind one keyword. -/
def Expr.joinedKinds (word : Kind) : List Expr → List Kind
  | [] => []
  | e :: rest => word :: (e.kinds ++ Expr.joinedKinds word rest)

/-- The tokens of operands behind comparisons. -/
def Expr.comparedKinds : List (Comparison × Expr) → List Kind
  | [] => []
  | (op, e) :: rest => .comparison op :: (e.kinds ++ Expr.comparedKinds rest)

/-- The tokens of operands behind sum operators. -/
def Expr.addedKinds : List (SumOp × Expr) → List Kind
  | [] => []
  | (op, e) :: rest => .sumOp op :: (e.kinds ++ Expr.addedKinds rest)

/-- The tokens of operands behind product operators. -/
def Expr.multipliedKinds : List (TermOp × Expr) → List Kind
  | [] => []
  | (op, e) :: rest => .termOp op :: (e.kinds ++ Expr.multipliedKinds rest)

/-- The tokens of an expression. -/
def Expression.kinds : Expression → List Kind
  | ⟨tree, _⟩ => tree.kinds

/-- The tokens of each of some expressions. -/
def Expression.allKinds : List Expression → List (List Kind)
  | [] => []
  | e :: rest => e.kinds :: Expression.allKinds rest

/-- The tokens of an expression that may be left out. -/
def Expression.kinds? : Option Expression → List Kind
  | none => []
  | some e => e.kinds

/-- The tokens of an atom and of what is accessed through it. -/
def Primary.kinds : Primary → List Kind
  | ⟨atom, trailers, _⟩ => atom.kinds ++ Trailer.allKinds trailers

/-- The tokens of an atom. -/
def Atom.kinds : Atom → List Kind
  | .name name => [.ofWord name]
  | .boolean value => [.keyword (if value then .trueKw else .falseKw)]
  | .none => [.keyword .noneKw]
  | .integer value => [.integer value]
  | .float value => [.float value]
  | .str text => [.str text]
  | .formatted parts => [.formatted (FormattedPart.fragments parts)]
  | .group inner => .delimiter .parenOpen :: (inner.kinds ++ [.delimiter .parenClose])
  | .list elements =>
    .delimiter .bracketOpen :: (withCommas (Expression.allKinds elements) ++
      [.delimiter .bracketClose])
  | .library call => .library :: .delimiter .dot :: call.kinds
  | .builtin call => call.kinds
  | .super call => call.kinds

/-- The fragments of a formatted string. -/
def FormattedPart.fragments : List FormattedPart → List Fragment
  | [] => []
  | .literal text :: rest => .literal text :: FormattedPart.fragments rest
  | .embedded e :: rest =>
    .embedded (Token.complete e.kinds) :: FormattedPart.fragments rest

/-- The tokens of an access. -/
def Trailer.kinds : Trailer → List Kind
  | .member name _ => [.delimiter .dot, .ofWord name]
  | .call arguments => arguments.kinds
  | .subscript slices =>
    .delimiter .bracketOpen :: (withCommas (Slice.allKinds slices) ++ [.delimiter .bracketClose])

/-- The tokens of some accesses. -/
def Trailer.allKinds : List Trailer → List Kind
  | [] => []
  | trailer :: rest => trailer.kinds ++ Trailer.allKinds rest

/-- The tokens of a part of a subscript. -/
def Slice.kinds : Slice → List Kind
  | .index index => index.kinds
  | .range lower upper none =>
    Expression.kinds? lower ++ .delimiter .colon :: Expression.kinds? upper
  | .range lower upper (some step) => Expression.kinds? lower ++ .delimiter .colon ::
      (Expression.kinds? upper ++ .delimiter .colon :: step.kinds)

/-- The tokens of each of some parts of a subscript. -/
def Slice.allKinds : List Slice → List (List Kind)
  | [] => []
  | slice :: rest => slice.kinds :: Slice.allKinds rest

/-- The tokens of the arguments of a call. -/
def Arguments.kinds : Arguments → List Kind
  | ⟨values, _⟩ =>
    .delimiter .parenOpen :: (withCommas (Expression.allKinds values) ++ [.delimiter .parenClose])

/-- The tokens of a call of a function. -/
def FunctionCall.kinds : FunctionCall → List Kind
  | ⟨name, arguments, _⟩ => .ofWord name :: arguments.kinds

/-- The tokens of a call of a method of a superclass. -/
def SuperCall.kinds : SuperCall → List Kind
  | ⟨superclass, method, arguments, _⟩ =>
    .identifier "super" :: .delimiter .parenOpen ::
      ((superclass.map Kind.ofWord).toList ++ .delimiter .parenClose :: .delimiter .dot ::
        .ofWord method :: arguments.kinds)

end

theorem Expression.allKinds_eq_map (es : List Expression) :
    Expression.allKinds es = es.map Expression.kinds :=
  eq_map_of_cons rfl (fun _ _ => rfl) es

theorem Slice.allKinds_eq_map (slices : List Slice) :
    Slice.allKinds slices = slices.map Slice.kinds :=
  eq_map_of_cons rfl (fun _ _ => rfl) slices

theorem Trailer.allKinds_eq_flatMap (trailers : List Trailer) :
    Trailer.allKinds trailers = trailers.flatMap Trailer.kinds :=
  eq_flatMap_of_cons rfl (fun _ _ => rfl) trailers

theorem Expr.joinedKinds_eq_flatMap (word : Kind) (es : List Expr) :
    Expr.joinedKinds word es = es.flatMap fun e => word :: e.kinds :=
  eq_flatMap_of_cons rfl (fun _ _ => rfl) es

theorem Expr.comparedKinds_eq_flatMap (es : List (Comparison × Expr)) :
    Expr.comparedKinds es = es.flatMap fun x => .comparison x.1 :: x.2.kinds :=
  eq_flatMap_of_cons rfl (fun _ _ => rfl) es

theorem Expr.addedKinds_eq_flatMap (es : List (SumOp × Expr)) :
    Expr.addedKinds es = es.flatMap fun x => .sumOp x.1 :: x.2.kinds :=
  eq_flatMap_of_cons rfl (fun _ _ => rfl) es

theorem Expr.multipliedKinds_eq_flatMap (es : List (TermOp × Expr)) :
    Expr.multipliedKinds es = es.flatMap fun x => .termOp x.1 :: x.2.kinds :=
  eq_flatMap_of_cons rfl (fun _ _ => rfl) es

/-! ## Statements -/

mutual

/-- The tokens of a type. -/
def TypeHint.kinds : TypeHint → List Kind
  | ⟨name, [], _⟩ => [.ofWord name]
  | ⟨name, first :: rest, _⟩ =>
    .ofWord name :: .delimiter .bracketOpen ::
      (withCommas (first.kinds :: TypeHint.allKinds rest) ++ [.delimiter .bracketClose])

/-- The tokens of each of some types. -/
def TypeHint.allKinds : List TypeHint → List (List Kind)
  | [] => []
  | hint :: rest => hint.kinds :: TypeHint.allKinds rest

end

theorem TypeHint.allKinds_eq_map (hints : List TypeHint) :
    TypeHint.allKinds hints = hints.map TypeHint.kinds :=
  eq_map_of_cons rfl (fun _ _ => rfl) hints

/-- The tokens of a type behind a delimiter, if there is a type. -/
def TypeHint.kindsBehind (d : Delimiter) : Option TypeHint → List Kind
  | none => []
  | some hint => .delimiter d :: hint.kinds

/-- The tokens of expressions with commas between them. -/
def Expression.listKinds (es : List Expression) : List Kind := withCommas (es.map Expression.kinds)

/-- The tokens of a target of an assignment. -/
def Declaration.kinds (d : Declaration) : List Kind :=
  .ofWord d.name :: (d.accesses.flatMap Trailer.kinds ++ TypeHint.kindsBehind .colon d.hint)

/-- The delimiter of the operator of an assignment. -/
def AssignOp.delimiter : AssignOp → Delimiter
  | plain => .assign
  | augmented op => .augmented op

/-- The tokens of an assignment. -/
def Assignment.kinds (a : Assignment) : List Kind :=
  withCommas (a.targets.map Declaration.kinds) ++
    .delimiter a.op.delimiter :: Expression.listKinds a.value

/-- The tokens of a parameter. -/
def Parameter.kinds (p : Parameter) : List Kind :=
  .ofWord p.name :: (TypeHint.kindsBehind .colon p.hint ++
    match p.default with
    | none => []
    | some value => .delimiter .assign :: value.kinds)

/-- The tokens of the superclass in the definition of a class. -/
def superclassKinds : Option String → List Kind
  | none => []
  | some word => [.delimiter .parenOpen, .ofWord word, .delimiter .parenClose]

mutual

/-- The tokens of a statement. -/
def Statement.kinds : Statement → List Kind
  | .assign assignment => assignment.kinds ++ [.newline]
  | .superCall call => call.kinds ++ [.newline]
  | .returns none _ => [.keyword .returnKw, .newline]
  | .returns (some value) _ => .keyword .returnKw :: (Expression.listKinds value ++ [.newline])
  | .pass => [.keyword .passKw, .newline]
  | .breaks => [.keyword .breakKw, .newline]
  | .continues => [.keyword .continueKw, .newline]
  | .expressions list => Expression.listKinds list ++ [.newline]
  | .function definition => definition.kinds
  | .classDef definition => definition.kinds
  | .conditional branch => .keyword .ifKw :: branch.kinds
  | .forLoop target iterable body _ =>
    .keyword .forKw :: .ofWord target :: .keyword .inKw ::
      (Expression.listKinds iterable ++ .delimiter .colon :: .newline :: .indent ::
        (Statement.allKinds body ++ [.dedent]))
  | .whileLoop condition body _ =>
    .keyword .whileKw :: (condition.kinds ++ .delimiter .colon :: .newline :: .indent ::
      (Statement.allKinds body ++ [.dedent]))

/-- The tokens of some statements. -/
def Statement.allKinds : List Statement → List Kind
  | [] => []
  | statement :: rest => statement.kinds ++ Statement.allKinds rest

/-- The tokens of the definition of a function. -/
def FunctionDef.kinds : FunctionDef → List Kind
  | ⟨name, parameters, returnHint, body, _⟩ =>
    .keyword .defKw :: .ofWord name :: .delimiter .parenOpen ::
      (withCommas (parameters.map Parameter.kinds) ++ .delimiter .parenClose ::
        (TypeHint.kindsBehind .arrow returnHint ++ .delimiter .colon :: .newline :: .indent ::
          (Statement.allKinds body ++ [.dedent])))

/-- The tokens of the definition of a class. -/
def ClassDef.kinds : ClassDef → List Kind
  | ⟨name, superclass, body, _, _⟩ =>
    .keyword .classKw :: .ofWord name :: (superclassKinds superclass ++
      .delimiter .colon :: .newline :: .indent :: (Statement.allKinds body ++ [.dedent]))

/-- The tokens of a condition and its branches. -/
def Conditional.kinds : Conditional → List Kind
  | ⟨condition, body, otherwise, _⟩ =>
    condition.kinds ++ .delimiter .colon :: .newline :: .indent ::
      (Statement.allKinds body ++ .dedent :: otherwise.kinds)

/-- The tokens of what is done otherwise. -/
def Otherwise.kinds : Otherwise → List Kind
  | .nothing => []
  | .elseIf branch => .keyword .elifKw :: branch.kinds
  | .block body => .keyword .elseKw :: .delimiter .colon :: .newline :: .indent ::
      (Statement.allKinds body ++ [.dedent])

end

theorem Statement.allKinds_eq_flatMap (statements : List Statement) :
    Statement.allKinds statements = statements.flatMap Statement.kinds :=
  eq_flatMap_of_cons rfl (fun _ _ => rfl) statements

/-- The tokens of a program. -/
def render (p : Program) : List Token := Token.complete (Statement.allKinds p)

end Offside
