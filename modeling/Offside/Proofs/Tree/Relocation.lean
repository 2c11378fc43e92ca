import Offside.Proofs.Token.Relocation
import Offside.Tree.Statement

/-!
# Relocated trees

Trees keep where their parts stand in the source.  `relocate` puts another location in place of each
of their locations, as it does for tokens.  What is asked of an expression or a type, apart from its
location, has the same answer.  With the empty location in place of all locations, two trees that
differ in their spans only become equal (`eraseSpans`).
-/

namespace Offside

variable (place : Location → Location)

/-! ## Expressions -/

mutual

/-- The operators of an expression with other locations. -/
def Expr.relocate : Expr → Expr
  | .or first rest => .or first.relocate (Expr.relocateAll rest)
  | .and first rest => .and first.relocate (Expr.relocateAll rest)
  | .not operand => .not operand.relocate
  | .compare first rest => .compare first.relocate (Expr.relocateCompared rest)
  | .sum first rest => .sum first.relocate (Expr.relocateAdded rest)
  | .product first rest => .product first.relocate (Expr.relocateMultiplied rest)
  | .sign op operand => .sign op operand.relocate
  | .power base exponent => .power base.relocate exponent.relocate
  | .primary operand => .primary operand.relocate

/-- Some operands with other locations. -/
def Expr.relocateAll : List Expr → List Expr
  | [] => []
  | e :: rest => e.relocate :: Expr.relocateAll rest

/-- The operands of comparisons with other locations. -/
def Expr.relocateCompared : List (Comparison × Expr) → List (Comparison × Expr)
  | [] => []
  | (op, e) :: rest => (op, e.relocate) :: Expr.relocateCompared rest

/-- The operands of a sum with other locations. -/
def Expr.relocateAdded : List (SumOp × Expr) → List (SumOp × Expr)
  | [] => []
  | (op, e) :: rest => (op, e.relocate) :: Expr.relocateAdded rest

/-- The operands of a product with other locations. -/
def Expr.relocateMultiplied : List (TermOp × Expr) → List (TermOp × Expr)
  | [] => []
  | (op, e) :: rest => (op, e.relocate) :: Expr.relocateMultiplied rest

/-- An expression with other locations. -/
def Expression.relocate : Expression → Expression
  | ⟨tree, span⟩ => ⟨tree.relocate, span.relocate place⟩

/-- Some expressions with other locations. -/
def Expression.relocateAll : List Expression → List Expression
  | [] => []
  | e :: rest => e.relocate :: Expression.relocateAll rest

/-- An expression that may be left out, with other locations. -/
def Expression.relocate? : Option Expression → Option Expression
  | none => none
  | some e => some e.relocate

/-- An atom and what is accessed through it, with other locations. -/
def Primary.relocate : Primary → Primary
  | ⟨atom, trailers, span⟩ => ⟨atom.relocate, Trailer.relocateAll trailers, span.relocate place⟩

/-- An atom with other locations. -/
def Atom.relocate : Atom → Atom
  | .formatted parts => .formatted (FormattedPart.relocateAll parts)
  | .group inner => .group inner.relocate
  | .list elements => .list (Expression.relocateAll elements)
  | .library call => .library call.relocate
  | .builtin call => .builtin call.relocate
  | .super call => .super call.relocate
  | .name name => .name name
  | .boolean value => .boolean value
  | .none => .none
  | .integer value => .integer value
  | .float value => .float value
  | .str text => .str text

/-- A part of a formatted string with other locations. -/
def FormattedPart.relocate : FormattedPart → FormattedPart
  | .literal text => .literal text
  | .embedded e => .embedded e.relocate

/-- Some parts of a formatted string with other locations. -/
def FormattedPart.relocateAll : List FormattedPart → List FormattedPart
  | [] => []
  | part :: rest => part.relocate :: FormattedPart.relocateAll rest

/-- An access with other locations. -/
def Trailer.relocate : Trailer → Trailer
  | .member name span => .member name (span.relocate place)
  | .call arguments => .call arguments.relocate
  | .subscript slices => .subscript (Slice.relocateAll slices)

/-- Some accesses with other locations. -/
def Trailer.relocateAll : List Trailer → List Trailer
  | [] => []
  | trailer :: rest => trailer.relocate :: Trailer.relocateAll rest

/-- A part of a subscript with other locations. -/
def Slice.relocate : Slice → Slice
  | .index index => .index index.relocate
  | .range lower upper step =>
    .range (Expression.relocate? lower) (Expression.relocate? upper) (Expression.relocate? step)

/-- Some parts of a subscript with other locations. -/
def Slice.relocateAll : List Slice → List Slice
  | [] => []
  | slice :: rest => slice.relocate :: Slice.relocateAll rest

/-- The arguments of a call with other locations. -/
def Arguments.relocate : Arguments → Arguments
  | ⟨values, span⟩ => ⟨Expression.relocateAll values, span.relocate place⟩

/-- A call of a function with other locations. -/
def FunctionCall.relocate : FunctionCall → FunctionCall
  | ⟨name, arguments, span⟩ => ⟨name, arguments.relocate, span.relocate place⟩

/-- A call of a method of a superclass with other locations. -/
def SuperCall.relocate : SuperCall → SuperCall
  | ⟨superclass, method, arguments, span⟩ =>
    ⟨superclass, method, arguments.relocate, span.relocate place⟩

end

@[simp] theorem Expr.relocateAll_eq_map (es : List Expr) :
    Expr.relocateAll place es = es.map (Expr.relocate place) :=
  eq_map_of_cons rfl (fun _ _ => rfl) es

@[simp] theorem Expr.relocateCompared_eq_map (es : List (Comparison × Expr)) :
    Expr.relocateCompared place es = es.map (Prod.map id (Expr.relocate place)) :=
  eq_map_of_cons rfl (fun _ _ => rfl) es

@[simp] theorem Expr.relocateAdded_eq_map (es : List (SumOp × Expr)) :
    Expr.relocateAdded place es = es.map (Prod.map id (Expr.relocate place)) :=
  eq_map_of_cons rfl (fun _ _ => rfl) es

@[simp] theorem Expr.relocateMultiplied_eq_map (es : List (TermOp × Expr)) :
    Expr.relocateMultiplied place es = es.map (Prod.map id (Expr.relocate place)) :=
  eq_map_of_cons rfl (fun _ _ => rfl) es

@[simp] theorem Expression.relocateAll_eq_map (es : List Expression) :
    Expression.relocateAll place es = es.map (Expression.relocate place) :=
  eq_map_of_cons rfl (fun _ _ => rfl) es

@[simp] theorem Expression.relocate?_eq_map (e : Option Expression) :
    Expression.relocate? place e = e.map (Expression.relocate place) := by
  cases e <;> rfl

@[simp] theorem FormattedPart.relocateAll_eq_map (parts : List FormattedPart) :
    FormattedPart.relocateAll place parts = parts.map (FormattedPart.relocate place) :=
  eq_map_of_cons rfl (fun _ _ => rfl) parts

@[simp] theorem Trailer.relocateAll_eq_map (trailers : List Trailer) :
    Trailer.relocateAll place trailers = trailers.map (Trailer.relocate place) :=
  eq_map_of_cons rfl (fun _ _ => rfl) trailers

@[simp] theorem Slice.relocateAll_eq_map (slices : List Slice) :
    Slice.relocateAll place slices = slices.map (Slice.relocate place) :=
  eq_map_of_cons rfl (fun _ _ => rfl) slices

/-! ### Literals -/

theorem Primary.isStringLiteral_relocate (p : Primary) :
    (p.relocate place).isStringLiteral = p.isStringLiteral := by
  obtain ⟨atom, trailers, span⟩ := p
  cases trailers <;> cases atom <;> rfl

theorem Primary.integer?_relocate (p : Primary) : (p.relocate place).integer? = p.integer? := by
  obtain ⟨atom, trailers, span⟩ := p
  cases trailers <;> cases atom <;> rfl

namespace Expr

theorem isSum_relocate (e : Expr) : (e.relocate place).isSum = e.isSum := by
  cases e <;> rfl

theorem primary?_relocate (e : Expr) :
    (e.relocate place).primary? = e.primary?.map (Primary.relocate place) := by
  cases e <;> rfl

theorem isStringLiteral_relocate (e : Expr) :
    (e.relocate place).isStringLiteral = e.isStringLiteral := by
  rw [isStringLiteral, isStringLiteral, primary?_relocate]
  cases e.primary? with
  | none => rfl
  | some p => exact p.isStringLiteral_relocate place

theorem integer?_relocate : ∀ e : Expr, (e.relocate place).integer? = e.integer?
  | sign .sub operand => congrArg (Option.map (- ·)) operand.integer?_relocate
  | sign .add operand => operand.integer?_relocate
  | primary p => p.integer?_relocate place
  | or .. | and .. | not _ | compare .. | sum .. | product .. | power .. => rfl

end Expr

theorem Expression.tree_relocate (e : Expression) :
    (e.relocate place).tree = e.tree.relocate place := by
  cases e
  rfl

/-! ## Statements -/

mutual

/-- A type with other locations. -/
def TypeHint.relocate : TypeHint → TypeHint
  | ⟨name, arguments, span⟩ => ⟨name, TypeHint.relocateAll arguments, span.relocate place⟩

/-- Some types with other locations. -/
def TypeHint.relocateAll : List TypeHint → List TypeHint
  | [] => []
  | hint :: rest => hint.relocate :: TypeHint.relocateAll rest

end

@[simp] theorem TypeHint.relocateAll_eq_map (hints : List TypeHint) :
    TypeHint.relocateAll place hints = hints.map (TypeHint.relocate place) :=
  eq_map_of_cons rfl (fun _ _ => rfl) hints

mutual

theorem TypeHint.text_relocate : ∀ hint : TypeHint, (hint.relocate place).text = hint.text
  | ⟨_, [], _⟩ => rfl
  | ⟨name, first :: rest, span⟩ => by
    rw [TypeHint.relocate, TypeHint.relocateAll, TypeHint.text, TypeHint.text, first.text_relocate,
      TypeHint.texts_relocateAll rest]

theorem TypeHint.texts_relocateAll : ∀ hints : List TypeHint,
    TypeHint.texts (TypeHint.relocateAll place hints) = TypeHint.texts hints
  | [] => rfl
  | hint :: rest => by
    rw [TypeHint.relocateAll, TypeHint.texts, TypeHint.texts, hint.text_relocate,
      TypeHint.texts_relocateAll rest]

end

/-- A target of an assignment with other locations. -/
def Declaration.relocate (d : Declaration) : Declaration :=
  ⟨d.name, d.hint.map (TypeHint.relocate place), d.accesses.map (Trailer.relocate place),
    d.span.relocate place⟩

/-- An assignment with other locations. -/
def Assignment.relocate (a : Assignment) : Assignment :=
  ⟨a.targets.map (Declaration.relocate place), a.op, a.value.map (Expression.relocate place),
    a.span.relocate place⟩

/-- A parameter with other locations. -/
def Parameter.relocate (p : Parameter) : Parameter :=
  ⟨p.name, p.hint.map (TypeHint.relocate place), p.default.map (Expression.relocate place),
    p.span.relocate place⟩

/-- An attribute with other locations. -/
def Attribute.relocate (a : Attribute) : Attribute := ⟨a.name, a.hint.map (TypeHint.relocate place)⟩

mutual

/-- A statement with other locations. -/
def Statement.relocate : Statement → Statement
  | .assign assignment => .assign (assignment.relocate place)
  | .superCall call => .superCall (call.relocate place)
  | .returns value span =>
    .returns (value.map (List.map (Expression.relocate place))) (span.relocate place)
  | .pass => .pass
  | .breaks => .breaks
  | .continues => .continues
  | .expressions list => .expressions (list.map (Expression.relocate place))
  | .function definition => .function definition.relocate
  | .classDef definition => .classDef definition.relocate
  | .conditional branch => .conditional branch.relocate
  | .forLoop target iterable body span =>
    .forLoop target (iterable.map (Expression.relocate place)) (Statement.relocateAll body)
      (span.relocate place)
  | .whileLoop condition body span =>
    .whileLoop (condition.relocate place) (Statement.relocateAll body) (span.relocate place)

/-- Some statements with other locations. -/
def Statement.relocateAll : List Statement → List Statement
  | [] => []
  | statement :: rest => statement.relocate :: Statement.relocateAll rest

/-- The definition of a function with other locations. -/
def FunctionDef.relocate : FunctionDef → FunctionDef
  | ⟨name, parameters, returnHint, body, span⟩ =>
    ⟨name, parameters.map (Parameter.relocate place), returnHint.map (TypeHint.relocate place),
      Statement.relocateAll body, span.relocate place⟩

/-- The definition of a class with other locations. -/
def ClassDef.relocate : ClassDef → ClassDef
  | ⟨name, superclass, body, attributes, span⟩ =>
    ⟨name, superclass, Statement.relocateAll body, attributes.map (Attribute.relocate place),
      span.relocate place⟩

/-- A condition and its branches with other locations. -/
def Conditional.relocate : Conditional → Conditional
  | ⟨condition, body, otherwise, span⟩ =>
    ⟨condition.relocate place, Statement.relocateAll body, otherwise.relocate, span.relocate place⟩

/-- What is done otherwise, with other locations. -/
def Otherwise.relocate : Otherwise → Otherwise
  | .nothing => .nothing
  | .elseIf branch => .elseIf branch.relocate
  | .block body => .block (Statement.relocateAll body)

end

@[simp] theorem Statement.relocateAll_eq_map (statements : List Statement) :
    Statement.relocateAll place statements = statements.map (Statement.relocate place) :=
  eq_map_of_cons rfl (fun _ _ => rfl) statements

/-! ## Without spans -/

/-- All places become the empty location. -/
def nowhere : Location → Location := fun _ => {}

/-- A token with the empty span in place of its span and of those of the tokens that it holds. -/
def Token.eraseSpans : Token → Token := Token.relocate nowhere

/-- A statement with the empty span in place of all spans. -/
def Statement.eraseSpans : Statement → Statement := Statement.relocate nowhere

end Offside
