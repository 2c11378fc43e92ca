import Offside.Class.Attributes
import Offside.Class.Body
import Offside.Proofs.Tree.WellFormed

/-!
# Well-formed programs

The trees that stand for programs of the source.  Lists of targets, values and expressions are not
empty, an augmented operator has one target, and a call of a method of a superclass that stands
alone is a statement of its own kind.  Classes are defined outside all blocks, under distinct names
and behind their superclasses, and their bodies hold what a class body may hold.
-/

namespace Offside

/-! ## Types and simple statements -/

mutual

/-- Whether a type is well-formed.  The keyword `None` is a type too. -/
def TypeHint.isWellFormed : TypeHint → Bool
  | ⟨name, arguments, _⟩ => (isPlainName name || name == "None") && TypeHint.areWellFormed arguments

/-- Whether some types are well-formed. -/
def TypeHint.areWellFormed : List TypeHint → Bool
  | [] => true
  | hint :: rest => hint.isWellFormed && TypeHint.areWellFormed rest

end

theorem TypeHint.areWellFormed_iff {hints : List TypeHint} :
    TypeHint.areWellFormed hints ↔ ∀ hint ∈ hints, hint.isWellFormed :=
  test_iff_of_cons rfl fun _ _ => Bool.and_eq_true_iff

/-- Whether a list of expressions is well-formed: it is not empty and all its members are
well-formed. -/
def Expression.isWellFormedList (es : List Expression) : Bool :=
  !es.isEmpty && es.all Expression.isWellFormed

theorem Expression.of_isWellFormedList {es : List Expression} (h : Expression.isWellFormedList es) :
    es ≠ [] ∧ Expression.areWellFormed es := by
  simp only [Expression.isWellFormedList, Bool.and_eq_true, Bool.not_eq_true',
    List.isEmpty_eq_false_iff,
    List.all_eq_true] at h
  exact ⟨h.1, Expression.areWellFormed_iff.mpr h.2⟩

/-- Whether a target of an assignment is well-formed. -/
def Declaration.isWellFormed (d : Declaration) : Bool :=
  isPlainName d.name && d.hint.all TypeHint.isWellFormed && Trailer.areWellFormed d.accesses

/-- Whether an operator can assign to the given number of targets. -/
def AssignOp.takes : AssignOp → Nat → Bool
  | plain, targets => targets != 0
  | augmented _, targets => targets == 1

/-- Whether an assignment is well-formed. -/
def Assignment.isWellFormed (a : Assignment) : Bool :=
  a.op.takes a.targets.length && a.targets.all Declaration.isWellFormed &&
    Expression.isWellFormedList a.value

/-- Whether a parameter is well-formed. -/
def Parameter.isWellFormed (p : Parameter) : Bool :=
  isPlainName p.name && p.hint.all TypeHint.isWellFormed && p.default.all Expression.isWellFormed

/-- Whether the expressions are one call of a method of a superclass. -/
def isLoneSuperCall : List Expression → Bool
  | [⟨.primary ⟨.super _, [], _⟩, _⟩] => true
  | _ => false

/-! ## Statements -/

mutual

/-- Whether a statement that may stand in a block is well-formed. -/
def Statement.isWellFormed : Statement → Bool
  | .assign assignment => assignment.isWellFormed
  | .superCall call => call.isWellFormed
  | .returns value _ => value.all Expression.isWellFormedList
  | .pass | .breaks | .continues => true
  | .expressions list => Expression.isWellFormedList list && !isLoneSuperCall list
  | .function definition => definition.isWellFormed
  | .classDef _ => false
  | .conditional branch => branch.isWellFormed
  | .forLoop target iterable body _ =>
    isPlainName target && Expression.isWellFormedList iterable && Statement.areWellFormed body
  | .whileLoop condition body _ => condition.isWellFormed && Statement.areWellFormed body

/-- Whether the statements of a block are well-formed. -/
def Statement.areWellFormed : List Statement → Bool
  | [] => true
  | statement :: rest => statement.isWellFormed && Statement.areWellFormed rest

/-- Whether the definition of a function is well-formed. -/
def FunctionDef.isWellFormed : FunctionDef → Bool
  | ⟨name, parameters, returnHint, body, _⟩ =>
    isPlainName name && parameters.all Parameter.isWellFormed &&
      returnHint.all TypeHint.isWellFormed && Statement.areWellFormed body

/-- Whether a condition and its branches are well-formed. -/
def Conditional.isWellFormed : Conditional → Bool
  | ⟨condition, body, otherwise, _⟩ =>
    condition.isWellFormed && Statement.areWellFormed body && otherwise.isWellFormed

/-- Whether what is done otherwise is well-formed. -/
def Otherwise.isWellFormed : Otherwise → Bool
  | .nothing => true
  | .elseIf branch => branch.isWellFormed
  | .block body => Statement.areWellFormed body

end

theorem FunctionDef.of_isWellFormed {f : FunctionDef} (h : f.isWellFormed) :
    (∀ p ∈ f.parameters, p.isWellFormed) ∧ Statement.areWellFormed f.body := by
  obtain ⟨name, parameters, returnHint, body, span⟩ := f
  simp only [FunctionDef.isWellFormed, Bool.and_eq_true, List.all_eq_true] at h
  exact ⟨h.1.1.2, h.2⟩

theorem Statement.areWellFormed_iff {statements : List Statement} :
    Statement.areWellFormed statements ↔ ∀ s ∈ statements, s.isWellFormed :=
  test_iff_of_cons rfl fun _ _ => Bool.and_eq_true_iff

/-! ## Programs -/

/-- Whether a statement may stand in the body of a class: a method, `pass` or a plain string. -/
def Statement.isMember : Statement → Bool
  | .function _ | .pass => true
  | .expressions list => isDocstring list
  | _ => false

/-- The names and the numbers of parameters of the methods in a class body. -/
def signatures (body : List Statement) : List (String × Nat) :=
  (body.filterMap Statement.function?).map fun method => (method.name, method.arity)

/-- A class is well-formed.  The table of its attributes holds what its initializers declare. -/
structure ClassDef.WellFormed (c : ClassDef) : Prop where
  name : isPlainName c.name = true
  superclass : c.superclass.all isPlainName = true
  body : Statement.areWellFormed c.body = true
  members : c.body.all Statement.isMember = true
  signatures : (signatures c.body).Nodup
  attributes : c.attributes = attributesOfBody c.body

/-- The class that a statement defines. -/
def Statement.class? : Statement → Option ClassDef
  | .classDef c => some c
  | _ => none

/-- The names of the classes that some statements define. -/
def classNames (statements : List Statement) : List String :=
  (statements.filterMap Statement.class?).map ClassDef.name

/-- A program is well-formed. -/
structure Program.WellFormed (p : Program) : Prop where
  statements : ∀ s ∈ p, s.isWellFormed = true ∨ ∃ c, s = .classDef c ∧ c.WellFormed
  /-- The names of classes are distinct. -/
  classes : (classNames p).Nodup
  /-- A superclass is defined before the class. -/
  superclasses : ∀ before c after, p = before ++ .classDef c :: after →
    ∀ superclass ∈ c.superclass, superclass ∈ classNames before

/-! ## Blocks without statements -/

mutual

/-- Whether a block without statements stands in a statement. -/
def Statement.hasEmptyBlock : Statement → Bool
  | .function ⟨_, _, _, body, _⟩ | .classDef ⟨_, _, body, _, _⟩ | .forLoop _ _ body
    _ | .whileLoop _ body _ =>
    body.isEmpty || Statement.anyEmptyBlock body
  | .conditional branch => branch.hasEmptyBlock
  | .assign _ | .superCall _ | .returns _ _ | .pass | .breaks | .continues | .expressions _ => false

/-- Whether a block without statements stands in one of the statements. -/
def Statement.anyEmptyBlock : List Statement → Bool
  | [] => false
  | statement :: rest => statement.hasEmptyBlock || Statement.anyEmptyBlock rest

/-- Whether a block behind a condition has no statements, or such a block stands in it. -/
def Conditional.hasEmptyBlock : Conditional → Bool
  | ⟨_, body, otherwise, _⟩ =>
    body.isEmpty || Statement.anyEmptyBlock body || otherwise.hasEmptyBlock

/-- Whether what is done otherwise has a block without statements. -/
def Otherwise.hasEmptyBlock : Otherwise → Bool
  | .nothing => false
  | .elseIf branch => branch.hasEmptyBlock
  | .block body => body.isEmpty || Statement.anyEmptyBlock body

end

end Offside
