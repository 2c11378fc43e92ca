import Offside.Proofs.Traversal
import Offside.Target.Item

/-!
# Properties of all parts

The parts of an expression are the expression itself and the parts of its direct parts
(`Code.parts_eq`).  So a property of all expressions inside an expression is one of the expression
and of all that is inside its direct parts.
-/

namespace Offside.Target

/-- The expression that a part of a string holds. -/
def CodePart.code? : CodePart → Option Code
  | literal _ => none
  | embedded code => some code

namespace Code

/-- The direct parts of an expression, in the order in which they are written. -/
def children : Code → List Code
  | .name _ | .boolean _ | .nothing | .integer _ | .float _ | .symbol
    _ | .lastIndex | .everything => []
  | .str parts => parts.filterMap CodePart.code?
  | .group inner | .spread inner | .not inner | .sign _ inner | .member inner _ => [inner]
  | .tuple codes | .vector codes | .broadcast _ codes | .statistic _ codes | .staticCall _ _ codes
  | .methodCall _ codes => codes
  | .chain first rest => first :: rest.map Prod.snd
  | .range first step last => first :: (step.toList ++ [last])
  | .call first rest | .subscript first rest => first :: rest

theorem restParts_eq (rest : List (Operator × Code)) :
    restParts rest = allParts (rest.map Prod.snd) := by
  induction rest with
  | nil => rfl
  | cons operand rest ih => exact congrArg (operand.2.parts ++ ·) ih

theorem parts_of_str (inside : List CodePart) :
    CodePart.parts inside = allParts (inside.filterMap CodePart.code?) := by
  induction inside with
  | nil => rfl
  | cons part inside ih =>
    cases part with
    | literal text => exact ih
    | embedded code => exact congrArg (code.parts ++ ·) ih

theorem parts_eq (code : Code) : code.parts = code :: allParts code.children := by
  cases code with
  | str inside => rw [parts, parts_of_str, children]
  | chain first rest => rw [parts, restParts_eq, children, allParts]
  | range first step last => cases step <;> simp [parts, children, allParts]
  | _ => simp [parts, children, allParts]

theorem mem_parts (code : Code) : code ∈ code.parts := code.parts_eq ▸ List.mem_cons_self

theorem allParts_append (codes codes' : List Code) :
    allParts (codes ++ codes') = allParts codes ++ allParts codes' :=
  append_of_cons rfl (fun _ _ => rfl) codes codes'

section Every

variable (P : Code → Prop)

/-- The property holds of all expressions inside an expression, itself included. -/
def Every (code : Code) : Prop := ∀ part ∈ code.parts, P part

/-- The property holds of all expressions inside some expressions. -/
def EveryOf (codes : List Code) : Prop := ∀ part ∈ allParts codes, P part

end Every

variable {P : Code → Prop}

/-- A property of all parts of an expression is one of the expression and of all parts of its direct
parts. -/
theorem every_iff_children {code : Code} : code.Every P ↔ P code ∧ EveryOf P code.children := by
  rw [Every, parts_eq, List.forall_mem_cons]
  rfl

theorem everyOf_append {codes codes' : List Code} :
    EveryOf P (codes ++ codes') ↔ EveryOf P codes ∧ EveryOf P codes' := by
  rw [EveryOf, allParts_append, List.forall_mem_append]
  rfl

theorem everyOf_singleton {code : Code} : EveryOf P [code] ↔ code.Every P := by
  rw [EveryOf, allParts, allParts, List.append_nil]
  rfl

end Code

end Offside.Target
