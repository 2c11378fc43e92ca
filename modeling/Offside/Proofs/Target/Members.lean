import Offside.Proofs.Target.Parts

/-!
# Members in emitted code

The names of the members in emitted code, in the order in which they are written.  An expression
that is not itself a member has those of its direct parts (`Code.members_eq_children`), and
statements have those of their expressions.
-/

namespace Offside.Target

open List

mutual

/-- The members in an expression. -/
def Code.members : Code → List String
  | .name _ | .boolean _ | .nothing | .integer _ | .float _ | .symbol
    _ | .lastIndex | .everything => []
  | .str parts => CodePart.allMembers parts
  | .group inner | .spread inner | .not inner | .sign _ inner => inner.members
  | .tuple elements | .vector elements => Code.allMembers elements
  | .chain first rest => first.members ++ Code.restMembers rest
  | .range first none last => first.members ++ last.members
  | .range first (some step) last => first.members ++ step.members ++ last.members
  | .call function arguments => function.members ++ Code.allMembers arguments
  | .broadcast _ arguments | .statistic _ arguments | .staticCall _ _ arguments
  | .methodCall _ arguments => Code.allMembers arguments
  | .member base name => base.members ++ [name]
  | .subscript base indices => base.members ++ Code.allMembers indices

/-- The members in some expressions. -/
def Code.allMembers : List Code → List String
  | [] => []
  | code :: rest => code.members ++ Code.allMembers rest

/-- The members in the further operands of a chain. -/
def Code.restMembers : List (Operator × Code) → List String
  | [] => []
  | (_, code) :: rest => code.members ++ Code.restMembers rest

/-- The members in the parts of a string. -/
def CodePart.allMembers : List CodePart → List String
  | [] => []
  | .literal _ :: rest => CodePart.allMembers rest
  | .embedded code :: rest => code.members ++ CodePart.allMembers rest

end

theorem Code.restMembers_eq (rest : List (Operator × Code)) :
    Code.restMembers rest = Code.allMembers (rest.map Prod.snd) := by
  induction rest with
  | nil => rfl
  | cons operand rest ih => rw [map_cons, Code.restMembers, Code.allMembers, ih]

theorem CodePart.allMembers_eq (parts : List CodePart) :
    CodePart.allMembers parts = Code.allMembers (parts.filterMap CodePart.code?) := by
  induction parts with
  | nil => rfl
  | cons part parts ih =>
    cases part with
    | literal text => exact ih
    | embedded code => exact congrArg (code.members ++ ·) ih

/-- The name of a member. -/
def Code.member? : Code → Option String
  | .member _ text => some text
  | _ => none

theorem Code.members_eq_children (code : Code) :
    code.members = Code.allMembers code.children ++ code.member?.toList := by
  cases code with
  | str parts => simp [Code.members, Code.children, Code.member?, CodePart.allMembers_eq]
  | chain first rest =>
    simp [Code.members, Code.children, Code.member?, Code.restMembers_eq, Code.allMembers]
  | range first step last =>
    cases step <;> simp [Code.members, Code.children, Code.member?, Code.allMembers]
  | _ => simp [Code.members, Code.children, Code.member?, Code.allMembers]

theorem Code.allMembers_append (codes codes' : List Code) :
    Code.allMembers (codes ++ codes') = Code.allMembers codes ++ Code.allMembers codes' :=
  append_of_cons rfl (fun _ _ => rfl) codes codes'

/-! ## Statements -/

mutual

/-- The expressions of a statement, in the order in which they are written. -/
def Item.codes : Item → List Code
  | .blank | .library _ | .breaks | .continues | .globals _ | .abstractType _ _ | .record _ _ _ =>
    []
  | .expressions values | .returns values => values
  | .assign _ targets _ values => targets ++ values
  | .conditional condition body alternative =>
    condition :: (Item.allCodes body ++ alternative.codes)
  | .forLoop _ iterable body => iterable :: Item.allCodes body
  | .whileLoop condition body => condition :: Item.allCodes body
  | .function signature body => signature.formals.filterMap Formal.default? ++ Item.allCodes body
  | .equation signature value => signature.formals.filterMap Formal.default? ++ [value]

/-- The expressions of an alternative. -/
def Alternative.codes : Alternative → List Code
  | .nothing => []
  | .branch condition body alternative => condition :: (Item.allCodes body ++ alternative.codes)
  | .block body => Item.allCodes body

/-- The expressions of some statements. -/
def Item.allCodes : List Item → List Code
  | [] => []
  | item :: rest => item.codes ++ Item.allCodes rest

end

/-- The members in some statements. -/
def Item.allMembers (items : List Item) : List String := Code.allMembers (Item.allCodes items)

mutual

theorem Item.parts_eq : ∀ item : Item, item.parts = Code.allParts item.codes
  | .blank | .library _ | .breaks | .continues | .globals _ | .abstractType _ _ | .record _ _ _
  | .expressions _ | .returns _ => rfl
  | .assign _ targets _ values => (Code.allParts_append targets values).symm
  | .conditional condition body alternative => by
    rw [Item.parts, Item.codes, Code.allParts, Code.allParts_append, Item.allParts_eq body,
      Alternative.parts_eq alternative, append_assoc]
  | .forLoop _ _ body | .whileLoop _
    body => by rw [Item.parts, Item.codes, Code.allParts, Item.allParts_eq body]
  | .function signature
    body => by rw [Item.parts, Item.codes, Code.allParts_append, Item.allParts_eq body]
  | .equation signature value => by
    rw [Item.parts, Item.codes, Code.allParts_append, Code.allParts, Code.allParts, append_nil]

theorem Alternative.parts_eq : ∀ alternative :
    Alternative, alternative.parts = Code.allParts alternative.codes
  | .nothing => rfl
  | .branch condition body alternative => by
    rw [Alternative.parts, Alternative.codes, Code.allParts, Code.allParts_append,
      Item.allParts_eq body,
      Alternative.parts_eq alternative, append_assoc]
  | .block body => by rw [Alternative.parts, Alternative.codes, Item.allParts_eq body]

theorem Item.allParts_eq : ∀ items :
    List Item, Item.allParts items = Code.allParts (Item.allCodes items)
  | [] => rfl
  | item :: rest => by
    rw [Item.allParts, Item.allCodes, Code.allParts_append, Item.parts_eq item,
      Item.allParts_eq rest]

end

theorem Item.allCodes_append (items items' : List Item) :
    Item.allCodes (items ++ items') = Item.allCodes items ++ Item.allCodes items' :=
  append_of_cons rfl (fun _ _ => rfl) items items'

theorem Item.allCodes_singleton (item : Item) : Item.allCodes [item] = item.codes :=
  append_nil _

end Offside.Target
