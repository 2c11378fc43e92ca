import Offside.Emit.Call
import Offside.Proofs.Tree.Calls
import Offside.Target.Name

/-!
# Accessed members

The names of the members that are accessed and not called, in the order in which they are written in
the emitted code.  This is the order of the source, but for ranges: the step of a range is written
between its ends.
-/

namespace Offside

open List

/-- Arguments in the order in which they are written.  The step of a range comes before its end. -/
def Emit.CallForm.inTextOrder {α : Type} : Emit.CallForm → List α → List α
  | .range, [start, stop, step] => [start, step, stop]
  | _, arguments => arguments

mutual

/-- The members accessed in an expression. -/
def Expression.members : Expression → List String
  | ⟨tree, _⟩ => tree.members

/-- The members accessed in each of some expressions. -/
def Expression.eachMembers : List Expression → List (List String)
  | [] => []
  | first :: rest => first.members :: Expression.eachMembers rest

/-- The members accessed in operators and their operands. -/
def Expr.members : Expr → List String
  | .or first rest => first.members ++ Expr.allMembers rest
  | .and first rest => first.members ++ Expr.allMembers rest
  | .not operand => operand.members
  | .compare first rest => first.members ++ Expr.comparisonMembers rest
  | .sum first rest => first.members ++ Expr.sumMembers rest
  | .product first rest => first.members ++ Expr.productMembers rest
  | .sign _ operand => operand.members
  | .power base exponent => base.members ++ exponent.members
  | .primary operand => operand.members

/-- The members accessed in operands behind one operator. -/
def Expr.allMembers : List Expr → List String
  | [] => []
  | first :: rest => first.members ++ Expr.allMembers rest

/-- The members accessed in operands behind comparisons. -/
def Expr.comparisonMembers : List (Comparison × Expr) → List String
  | [] => []
  | (_, first) :: rest => first.members ++ Expr.comparisonMembers rest

/-- The members accessed in operands behind sum operators. -/
def Expr.sumMembers : List (SumOp × Expr) → List String
  | [] => []
  | (_, first) :: rest => first.members ++ Expr.sumMembers rest

/-- The members accessed in operands behind product operators. -/
def Expr.productMembers : List (TermOp × Expr) → List String
  | [] => []
  | (_, first) :: rest => first.members ++ Expr.productMembers rest

/-- The members accessed in an atom and through it. -/
def Primary.members : Primary → List String
  | ⟨atom, trailers, _⟩ => atom.members ++ Trailer.allMembers trailers

/-- The members accessed in an atom. -/
def Atom.members : Atom → List String
  | .name _ | .boolean _ | .none | .integer _ | .float _ | .str _ => []
  | .formatted parts => FormattedPart.allMembers parts
  | .group inner => inner.members
  | .list elements => (Expression.eachMembers elements).flatten
  | .library ⟨name, ⟨values, _⟩, _⟩ | .builtin ⟨name, ⟨values, _⟩, _⟩ =>
    ((Emit.callForm name).inTextOrder (Expression.eachMembers values)).flatten
  | .super ⟨_, _, ⟨values, _⟩, _⟩ => (Expression.eachMembers values).flatten

/-- The members accessed in the parts of a formatted string. -/
def FormattedPart.allMembers : List FormattedPart → List String
  | [] => []
  | .literal _ :: rest => FormattedPart.allMembers rest
  | .embedded inner :: rest => inner.members ++ FormattedPart.allMembers rest

/-- The members accessed by trailers and in them.  A member in front of arguments is a method that
is called. -/
def Trailer.allMembers : List Trailer → List String
  | [] => []
  | .member _ _ :: .call ⟨values, _⟩ :: rest =>
    (Expression.eachMembers values).flatten ++ Trailer.allMembers rest
  | .member name _ :: rest => name :: Trailer.allMembers rest
  | .call ⟨values, _⟩ :: rest => (Expression.eachMembers values).flatten ++ Trailer.allMembers rest
  | .subscript slices :: rest => Slice.allMembers slices ++ Trailer.allMembers rest

/-- The members accessed in the parts of a subscript. -/
def Slice.allMembers : List Slice → List String
  | [] => []
  | .index index :: rest => index.members ++ Slice.allMembers rest
  | .range lower upper step :: rest =>
    Expression.optionalMembers lower ++
      (Expression.optionalMembers step ++ Expression.optionalMembers upper) ++
      Slice.allMembers rest

/-- The members accessed in an expression that may be left out. -/
def Expression.optionalMembers : Option Expression → List String
  | none => []
  | some e => e.members

end

/-- The members accessed in some expressions. -/
def Expression.allMembers (es : List Expression) : List String :=
  (Expression.eachMembers es).flatten

/-- The members accessed in a target of an assignment. -/
def Declaration.members (d : Declaration) : List String := Trailer.allMembers d.accesses

/-- The members accessed in an assignment.  The target of an augmented one is also read. -/
def Assignment.members (a : Assignment) : List String :=
  match a.op with
  | .plain => a.targets.flatMap Declaration.members ++ Expression.allMembers a.value
  | .augmented _ =>
    a.targets.flatMap Declaration.members ++ a.targets.flatMap Declaration.members ++
      Expression.allMembers a.value

theorem Assignment.members_of_plain {a : Assignment} (h : a.op = .plain) :
    a.members = a.targets.flatMap Declaration.members ++ Expression.allMembers a.value := by
  rw [Assignment.members, h]

theorem Assignment.members_of_augmented {a : Assignment} {op : AugmentedOp}
    (h : a.op = .augmented op) :
    a.members = a.targets.flatMap Declaration.members ++ a.targets.flatMap Declaration.members ++
      Expression.allMembers a.value := by
  rw [Assignment.members, h]

/-- The members accessed in the default values of some parameters. -/
def Parameter.allMembers (parameters : List Parameter) : List String :=
  parameters.flatMap fun p => Expression.optionalMembers p.default

/-! ## Statements -/

mutual

/-- The members accessed in a statement.  Classes are defined outside all blocks, and have accesses
of their own. -/
def Statement.members : Statement → List String
  | .assign a => a.members
  | .superCall call => Expression.allMembers call.arguments.values
  | .returns none _ | .pass | .breaks | .continues | .classDef _ => []
  | .returns (some values) _ | .expressions values => Expression.allMembers values
  | .function ⟨_, parameters, _, body, _⟩ =>
    Parameter.allMembers parameters ++ Statement.allMembers body
  | .conditional ⟨condition, body, otherwise, _⟩ =>
    condition.members ++ Statement.allMembers body ++ otherwise.members
  | .forLoop _ iterable body _ => Expression.allMembers iterable ++ Statement.allMembers body
  | .whileLoop condition body _ => condition.members ++ Statement.allMembers body

/-- The members accessed in some statements. -/
def Statement.allMembers : List Statement → List String
  | [] => []
  | first :: rest => first.members ++ Statement.allMembers rest

/-- The members accessed in an alternative. -/
def Otherwise.members : Otherwise → List String
  | .nothing => []
  | .elseIf ⟨condition, body, otherwise, _⟩ =>
    condition.members ++ Statement.allMembers body ++ otherwise.members
  | .block body => Statement.allMembers body

end

/-! ## Accesses in programs -/

/-- An access of a member that is not called. -/
structure Access where
  name : String
  /-- The class whose definition stands around the access. -/
  owner : Option String
  /-- Whether the access stands in the default value of a parameter of a method. -/
  isDefault : Bool
deriving DecidableEq

/-- How the member of an access is spelled in the emitted code.  The default values of the
parameters of a method are not spelled as in its class. -/
def Access.spelled (a : Access) : String :=
  Target.memberName a.name (if a.isDefault then none else a.owner)

/-- Accesses in the body of a class, or outside all classes. -/
def Access.within (owner : Option String) (names : List String) : List Access :=
  names.map fun name => ⟨name, owner, false⟩

/-- Accesses in the default values of the parameters of a method. -/
def Access.inDefaults (owner : Option String) (parameters : List Parameter) : List Access :=
  (Parameter.allMembers parameters).map fun name => ⟨name, owner, true⟩

/-- The accesses in a method of the given class.  The parameters of a method are written for both of
its forms, in front of its body and behind it. -/
def FunctionDef.accesses (owner : String) (f : FunctionDef) : List Access :=
  Access.inDefaults owner f.parameters ++ Access.within owner (Statement.allMembers f.body) ++
    Access.inDefaults owner f.parameters

/-- The accesses in a class.  Nothing else in its body accesses members. -/
def ClassDef.accesses (c : ClassDef) : List Access :=
  c.methods.flatMap (FunctionDef.accesses c.name)

/-- The accesses in a statement outside all blocks. -/
def Statement.outerAccesses : Statement → List Access
  | .classDef c => c.accesses
  | s => Access.within none s.members

/-- The accesses in a program. -/
def Program.accesses (p : Program) : List Access := p.flatMap Statement.outerAccesses

/-- The class around an access is one of the program. -/
theorem exists_class_of_mem_accesses {program : Program} {a : Access}
    (ha : a ∈ Program.accesses program) {owner : String} (howner : a.owner = some owner) :
    ∃ c, .classDef c ∈ program ∧ c.name = owner := by
  obtain ⟨s, hs, ha⟩ := mem_flatMap.mp ha
  cases s with
  | classDef c =>
    refine ⟨c, hs, ?_⟩
    obtain ⟨f, -, ha⟩ := mem_flatMap.mp ha
    simp only [FunctionDef.accesses, Access.inDefaults, Access.within, mem_append,
      mem_map] at ha
    rcases ha with (⟨name, -, rfl⟩ | ⟨name, -, rfl⟩) |
      ⟨name, -, rfl⟩ <;> exact Option.some.inj howner
  | _ =>
    obtain ⟨name, -, rfl⟩ := mem_map.mp ha
    cases howner

end Offside
