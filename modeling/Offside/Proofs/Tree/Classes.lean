import Offside.Proofs.Tree.WellFormedProgram

/-!
# Statements without classes

Classes are defined outside all blocks.  A statement that stands in a block defines no class, and no
statement inside it does.
-/

namespace Offside

open List

mutual

/-- Whether neither a statement nor a statement inside it defines a class. -/
def Statement.isClassFree : Statement → Bool
  | .function ⟨_, _, _, body, _⟩ => Statement.areClassFree body
  | .classDef _ => false
  | .conditional branch => branch.isClassFree
  | .forLoop _ _ body _ | .whileLoop _ body _ => Statement.areClassFree body
  | .assign _ | .superCall _ | .returns _ _ | .pass | .breaks | .continues | .expressions _ => true

/-- Whether the statements of a block define no class. -/
def Statement.areClassFree : List Statement → Bool
  | [] => true
  | statement :: rest => statement.isClassFree && Statement.areClassFree rest

/-- Whether the blocks behind a condition define no class. -/
def Conditional.isClassFree : Conditional → Bool
  | ⟨_, body, otherwise, _⟩ => Statement.areClassFree body && otherwise.isClassFree

/-- Whether what is done otherwise defines no class. -/
def Otherwise.isClassFree : Otherwise → Bool
  | .nothing => true
  | .elseIf branch => branch.isClassFree
  | .block body => Statement.areClassFree body

end

theorem Statement.areClassFree_iff {statements : List Statement} :
    Statement.areClassFree statements ↔ ∀ s ∈ statements, s.isClassFree :=
  test_iff_of_cons rfl fun _ _ => Bool.and_eq_true_iff

theorem Statement.isClassFree_function (f : FunctionDef) :
    (Statement.function f).isClassFree = Statement.areClassFree f.body := by
  cases f
  rfl

theorem Statement.class?_of_isClassFree {s : Statement} (h : s.isClassFree) : s.class? = none := by
  cases s with
  | classDef c => cases h
  | _ => rfl

theorem mem_filterMap_class? {p : Program} {c : ClassDef} :
    c ∈ p.filterMap Statement.class? ↔ .classDef c ∈ p := by
  rw [mem_filterMap]
  constructor
  · rintro ⟨s, hs, hclass⟩
    cases s with
    | classDef d =>
      cases hclass
      exact hs
    | _ => cases hclass
  · intro hc
    exact ⟨.classDef c, hc, rfl⟩

theorem mem_classNames {source : Program} {name : String} :
    name ∈ classNames source ↔ ∃ c, .classDef c ∈ source ∧ c.name = name := by
  rw [classNames, mem_map]
  simp only [mem_filterMap_class?]

theorem classNames_append (before after : Program) :
    classNames (before ++ after) = classNames before ++ classNames after := by
  rw [classNames, filterMap_append, map_append]
  rfl

theorem classNames_of_isClassFree {s : Statement} (h : s.isClassFree) : classNames [s] = [] := by
  rw [classNames, filterMap_cons_none (Statement.class?_of_isClassFree h)]
  rfl

/-- A statement outside all blocks: it defines no class, or it is the definition of a class whose
body defines none. -/
inductive Statement.IsOuter : Statement → Prop
  | classFree {s : Statement} (h : s.isClassFree = true) : IsOuter s
  | classDef {c : ClassDef} (h : Statement.areClassFree c.body = true) : IsOuter (.classDef c)

end Offside
