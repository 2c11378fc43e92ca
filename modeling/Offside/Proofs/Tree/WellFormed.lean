import Offside.Proofs.Traversal
import Offside.Token.Vocabulary
import Offside.Text.Word
import Offside.Tree.Expression

/-!
# Well-formed expressions

The trees that stand for expressions of the source.  An operand never has a looser operator than its
place in the grammar allows, a node of operators has at least one operator, and every name is a word
that is free for names.
-/

namespace Offside

open List

/-- Whether a text is a word. -/
def Text.isWord (text : String) : Bool :=
  match text.toList with
  | [] => false
  | c :: cs => isWordStart c && cs.all isWordPart

/-- Whether a word can name something: it is neither a keyword nor the qualifier of the library. -/
def isPlainName (name : String) : Bool :=
  Text.isWord name && (Keyword.ofWord? name).isNone && name != libraryName

theorem isWord_of_isPlainName {name : String} (h : isPlainName name) : Text.isWord name := by
  simp only [isPlainName, Bool.and_eq_true] at h
  exact h.1.1

/-- Whether a name would be taken for the function of a call if a call followed it. -/
def isCallWord (name : String) : Bool := name == "super" || knownFunctions.contains name

/-- Whether a call follows a name that would be taken for the function of that call. -/
def takesCall : Atom → List Trailer → Bool
  | .name name, .call _ :: _ => isCallWord name
  | _, _ => false

/-- An operand that is a name. -/
def nameOperand (name : String) : Expr := .primary ⟨.name name, [], {}⟩

/-- The level of the outermost operator in the grammar of the source, the loosest first.  Signs,
powers and what has no operator outside brackets are on the last level. -/
def Expr.rank : Expr → Nat
  | .or .. => 0
  | .and .. => 1
  | .not _ => 2
  | .compare .. => 3
  | .sum .. => 4
  | .product .. => 5
  | .sign .. | .power .. | .primary _ => 6

theorem Expr.rank_le (e : Expr) : e.rank ≤ 6 := by
  cases e <;> simp [rank]

mutual

/-- Whether operators and operands are well-formed. -/
def Expr.isWellFormed : Expr → Bool
  | .or first rest =>
    decide (1 ≤ first.rank) && first.isWellFormed && !rest.isEmpty && Expr.areWellFormed 1 rest
  | .and first rest =>
    decide (2 ≤ first.rank) && first.isWellFormed && !rest.isEmpty && Expr.areWellFormed 2 rest
  | .not operand => decide (2 ≤ operand.rank) && operand.isWellFormed
  | .compare first rest => decide (4 ≤ first.rank) && first.isWellFormed && !rest.isEmpty &&
      Expr.comparedWellFormed rest
  | .sum first rest =>
    decide (5 ≤ first.rank) && first.isWellFormed && !rest.isEmpty && Expr.addedWellFormed rest
  | .product first rest => decide (6 ≤ first.rank) && first.isWellFormed && !rest.isEmpty &&
      Expr.multipliedWellFormed rest
  | .sign _ operand => decide (6 ≤ operand.rank) && operand.isWellFormed
  | .power base exponent => base.isWellFormed && decide (6 ≤ exponent.rank) && exponent.isWellFormed
  | .primary operand => operand.isWellFormed

/-- Whether operands of at least the given level are well-formed. -/
def Expr.areWellFormed (rank : Nat) : List Expr → Bool
  | [] => true
  | e :: rest => decide (rank ≤ e.rank) && e.isWellFormed && Expr.areWellFormed rank rest

/-- Whether the operands of comparisons are well-formed. -/
def Expr.comparedWellFormed : List (Comparison × Expr) → Bool
  | [] => true
  | (_, e) :: rest => decide (4 ≤ e.rank) && e.isWellFormed && Expr.comparedWellFormed rest

/-- Whether the operands of a sum are well-formed. -/
def Expr.addedWellFormed : List (SumOp × Expr) → Bool
  | [] => true
  | (_, e) :: rest => decide (5 ≤ e.rank) && e.isWellFormed && Expr.addedWellFormed rest

/-- Whether the operands of a product are well-formed. -/
def Expr.multipliedWellFormed : List (TermOp × Expr) → Bool
  | [] => true
  | (_, e) :: rest => decide (6 ≤ e.rank) && e.isWellFormed && Expr.multipliedWellFormed rest

/-- Whether an expression is well-formed. -/
def Expression.isWellFormed : Expression → Bool
  | ⟨tree, _⟩ => tree.isWellFormed

/-- Whether some expressions are well-formed. -/
def Expression.areWellFormed : List Expression → Bool
  | [] => true
  | e :: rest => e.isWellFormed && Expression.areWellFormed rest

/-- Whether an expression that may be left out is well-formed. -/
def Expression.isWellFormed? : Option Expression → Bool
  | none => true
  | some e => e.isWellFormed

/-- Whether an atom and what is accessed through it are well-formed. -/
def Primary.isWellFormed : Primary → Bool
  | ⟨atom, trailers, _⟩ =>
    atom.isWellFormed && Trailer.areWellFormed trailers && !takesCall atom trailers

/-- Whether an atom is well-formed. -/
def Atom.isWellFormed : Atom → Bool
  | .name name => isPlainName name
  | .boolean _ | .none | .integer _ | .float _ | .str _ => true
  | .formatted parts => FormattedPart.areWellFormed parts
  | .group inner => inner.isWellFormed
  | .list elements => Expression.areWellFormed elements
  | .library call => call.isWellFormed
  | .builtin call => knownFunctions.contains call.name && call.isWellFormed
  | .super call => call.isWellFormed

/-- Whether the parts of a formatted string are well-formed. -/
def FormattedPart.areWellFormed : List FormattedPart → Bool
  | [] => true
  | .literal _ :: rest => FormattedPart.areWellFormed rest
  | .embedded e :: rest => e.isWellFormed && FormattedPart.areWellFormed rest

/-- Whether some accesses are well-formed. -/
def Trailer.areWellFormed : List Trailer → Bool
  | [] => true
  | .member name _ :: rest => isPlainName name && Trailer.areWellFormed rest
  | .call arguments :: rest => arguments.isWellFormed && Trailer.areWellFormed rest
  | .subscript slices :: rest =>
    !slices.isEmpty && Slice.areWellFormed slices && Trailer.areWellFormed rest

/-- Whether the parts of a subscript are well-formed. -/
def Slice.areWellFormed : List Slice → Bool
  | [] => true
  | .index index :: rest => index.isWellFormed && Slice.areWellFormed rest
  | .range lower upper step :: rest =>
    Expression.isWellFormed? lower && Expression.isWellFormed? upper &&
      Expression.isWellFormed? step && Slice.areWellFormed rest

/-- Whether the arguments of a call are well-formed. -/
def Arguments.isWellFormed : Arguments → Bool
  | ⟨values, _⟩ => Expression.areWellFormed values

/-- Whether a call of a function is well-formed. -/
def FunctionCall.isWellFormed : FunctionCall → Bool
  | ⟨name, arguments, _⟩ => isPlainName name && arguments.isWellFormed

/-- Whether a call of a method of a superclass is well-formed. -/
def SuperCall.isWellFormed : SuperCall → Bool
  | ⟨superclass, method, arguments, _⟩ =>
    superclass.all isPlainName && isPlainName method && arguments.isWellFormed

end

/-! ## Members of lists -/

theorem Expr.areWellFormed_iff {rank : Nat} {es : List Expr} :
    Expr.areWellFormed rank es ↔ ∀ e ∈ es, rank ≤ e.rank ∧ e.isWellFormed :=
  test_iff_of_cons rfl fun _ _ => by simp [Expr.areWellFormed]

theorem Expr.comparedWellFormed_iff {es : List (Comparison × Expr)} :
    Expr.comparedWellFormed es ↔ ∀ x ∈ es, 4 ≤ x.2.rank ∧ x.2.isWellFormed :=
  test_iff_of_cons rfl fun _ _ => by simp [Expr.comparedWellFormed]

theorem Expr.addedWellFormed_iff {es : List (SumOp × Expr)} :
    Expr.addedWellFormed es ↔ ∀ x ∈ es, 5 ≤ x.2.rank ∧ x.2.isWellFormed :=
  test_iff_of_cons rfl fun _ _ => by simp [Expr.addedWellFormed]

theorem Expr.multipliedWellFormed_iff {es : List (TermOp × Expr)} :
    Expr.multipliedWellFormed es ↔ ∀ x ∈ es, 6 ≤ x.2.rank ∧ x.2.isWellFormed :=
  test_iff_of_cons rfl fun _ _ => by simp [Expr.multipliedWellFormed]

theorem Expression.areWellFormed_iff {es : List Expression} :
    Expression.areWellFormed es ↔ ∀ e ∈ es, e.isWellFormed :=
  test_iff_of_cons rfl fun _ _ => Bool.and_eq_true_iff

end Offside
