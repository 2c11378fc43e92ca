import Offside.Proofs.Tree.Members

/-!
# Traces

What is followed from the source into the emitted code: the members that are accessed, the calls by
name, and the words that are written.  A known function is a word of its own kind where it is called
by its name or through the qualifier of the numerical library; a method of the same name is a word
like any other.
-/

namespace Offside

open List

/-- The function of the statistics library that the calls of a form are calls of. -/
def Emit.CallForm.statistic? : Emit.CallForm → Option String
  | .statistics function => some function
  | _ => none

/-- The functions of the statistics library that known functions become. -/
def statisticsFunctions : List String := ["mean", "median", "std"]

/-- A word of the source: a known function that is called, or any other name. -/
inductive Word
  | function (name : String)
  | other (name : String)
deriving DecidableEq

/-- Whether a word is a call of a function of the statistics library. -/
def Word.isStatistic : Word → Bool
  | .function name => (Emit.callForm name).statistic?.isSome
  | .other _ => false

/-- The first words are among the second, which have no other calls of functions of the statistics
library. -/
structure Word.Within (words words' : List Word) : Prop where
  subset : words ⊆ words'
  statistics : ∀ w ∈ words', w.isStatistic = true → w ∈ words

theorem Word.Within.any_isStatistic {words words' : List Word} (h : Word.Within words words') :
    words.any Word.isStatistic = words'.any Word.isStatistic := by
  rw [Bool.eq_iff_iff, any_eq_true, any_eq_true]
  constructor
  · rintro ⟨w, hw, hstatistic⟩
    exact ⟨w, h.subset hw, hstatistic⟩
  · rintro ⟨w, hw, hstatistic⟩
    exact ⟨w, h.statistics w hw hstatistic, hstatistic⟩

theorem Word.Within.of_perm {words words' : List Word} (h : words.Perm words') :
    Word.Within words words' :=
  ⟨h.subset, fun _ hw _ => h.mem_iff.mpr hw⟩

mutual

/-- The words of an expression. -/
def Expression.words : Expression → List Word
  | ⟨tree, _⟩ => tree.words

/-- The words of some expressions. -/
def Expression.allWords : List Expression → List Word
  | [] => []
  | first :: rest => first.words ++ Expression.allWords rest

/-- The words of operators and their operands. -/
def Expr.words : Expr → List Word
  | .or first rest => first.words ++ Expr.allWords rest
  | .and first rest => first.words ++ Expr.allWords rest
  | .not operand => operand.words
  | .compare first rest => first.words ++ Expr.comparisonWords rest
  | .sum first rest => first.words ++ Expr.sumWords rest
  | .product first rest => first.words ++ Expr.productWords rest
  | .sign _ operand => operand.words
  | .power base exponent => base.words ++ exponent.words
  | .primary operand => operand.words

/-- The words of operands behind one operator. -/
def Expr.allWords : List Expr → List Word
  | [] => []
  | first :: rest => first.words ++ Expr.allWords rest

/-- The words of operands behind comparisons. -/
def Expr.comparisonWords : List (Comparison × Expr) → List Word
  | [] => []
  | (_, first) :: rest => first.words ++ Expr.comparisonWords rest

/-- The words of operands behind sum operators. -/
def Expr.sumWords : List (SumOp × Expr) → List Word
  | [] => []
  | (_, first) :: rest => first.words ++ Expr.sumWords rest

/-- The words of operands behind product operators. -/
def Expr.productWords : List (TermOp × Expr) → List Word
  | [] => []
  | (_, first) :: rest => first.words ++ Expr.productWords rest

/-- The words of an atom and of what is accessed through it. -/
def Primary.words : Primary → List Word
  | ⟨atom, trailers, _⟩ => atom.words ++ Trailer.allWords trailers

/-- The words of an atom. -/
def Atom.words : Atom → List Word
  | .name name => [.other name]
  | .boolean _ | .none | .integer _ | .float _ | .str _ => []
  | .formatted parts => FormattedPart.allWords parts
  | .group inner => inner.words
  | .list elements => Expression.allWords elements
  | .library ⟨name, ⟨values, _⟩, _⟩ | .builtin ⟨name, ⟨values, _⟩, _⟩ =>
    .function name :: Expression.allWords values
  | .super ⟨_, _, ⟨values, _⟩, _⟩ => Expression.allWords values

/-- The words of the parts of a formatted string. -/
def FormattedPart.allWords : List FormattedPart → List Word
  | [] => []
  | .literal _ :: rest => FormattedPart.allWords rest
  | .embedded inner :: rest => inner.words ++ FormattedPart.allWords rest

/-- The words of trailers. -/
def Trailer.allWords : List Trailer → List Word
  | [] => []
  | .member name _ :: rest => .other name :: Trailer.allWords rest
  | .call ⟨values, _⟩ :: rest => Expression.allWords values ++ Trailer.allWords rest
  | .subscript slices :: rest => Slice.allWords slices ++ Trailer.allWords rest

/-- The words of the parts of a subscript. -/
def Slice.allWords : List Slice → List Word
  | [] => []
  | .index index :: rest => index.words ++ Slice.allWords rest
  | .range lower upper step :: rest =>
    Expression.optionalWords lower ++
      (Expression.optionalWords step ++ Expression.optionalWords upper) ++ Slice.allWords rest

/-- The words of an expression that may be left out. -/
def Expression.optionalWords : Option Expression → List Word
  | none => []
  | some e => e.words

end

/-- The words of a target of an assignment. -/
def Declaration.words (d : Declaration) : List Word := .other d.name :: Trailer.allWords d.accesses

/-- The words of the default values of some parameters. -/
def Parameter.allWords : List Parameter → List Word
  | [] => []
  | first :: rest => Expression.optionalWords first.default ++ Parameter.allWords rest

mutual

/-- The words of a statement. -/
def Statement.words : Statement → List Word
  | .assign a => a.targets.flatMap Declaration.words ++ Expression.allWords a.value
  | .superCall call => Expression.allWords call.arguments.values
  | .returns none _ | .pass | .breaks | .continues => []
  | .returns (some values) _ | .expressions values => Expression.allWords values
  | .function ⟨_, parameters, _, body, _⟩ =>
    Parameter.allWords parameters ++ Statement.allWords body
  | .classDef ⟨_, _, body, _, _⟩ => Statement.allWords body
  | .conditional ⟨condition, body, otherwise, _⟩ =>
    condition.words ++ Statement.allWords body ++ otherwise.words
  | .forLoop _ iterable body _ => Expression.allWords iterable ++ Statement.allWords body
  | .whileLoop condition body _ => condition.words ++ Statement.allWords body

/-- The words of some statements. -/
def Statement.allWords : List Statement → List Word
  | [] => []
  | first :: rest => first.words ++ Statement.allWords rest

/-- The words of an alternative. -/
def Otherwise.words : Otherwise → List Word
  | .nothing => []
  | .elseIf ⟨condition, body, otherwise, _⟩ =>
    condition.words ++ Statement.allWords body ++ otherwise.words
  | .block body => Statement.allWords body

end

/-- Whether a function of the statistics library is called in some statements, by its name or
through the qualifier. -/
def Statement.anyStatistics (statements : List Statement) : Bool :=
  (Statement.allWords statements).any Word.isStatistic

/-- What is followed from the source into the emitted code. -/
@[ext] structure Trace where
  /-- The members that are accessed, as they are written in the source. -/
  names : List String := []
  calls : List NamedCall := []
  words : List Word := []

namespace Trace

instance : Append Trace :=
  ⟨fun t t' => ⟨t.names ++ t'.names, t.calls ++ t'.calls, t.words ++ t'.words⟩⟩

theorem append_def (t t' : Trace) :
    t ++ t' = ⟨t.names ++ t'.names, t.calls ++ t'.calls, t.words ++ t'.words⟩ := rfl

theorem append_nil (t : Trace) : t ++ ({} : Trace) = t :=
  Trace.ext (List.append_nil _) (List.append_nil _) (List.append_nil _)

theorem append_assoc (t t' t'' : Trace) : t ++ t' ++ t'' = t ++ (t' ++ t'') :=
  Trace.ext (List.append_assoc ..) (List.append_assoc ..) (List.append_assoc ..)

end Trace

def Expr.trace (e : Expr) : Trace := ⟨e.members, e.calls, e.words⟩

def Expression.trace (e : Expression) : Trace := ⟨e.members, e.calls, e.words⟩

theorem Expression.trace_eq (tree : Expr) (span : Span) :
    Expression.trace ⟨tree, span⟩ = tree.trace := rfl

def Expression.allTrace (es : List Expression) : Trace :=
  ⟨Expression.allMembers es, Expression.allCalls es, Expression.allWords es⟩

theorem Expression.allTrace_singleton (e : Expression) : Expression.allTrace [e] = e.trace :=
  Trace.append_nil e.trace

def Expression.optionalTrace (e : Option Expression) : Trace :=
  ⟨Expression.optionalMembers e, Expression.optionalCalls e, Expression.optionalWords e⟩

def Primary.trace (p : Primary) : Trace := ⟨p.members, p.calls, p.words⟩

def Atom.trace (a : Atom) : Trace := ⟨a.members, a.calls, a.words⟩

def Trailer.allTrace (trailers : List Trailer) : Trace :=
  ⟨Trailer.allMembers trailers, Trailer.allCalls trailers, Trailer.allWords trailers⟩

def Declaration.allTrace (targets : List Declaration) : Trace :=
  ⟨targets.flatMap Declaration.members, targets.flatMap Declaration.calls,
    targets.flatMap Declaration.words⟩

def Parameter.allTrace (parameters : List Parameter) : Trace :=
  ⟨Parameter.allMembers parameters, Parameter.allCalls parameters, Parameter.allWords parameters⟩

theorem Expression.allTrace_of_isDocstring {list : List Expression} (h : isDocstring list) :
    Expression.allTrace list = {} := by
  unfold isDocstring at h
  split at h
  · rfl
  · cases h

/-- An integer with signs leaves no trace. -/
theorem Expr.trace_of_integer? {tree : Expr} {value : Int} (h : tree.integer? = some value) :
    tree.trace = {} := by
  fun_induction Expr.integer? tree generalizing value with
  | case1 operand ih =>
    obtain ⟨inner, hinner, -⟩ := Option.map_eq_some_iff.mp h
    exact ih hinner
  | case2 operand ih => exact ih h
  | case3 p =>
    obtain ⟨atom, trailers, span⟩ := p
    unfold Primary.integer? at h
    split at h
    · rename_i hatom htrailers
      dsimp only at hatom htrailers
      rw [hatom, htrailers]
      rfl
    · cases h
  | case4 => cases h

end Offside
