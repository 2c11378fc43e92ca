import Offside.Emit.Expression
import Offside.Proofs.Class.Registry
import Offside.Proofs.Outcome
import Offside.Proofs.Target.OneLine
import Offside.Proofs.Target.Parts

/-!
# Names in emitted expressions

An expression has names of the emitted language only if those that stand directly in it are such
names and its direct parts have only such names (`isLexical_eq`).  The names that are put into
emitted expressions are names of the emitted language: those of functions, and those of classes and
their methods.  None of them is a word that opens, divides or closes a block: keywords are no names,
and the other words of blocks are escaped.
-/

namespace Offside

variable {name : String}

/-- An entry that is found in a table is an entry of the table. -/
theorem mem_of_lookup {α : Type} {table : List (String × α)} {entry : α}
    (h : table.lookup name = some entry) : (name, entry) ∈ table := by
  obtain ⟨before, after, rfl, -⟩ := List.lookup_eq_some_iff.mp h
  simp

namespace Target

open Julia

/-- Whether the names that stand directly in an expression are names of the emitted language, and no
sign stands behind it if it is a sign. -/
def Code.isNamed : Code → Bool
  | .name text | .symbol text | .broadcast text _ | .statistic text _ | .methodCall text
    _ | .member _ text =>
    isName text
  | .staticCall owner method _ => isName owner && isName method
  | .sign _ operand => !operand.startsSigned
  | .spread _ => false
  | _ => true

theorem Code.restIsLexical_eq (rest : List (Operator × Code)) :
    Code.restIsLexical rest = Code.areLexical (rest.map Prod.snd) := by
  induction rest with
  | nil => rfl
  | cons operand rest ih => exact congrArg (operand.2.isLexical && ·) ih

theorem CodePart.areLexical_eq (parts : List CodePart) :
    CodePart.areLexical parts = Code.areLexical (parts.filterMap CodePart.code?) := by
  induction parts with
  | nil => rfl
  | cons part parts ih =>
    cases part with
    | literal text => exact ih
    | embedded code => exact congrArg (code.isLexical && ·) ih

/-- All names in an expression are names if those in it and those in its direct parts are. -/
theorem Code.isLexical_of_children {code : Code} (h : code.isNamed)
    (hchildren : Code.areLexical code.children) : code.isLexical := by
  cases code with
  | str parts => rwa [Code.isLexical, CodePart.areLexical_eq]
  | chain first rest => rwa [Code.isLexical, Code.restIsLexical_eq]
  | range first step last =>
    cases step <;> simp_all [Code.children, Code.isLexical, Code.areLexical]
  | _ => simp_all [Code.children, Code.isLexical, Code.areLexical, Code.isNamed]

end Target

end Offside

namespace Offside.Emit

open Julia Target

/-- Whether the names that a scope adds to expressions are words. -/
def Scope.isLexical (scope : Scope) : Bool :=
  (scope.registry.latestFirst.all fun c => Text.isWord c.name && c.superclass.all Text.isWord) &&
    scope.className.all Text.isWord && scope.receiver.all Text.isWord

/-- A scope without classes. -/
def plainScope : Scope where
  registry := .empty
  layouts := []

theorem lexical_nameCode (h : Text.isWord name) :
    (nameCode name).isLexical :=
  isName_escape (isName_of_isWord h)

/-! ## First words -/

theorem escape_of_not_mem (h : name ∉ reservedWords) : escape name = name :=
  if_neg h

theorem isName_escape_of_isPlainName (h : isPlainName name) :
    isName (escape name) :=
  isName_escape (isName_of_isWord (isWord_of_isPlainName h))

/-- A name of the source is not emitted as a word of blocks. -/
theorem escape_not_mem_blockWords (h : isPlainName name) :
    escape name ∉ blockWords := by
  have hescaped : ∀ word ∈ reservedWords, word ++ "_" ∉ blockWords := by decide
  have hwords : ∀ word ∈ blockWords, word ∈ reservedWords ∨ isPlainName word = false := by decide
  by_cases hreserved : name ∈ reservedWords
  · rw [escape, if_pos hreserved]
    exact hescaped name hreserved
  · rw [escape_of_not_mem hreserved]
    intro hblock
    rcases hwords name hblock with hmem | hplain
    · exact hreserved hmem
    · exact absurd h (by simp [hplain])

/-- The same holds of a member: the name of a class is put behind an underscore. -/
theorem memberName_not_mem_blockWords (h : isPlainName name) (owner : Option String) :
    memberName name owner ∉ blockWords := by
  have hunderscore : ∀ word ∈ reservedWords ++ blockWords, word.toList.head? ≠ some '_' := by decide
  have hmangled (rest : String) : escape ("_" ++ rest) ∉ blockWords := by
    have hhead : ("_" ++ rest).toList.head? = some '_' := by simp
    have hmem : "_" ++ rest ∉ reservedWords ++ blockWords := fun hmem => hunderscore _ hmem hhead
    rw [List.mem_append, not_or] at hmem
    rw [escape_of_not_mem hmem.1]
    exact hmem.2
  unfold memberName mangle
  split
  · exact escape_not_mem_blockWords h
  · split
    · rw [String.append_assoc]
      exact hmangled _
    · exact escape_not_mem_blockWords h

theorem startsPlain_nameCode (h : isPlainName name) :
    (nameCode name).startsPlain := by
  simp [nameCode, Code.startsPlain, escape_not_mem_blockWords h]

theorem startsPlain_groupIf {needed : Bool} {code : Code} (h : code.startsPlain) :
    (groupIf needed code).startsPlain := by
  cases needed
  · exact h
  · rfl

/-! ## Classes -/

section Classes

variable {scope : Scope} (hscope : scope.isLexical = true)

include hscope

theorem isWord_of_mem_registry {c : ClassDef} (hc : c ∈ scope.registry.latestFirst) :
    Text.isWord c.name ∧ ∀ s ∈ c.superclass, Text.isWord s := by
  simp only [Scope.isLexical, Bool.and_eq_true, List.all_eq_true, Option.all_eq_true] at hscope
  exact hscope.1.1 c hc

theorem isWord_className : ∀ name ∈ scope.className, Text.isWord name := by
  simp only [Scope.isLexical, Bool.and_eq_true, Option.all_eq_true] at hscope
  exact hscope.1.2

theorem isWord_receiver : ∀ name ∈ scope.receiver, Text.isWord name := by
  simp only [Scope.isLexical, Bool.and_eq_true, Option.all_eq_true] at hscope
  exact hscope.2

theorem isWord_of_owner? {className method : String} {owner : ClassDef}
    (h : scope.registry.owner? className method = some owner) : Text.isWord owner.name :=
  (isWord_of_mem_registry hscope (ClassRegistry.mem_of_mem_chain (List.mem_of_find?_eq_some h))).1

theorem isNamed_staticTarget {className method : String} {location : Location}
    {target : String × String} (hclass : Text.isWord className) (hmethod : isPlainName method)
    (h : staticTarget scope className method location = .ok target) (arguments : List Code) :
    (Code.staticCall target.1 target.2 arguments).isNamed := by
  have htarget {owner : String} (howner : Text.isWord owner) :
      (Code.staticCall (escape owner) (memberName method owner) arguments).isNamed :=
    Bool.and_eq_true_iff.mpr ⟨isName_escape (isName_of_isWord howner),
      isName_memberName (isWord_of_isPlainName hmethod) (by simpa using howner)⟩
  unfold staticTarget at h
  split at h
  · rename_i owner howner
    cases h
    exact htarget (isWord_of_owner? hscope howner)
  · split at h
    · cases h
      exact htarget hclass
    · cases h

theorem isWord_superTarget {superclass : Option String} {location : Location}
    {start : String × String} (hsuper : ∀ s ∈ superclass, Text.isWord s)
    (h : superTarget scope superclass location = .ok start) :
    Text.isWord start.1 ∧ Text.isWord start.2 := by
  unfold superTarget at h
  split at h
  · rename_i className receiver _ hreceiver
    have hword := isWord_receiver hscope receiver hreceiver
    split at h
    · rename_i name
      split at h
      · cases h
        exact ⟨hword, hsuper name rfl⟩
      · cases h
    · split at h
      · rename_i name hname
        cases h
        obtain ⟨c, hc, hsuperclass⟩ := Option.bind_eq_some_iff.mp hname
        exact ⟨hword, (isWord_of_mem_registry hscope (List.mem_of_find?_eq_some hc)).2
          name hsuperclass⟩
      · cases h
  · cases h

end Classes

/-- What holds of all forms in the table, and of calls that keep their form, holds of the form of
every call. -/
theorem forall_callForm {p : CallForm → Bool} (h : callForms.all (p ·.2)) (hkept : p .passThrough)
    (name : String) : p (callForm name) := by
  unfold callForm
  cases hlookup : callForms.lookup name with
  | none => exact hkept
  | some form => exact List.all_eq_true.mp h _ (mem_of_lookup hlookup)

/-- The functions that calls are renamed to have names of the emitted language, and are no words of
blocks. -/
theorem of_callForm {name function : String}
    (h : callForm name = .rename function ∨ callForm name = .elementwise function ∨
      callForm name = .statistics function) : isName function ∧ function ∉ blockWords := by
  have hform := forall_callForm (p := fun form => match form with
    | .rename function | .elementwise function | .statistics function =>
      isName function && decide (function ∉ blockWords)
    | _ => true) (by decide) rfl name
  rcases h with h | h | h
  all_goals
    rw [h] at hform
    obtain ⟨hname, hword⟩ := Bool.and_eq_true_iff.mp hform
    exact ⟨hname, of_decide_eq_true hword⟩

/-! ## Expressions -/

section Expressions

variable {scope : Scope}

/-- The code of a bound of a slice.  A bound that is left out is the first or the last index. -/
inductive IsEnd (scope : Scope) : Option Expression → Code → Prop
  | given {e : Expression} {kind : Bound} {code : Code} (h : bound scope kind e = .ok code) :
    IsEnd scope (some e) code
  | first : IsEnd scope none (.integer 1)
  | last : IsEnd scope none .lastIndex

/-- The code of a slice with the given step between two ends. -/
def sliceBetween (scope : Scope) (step : Option Expression) (first last : Code) :
    Except SemanticError Code :=
  match step with
  | some step => do return .range first (some (← expression scope step)) last
  | none => return .range first none last

/-- The code of a slice, put together from its bounds and its step. -/
theorem subscript_range_cases {lower upper step : Option Expression} {code : Code}
    (h : subscript scope (.range lower upper step) = .ok code) :
    (code = .everything ∧ lower = none ∧ upper = none ∧ step = none) ∨
      ∃ first last, IsEnd scope lower first ∧ IsEnd scope upper last ∧
        ((code = .range first none last ∧ step = none) ∨
          ∃ e ∈ step, ∃ stepCode, expression scope e = .ok stepCode ∧
            code = .range first (some stepCode) last) := by
  rw [subscript.eq_def] at h
  split at h
  · rename_i heq
    cases heq
  · rename_i heq
    cases heq
    cases h
    exact .inl ⟨rfl, rfl, rfl, rfl⟩
  · rename_i heq
    cases heq
    have hdescending (b : Bool) : IsEnd scope none (if b then .lastIndex else .integer 1) ∧
        IsEnd scope none (if b then .integer 1 else .lastIndex) := by
      cases b
      · exact ⟨.first, .last⟩
      · exact ⟨.last, .first⟩
    obtain ⟨first, last, hfirst, hlast, h⟩ : ∃ first last : Code, IsEnd scope lower first ∧
        IsEnd scope upper last ∧ sliceBetween scope step first last = .ok code := by
      cases lower with
      | none =>
        cases upper with
        | none => exact ⟨_, _, (hdescending _).1, (hdescending _).2, h⟩
        | some upper =>
          obtain ⟨first, hfirst, h⟩ := exists_of_bind_eq_ok h
          cases hfirst
          obtain ⟨last, hlast, h⟩ := exists_of_bind_eq_ok h
          exact ⟨_, last, (hdescending _).1, .given hlast, h⟩
      | some lower =>
        obtain ⟨first, hfirst, h⟩ := exists_of_bind_eq_ok h
        cases upper with
        | none => exact ⟨first, _, .given hfirst, (hdescending _).2, h⟩
        | some upper =>
          obtain ⟨last, hlast, h⟩ := exists_of_bind_eq_ok h
          exact ⟨first, last, .given hfirst, .given hlast, h⟩
    refine .inr ⟨first, last, hfirst, hlast, ?_⟩
    cases step with
    | none =>
      cases h
      exact .inl ⟨rfl, rfl⟩
    | some step =>
      obtain ⟨stepCode, hcode, rfl⟩ := exists_of_map_eq_ok h
      exact .inr ⟨step, rfl, stepCode, hcode, rfl⟩

end Expressions

end Offside.Emit

/-! ## Calls of known functions -/

namespace Offside

/-- The call of a known function that an expression is, if nothing is accessed through it. -/
def Expr.call? : Expr → Option FunctionCall
  | .primary ⟨.library call, [], _⟩ | .primary ⟨.builtin call, [], _⟩ => some call
  | _ => none

namespace Emit

theorem operators_of_call? {e : Expr} {call : FunctionCall} (h : e.call? = some call)
    (scope : Scope) : operators scope e = functionCall scope call := by
  unfold Expr.call? at h
  split at h
  · cases h
    exact bind_pure _
  · cases h
    exact bind_pure _
  · cases h

theorem isWellFormed_of_call? {e : Expr} {call : FunctionCall} (h : e.call? = some call)
    (he : e.isWellFormed) : call.isWellFormed := by
  unfold Expr.call? at h
  split at h
  · cases h
    simp only [Expr.isWellFormed, Primary.isWellFormed, Bool.and_eq_true] at he
    exact he.1.1
  · cases h
    simp only [Expr.isWellFormed, Primary.isWellFormed, Atom.isWellFormed, Bool.and_eq_true] at he
    exact he.1.1.2
  · cases h

end Emit

end Offside
