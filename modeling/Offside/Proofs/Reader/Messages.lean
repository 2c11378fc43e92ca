import Offside.Proofs.Target.OneLine
import Offside.Proofs.Token.Words
import Offside.Reader.Basic

/-!
# Messages of a reader

What a reader says about a token has no control characters, if the names in the token are of its
kind.  So the message of an error is on one line (`isPrintable_unexpected`).
-/

namespace Offside

open Target List

variable {name s t u : String}

theorem isPrintable_join (hs : isPrintable s) (ht : isPrintable t) : isPrintable (s ++ t) := by
  rw [isPrintable_append, hs, ht]
  rfl

theorem isPrintable_between (hs : isPrintable s) (ht : isPrintable t) (hu : isPrintable u) :
    isPrintable (s ++ t ++ u) := isPrintable_join (isPrintable_join hs ht) hu

theorem isPrintable_repr (n : Nat) : isPrintable n.repr := isPrintable_toString n

/-- A text behind a location. -/
theorem isPrintable_located (h : isPrintable s) (l : Location) :
    isPrintable (l.text ++ ": " ++ s) :=
  have hplace :=
    isPrintable_between (isPrintable_repr l.line.toNat) (by decide)
    (isPrintable_repr l.column.toNat)
  isPrintable_between hplace (by decide) h

theorem isPrintable_of_isPlainName (h : isPlainName name) : isPrintable name :=
  isPrintable_of_isName (Julia.isName_of_isWord (isWord_of_isPlainName h))

/-- A text between quotes. -/
theorem isPrintable_quoted (h : isPrintable s) : isPrintable ("'" ++ s ++ "'") :=
  isPrintable_between (by decide) h (by decide)

theorem Binary64.isPrintable_text : ∀ value : Binary64, isPrintable value.text
  | .infinite => by decide
  | .finite significand exponent =>
    isPrintable_iff.mpr (isControl_of_isNumber (Binary64.isNumber_textWith _ significand exponent))

theorem Keyword.isPrintable_spelling (k : Keyword) : isPrintable k.spelling := by
  have hall : ∀ k ∈ Keyword.all, isPrintable k.spelling := by decide
  exact hall k (mem_of_find?_eq_some (ofWord?_spelling k))

theorem Delimiter.isPrintable_spelling (d : Delimiter) : isPrintable d.spelling := by
  cases d with
  | augmented op => cases op <;> decide
  | _ => decide

theorem Kind.isPrintable_describe {kind : Kind} (h : kind.isLexical) :
    isPrintable kind.describe := by
  cases kind with
  | keyword word => exact isPrintable_between (by decide) word.isPrintable_spelling (by decide)
  | delimiter mark => exact isPrintable_quoted mark.isPrintable_spelling
  | sumOp op => cases op <;> decide
  | termOp op => cases op <;> decide
  | comparison op => cases op <;> decide
  | integer value => exact isPrintable_join (by decide) (isPrintable_repr value)
  | float value => exact isPrintable_join (by decide) value.isPrintable_text
  | operator spelling =>
    have hsymbols : ∀ symbol ∈ symbols, isPrintable symbol.1 := by decide
    obtain ⟨symbol, hmem, hspelling⟩ := any_eq_true.mp h
    rw [← beq_iff_eq.mp hspelling]
    exact isPrintable_quoted (hsymbols symbol hmem)
  | function name =>
    have hname := isPlainName_of_mem_knownFunctions (contains_iff_mem.mp h)
    exact isPrintable_between (by decide) (isPrintable_of_isPlainName hname) (by decide)
  | identifier name => exact (by decide : isPrintable "identifier")
  | str text => exact (by decide : isPrintable "string literal")
  | formatted fragments => exact (by decide : isPrintable "f-string")
  | _ => decide

/-- The texts that the message of a semantic cause repeats. -/
def SemanticCause.parts : SemanticCause → List String
  | superOutsideMethod => []
  | duplicateClass name | superWithoutSuperclass name | nestedClass name => [name]
  | unsupportedTypeHint hint => [hint]
  | unsupportedClassStatement what => [what]
  | unsupportedAugmentedOperator operator => [operator]
  | unknownSuperclass name superclass => [name, superclass]
  | duplicateMethod name method _ | unknownMethod name method => [name, method]
  | unsupportedArity function _ expected => [function, expected]
  | unsupportedClassAttribute name member => [name, member]

/-- A semantic error that repeats texts without control characters only. -/
def SemanticError.IsNamed (e : SemanticError) : Prop :=
  ∀ part ∈ e.cause.parts, isPrintable part = true

/-- A message is printable if its parts are. -/
theorem SemanticCause.isPrintable_message {cause : SemanticCause}
    (h : ∀ part ∈ cause.parts, isPrintable part) :
    isPrintable cause.message := by
  cases cause with
  | superOutsideMethod => decide
  | unsupportedClassStatement what => exact isPrintable_join (by decide) (h what mem_cons_self)
  | duplicateMethod name method arity =>
    have hmethod := h method (by simp [parts])
    exact isPrintable_between
      (isPrintable_between (isPrintable_between (by decide) hmethod (by decide))
      (isPrintable_repr arity) (by decide)) (h name mem_cons_self) (by decide)
  | unsupportedArity function found expected =>
    have hfunction := h function mem_cons_self
    exact isPrintable_between
      (isPrintable_between (isPrintable_between (by decide) hfunction (by decide))
      (h expected (by simp [parts])) (by decide)) (isPrintable_repr found) (by decide)
  | unknownSuperclass name
    other | unknownMethod name other | unsupportedClassAttribute name other =>
    exact isPrintable_between (isPrintable_between (by decide) (h name mem_cons_self) (by decide))
      (h other (by simp [parts])) (by decide)
  | duplicateClass name | superWithoutSuperclass name | unsupportedTypeHint name | nestedClass name
  | unsupportedAugmentedOperator name =>
    exact isPrintable_between (by decide) (h name mem_cons_self) (by decide)

theorem SemanticError.IsNamed.message {e : SemanticError} (h : e.IsNamed) :
    isPrintable e.message := by
  have hcause := SemanticCause.isPrintable_message h
  unfold SemanticError.message
  split
  · exact isPrintable_located hcause _
  · exact hcause

/-- The message of an error at a token. -/
theorem Reader.isPrintable_unexpected (h : isPrintable s) {r : Reader}
    (hr : r.stream.peek.isLexical) (l : Location) :
    isPrintable (ReadError.grammar ⟨.unexpectedToken s r.found, l⟩).message := by
  have hfound : isPrintable r.found := by
    unfold Reader.found
    split
    · rename_i name hpeek
      rw [hpeek] at hr
      have hname := isPrintable_of_isPlainName (Bool.and_eq_true_iff.mp hr).1
      exact isPrintable_between (by decide) hname (by decide)
    · exact Kind.isPrintable_describe hr
  have hcause : isPrintable (GrammarCause.unexpectedToken s r.found).message :=
    isPrintable_join (isPrintable_join (isPrintable_join (by decide) h) (by decide)) hfound
  exact isPrintable_join (by decide) (isPrintable_located hcause l)

end Offside
