import Offside.Source.Location
import Offside.Text.Quoted

/-!
# Errors

A source text can be refused for its spelling, for its grammar or for its meaning.  Each error is a
cause together with the location it was found at, and its message is written in one place.
-/

namespace Offside

/-! ## Spelling -/

/-- Why a text cannot be cut into tokens. -/
inductive LexicalCause
  | unexpectedCharacter (c : Char)
  | leadingZero
  | missingFractionDigits
  | missingExponentDigits
  | invalidNumberSuffix (c : Char)
  | integerOutOfRange (digits : String)
  | unterminatedString
  | incompleteEscape
  | invalidIndentation (width : Nat)
  | tabInIndentation
  | inconsistentDedent
  | unmatchedBrace
  | emptyEmbedded
  | unterminatedEmbedded
deriving DecidableEq, Repr, Inhabited

/-- The text of a lexical cause. -/
def LexicalCause.message : LexicalCause → String
  | unexpectedCharacter c => "unexpected character " ++ Text.quotedChar c
  | leadingZero => "leading zeros in integer literals are not permitted"
  | missingFractionDigits => "expected digits after the decimal point"
  | missingExponentDigits => "expected digits in the exponent"
  | invalidNumberSuffix c =>
    "invalid character " ++ Text.quotedChar c ++ " directly after a number"
  | integerOutOfRange digits => "integer literal " ++ digits ++ " does not fit in 64 bits"
  | unterminatedString => "unterminated string literal"
  | incompleteEscape => "incomplete escape sequence at end of input"
  | invalidIndentation width =>
    "indentation of " ++ toString width ++ " spaces is not a multiple of the 4-space unit"
  | tabInIndentation => "tabs are not allowed in indentation"
  | inconsistentDedent => "unindent does not match any outer indentation level"
  | unmatchedBrace => "single '\x7d' is not allowed in an f-string"
  | emptyEmbedded => "empty expression is not allowed in an f-string"
  | unterminatedEmbedded => "expected '\x7d' to close the f-string expression"

/-- A lexical cause and where it was found. -/
structure LexicalError where
  cause : LexicalCause
  location : Location
deriving DecidableEq, Repr, Inhabited

/-- The text of a lexical error. -/
def LexicalError.message (e : LexicalError) : String :=
  e.location.text ++ ": " ++ e.cause.message

/-! ## Grammar -/

/-- Why tokens do not form a program. -/
inductive GrammarCause
  | unexpectedToken (expected found : String)
  | invalidAugmentedTarget
deriving DecidableEq, Repr, Inhabited

/-- The text of a grammar cause. -/
def GrammarCause.message : GrammarCause → String
  | unexpectedToken expected found => "expected " ++ expected ++ ", found " ++ found
  | invalidAugmentedTarget => "augmented assignment takes exactly one target"

/-- A grammar cause and where it was found. -/
structure GrammarError where
  cause : GrammarCause
  location : Location
deriving DecidableEq, Repr, Inhabited

/-- The text of a grammar error. -/
def GrammarError.message (e : GrammarError) : String :=
  e.location.text ++ ": " ++ e.cause.message

/-! ## Meaning -/

/-- Why a well-formed program has no meaning. -/
inductive SemanticCause
  | duplicateClass (name : String)
  | unknownSuperclass (name superclass : String)
  | duplicateMethod (name method : String) (arity : Nat)
  | superWithoutSuperclass (name : String)
  | superOutsideMethod
  | unsupportedTypeHint (hint : String)
  | unsupportedArity (function : String) (found : Nat) (expected : String)
  | unknownMethod (name method : String)
  | unsupportedClassStatement (what : String)
  | nestedClass (name : String)
  | unsupportedAugmentedOperator (operator : String)
  | unsupportedClassAttribute (name member : String)
deriving DecidableEq, Repr, Inhabited

/-- The text of a semantic cause. -/
def SemanticCause.message : SemanticCause → String
  | duplicateClass name => "class '" ++ name ++ "' is already defined"
  | unknownSuperclass name superclass =>
    "class '" ++ name ++ "' inherits from '" ++ superclass ++ "', which is not a defined class"
  | duplicateMethod name method arity =>
    "method '" ++ method ++ "' with " ++ toString arity ++
      " parameter(s) is defined twice in class '" ++ name ++ "'"
  | superWithoutSuperclass name =>
    "super() used in class '" ++ name ++ "', which has no superclass"
  | superOutsideMethod => "super() is only supported inside a method with a receiver"
  | unsupportedTypeHint hint => "unsupported type annotation '" ++ hint ++ "'"
  | unsupportedArity function found expected =>
    "'" ++ function ++ "' takes " ++ expected ++ " argument(s) but " ++ toString found ++
      " were given"
  | unknownMethod name method => "class '" ++ name ++ "' has no method '" ++ method ++ "'"
  | unsupportedClassStatement what => "unsupported statement in class body: " ++ what
  | nestedClass name => "class '" ++ name ++ "' must be defined at the top level"
  | unsupportedAugmentedOperator operator =>
    "augmented assignment '" ++ operator ++ "' is not supported"
  | unsupportedClassAttribute name member =>
    "class attribute access '" ++ name ++ "." ++ member ++ "' is not supported"

/-- A semantic cause and, if it is known, where it was found. -/
structure SemanticError where
  cause : SemanticCause
  location : Option Location
deriving DecidableEq, Repr, Inhabited

/-- The text of a semantic error. -/
def SemanticError.message (e : SemanticError) : String :=
  match e.location with
  | some location => location.text ++ ": " ++ e.cause.message
  | none => e.cause.message

/-! ## All stages -/

/-- Why a source text is not a program. -/
inductive ReadError
  | lexical (error : LexicalError)
  | grammar (error : GrammarError)
  | semantic (error : SemanticError)
deriving DecidableEq, Repr, Inhabited

namespace ReadError

/-- Where the error was found. -/
def location : ReadError → Option Location
  | lexical e => some e.location
  | grammar e => some e.location
  | semantic e => e.location

/-- The text of the error within its stage. -/
def detail : ReadError → String
  | lexical e => e.message
  | grammar e => e.message
  | semantic e => e.message

/-- The text of the error with the name of its stage. -/
def message : ReadError → String
  | lexical e => "lexical error: " ++ e.message
  | grammar e => "syntax error: " ++ e.message
  | semantic e => "semantic error: " ++ e.message

end ReadError

/-- Why a source text is not compiled: it is no program, or no code can be emitted for it. -/
inductive CompileError
  | read (error : ReadError)
  | emit (error : SemanticError)
deriving DecidableEq, Repr, Inhabited

namespace CompileError

/-- Where the error was found. -/
def location : CompileError → Option Location
  | read e => e.location
  | emit e => e.location

/-- The text of the error within its stage. -/
def detail : CompileError → String
  | read e => e.detail
  | emit e => e.message

/-- The text of the error with the name of its stage. -/
def message : CompileError → String
  | read e => e.message
  | emit e => "semantic error: " ++ e.message

end CompileError

end Offside
