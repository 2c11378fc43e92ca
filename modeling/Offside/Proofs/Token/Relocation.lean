import Offside.Error
import Offside.Proofs.Traversal
import Offside.Reader.Stream

/-!
# Relocated tokens

Tokens and errors keep where they stand in the source.  `relocate` puts another location in place of
each of their locations; with the identity nothing changes, and with a map that forgets a part of a
location two tokens become equal that differ in this part only.

What is asked of a kind of token does not depend on locations (`Kind.test_relocate`), and neither
does the number of tokens inside a token.
-/

namespace Offside

/-! ## Errors -/

section Errors

variable (place : Location → Location)

/-- A span with other locations. -/
def Span.relocate (s : Span) : Span := ⟨place s.start, place s.stop⟩

/-- A lexical error at another location. -/
def LexicalError.relocate (e : LexicalError) : LexicalError :=
  { e with location := place e.location }

/-- A grammar error at another location. -/
def GrammarError.relocate (e : GrammarError) : GrammarError :=
  { e with location := place e.location }

/-- A semantic error at another location, if its location is known. -/
def SemanticError.relocate (e : SemanticError) : SemanticError :=
  { e with location := e.location.map place }

/-- An error of a reader at another location. -/
def ReadError.relocate : ReadError → ReadError
  | .lexical e => .lexical (e.relocate place)
  | .grammar e => .grammar (e.relocate place)
  | .semantic e => .semantic (e.relocate place)

/-- An error at another location. -/
def CompileError.relocate : CompileError → CompileError
  | .read e => .read (e.relocate place)
  | .emit e => .emit (e.relocate place)

end Errors

theorem Span.relocate_id (s : Span) : s.relocate id = s := rfl

theorem SemanticError.relocate_id (e : SemanticError) : e.relocate id = e := by
  rw [SemanticError.relocate, Option.map_id, id]

theorem ReadError.relocate_id (e : ReadError) : e.relocate id = e := by
  cases e with
  | lexical e => rfl
  | grammar e => rfl
  | semantic e => exact congrArg ReadError.semantic e.relocate_id

/-- The text of a semantic error shows its location in the form that messages use. -/
theorem SemanticError.message_relocate {place : Location → Location}
    (hplace : ∀ l, (place l).text = l.text) (e : SemanticError) :
    (e.relocate place).message = e.message := by
  obtain ⟨cause, location⟩ := e
  cases location with
  | none => rfl
  | some l =>
    change (place l).text ++ ": " ++ cause.message = l.text ++ ": " ++ cause.message
    rw [hplace]

/-- Two errors whose locations look the same in messages have the same message. -/
theorem CompileError.message_relocate {place : Location → Location}
    (hplace : ∀ l, (place l).text = l.text) (e : CompileError) :
    (e.relocate place).message = e.message := by
  cases e with
  | emit e =>
    change "semantic error: " ++ (e.relocate place).message = "semantic error: " ++ e.message
    rw [e.message_relocate hplace]
  | read e =>
    cases e with
    | lexical e =>
      change "lexical error: " ++ ((place e.location).text ++ ": " ++ e.cause.message) = _
      rw [hplace]
      rfl
    | grammar e =>
      change "syntax error: " ++ ((place e.location).text ++ ": " ++ e.cause.message) = _
      rw [hplace]
      rfl
    | semantic e =>
      change "semantic error: " ++ (e.relocate place).message = "semantic error: " ++ e.message
      rw [e.message_relocate hplace]

/-! ## Tokens -/

section Tokens

variable (place : Location → Location)

mutual

/-- A kind with other locations of the tokens it holds. -/
def Kind.relocate : Kind → Kind
  | .formatted fragments => .formatted (Fragment.relocateAll fragments)
  | kind => kind

/-- Some fragments with other locations. -/
def Fragment.relocateAll : List Fragment → List Fragment
  | [] => []
  | fragment :: rest => fragment.relocate :: Fragment.relocateAll rest

/-- A fragment with other locations. -/
def Fragment.relocate : Fragment → Fragment
  | .literal text => .literal text
  | .embedded tokens => .embedded (Token.relocateAll tokens)

/-- Some tokens with other locations. -/
def Token.relocateAll : List Token → List Token
  | [] => []
  | token :: rest => token.relocate :: Token.relocateAll rest

/-- A token with other locations. -/
def Token.relocate : Token → Token
  | ⟨kind, span⟩ => ⟨kind.relocate, span.relocate place⟩

end

theorem Fragment.relocateAll_eq_map (fragments : List Fragment) :
    Fragment.relocateAll place fragments = fragments.map (Fragment.relocate place) :=
  eq_map_of_cons rfl (fun _ _ => rfl) fragments

theorem Token.relocateAll_eq_map (tokens : List Token) :
    Token.relocateAll place tokens = tokens.map (Token.relocate place) :=
  eq_map_of_cons rfl (fun _ _ => rfl) tokens

@[simp] theorem Token.kind_relocate (token : Token) :
    (token.relocate place).kind = token.kind.relocate place := by
  obtain ⟨kind, span⟩ := token
  rfl

@[simp] theorem Token.span_relocate (token : Token) :
    (token.relocate place).span = token.span.relocate place := by
  obtain ⟨kind, span⟩ := token
  rfl

/-- What is asked of a kind is not asked of the fragments of a formatted string. -/
abbrev Kind.SkipsFragments {α : Type} (test : Kind → α) : Prop :=
  ∀ fragments fragments', test (.formatted fragments) = test (.formatted fragments')

/-- What is not asked of fragments has the same answer for tokens at other locations. -/
theorem Kind.test_relocate {α : Type} {test : Kind → α} (htest : SkipsFragments test)
    (kind : Kind) : test (kind.relocate place) = test kind := by
  cases kind with
  | formatted fragments => exact htest _ _
  | _ => rfl

/-! ### Numbers of tokens -/

mutual

theorem Kind.weight_relocate : ∀ kind : Kind, (kind.relocate place).weight = kind.weight
  | .formatted fragments => Fragment.totalWeight_relocateAll fragments
  | .indent | .dedent | .newline | .endOfInput | .identifier _ | .keyword _ | .integer _ | .float _
  | .str _ | .sumOp _ | .termOp _ | .power | .comparison _ | .operator _ | .delimiter _ | .library
  | .function _ => rfl

theorem Fragment.totalWeight_relocateAll : ∀ fragments : List Fragment,
    Fragment.totalWeight (Fragment.relocateAll place fragments) = Fragment.totalWeight fragments
  | [] => rfl
  | fragment :: rest => by
    rw [Fragment.relocateAll, Fragment.totalWeight, Fragment.totalWeight, Fragment.weight_relocate,
      Fragment.totalWeight_relocateAll rest]

theorem Fragment.weight_relocate : ∀ fragment :
    Fragment, (fragment.relocate place).weight = fragment.weight
  | .literal _ => rfl
  | .embedded tokens => by
    rw [Fragment.relocate, Fragment.weight, Fragment.weight, Token.totalWeight_relocateAll tokens]

theorem Token.totalWeight_relocateAll : ∀ tokens : List Token,
    Token.totalWeight (Token.relocateAll place tokens) = Token.totalWeight tokens
  | [] => rfl
  | token :: rest => by
    rw [Token.relocateAll, Token.totalWeight, Token.totalWeight, Token.weight_relocate,
      Token.totalWeight_relocateAll rest]

theorem Token.weight_relocate : ∀ token : Token, (token.relocate place).weight = token.weight
  | ⟨kind, _⟩ => by rw [Token.relocate, Token.weight, Token.weight, Kind.weight_relocate kind]

end

end Tokens

/-! ### The identity -/

mutual

theorem Kind.relocate_id : ∀ kind : Kind, kind.relocate id = kind
  | .formatted fragments => congrArg Kind.formatted (Fragment.relocateAll_id fragments)
  | .indent | .dedent | .newline | .endOfInput | .identifier _ | .keyword _ | .integer _ | .float _
  | .str _ | .sumOp _ | .termOp _ | .power | .comparison _ | .operator _ | .delimiter _ | .library
  | .function _ => rfl

theorem Fragment.relocateAll_id : ∀ fragments :
    List Fragment, Fragment.relocateAll id fragments = fragments
  | [] => rfl
  | .literal _ ::
    rest => by rw [Fragment.relocateAll, Fragment.relocate, Fragment.relocateAll_id rest]
  | .embedded tokens :: rest => by
    rw [Fragment.relocateAll, Fragment.relocate, Token.relocateAll_id tokens,
      Fragment.relocateAll_id rest]

theorem Token.relocateAll_id : ∀ tokens : List Token, Token.relocateAll id tokens = tokens
  | [] => rfl
  | token :: rest => by rw [Token.relocateAll, token.relocate_id, Token.relocateAll_id rest]

theorem Token.relocate_id : ∀ token : Token, token.relocate id = token
  | ⟨kind, span⟩ => by rw [Token.relocate, kind.relocate_id, span.relocate_id]

end

end Offside
