import Offside.NameTable
import Offside.Proofs.Tree.WellFormed

/-!
# Names in tokens

A word of a text becomes a keyword, the qualifier of the library, a known function or an identifier.
So the identifiers among the tokens are free for names, and so are those in embedded expressions.
Identifiers are entered in a table of names, one after the other, and what is new in the table are
the identifiers that it did not hold, each once (`names_internAll`).
-/

namespace Offside

open List

/-! ## Words of their kinds -/

mutual

/-- Whether the names in a token are of its kind. -/
def Token.isLexical : Token → Bool
  | ⟨kind, _⟩ => kind.isLexical

/-- Whether the names in a kind are of this kind: an identifier is free for names, a function is a
known one, and an operator is a symbol. -/
def Kind.isLexical : Kind → Bool
  | .identifier name => isPlainName name && !knownFunctions.contains name
  | .function name => knownFunctions.contains name
  | .operator spelling => symbols.any (·.1 == spelling)
  | .formatted fragments => Fragment.areLexical fragments
  | _ => true

/-- Whether the names in the fragments of a formatted string are of their kinds. -/
def Fragment.areLexical : List Fragment → Bool
  | [] => true
  | .literal _ :: rest => Fragment.areLexical rest
  | .embedded tokens :: rest => Token.areLexical tokens && Fragment.areLexical rest

/-- Whether the names in some tokens are of their kinds. -/
def Token.areLexical : List Token → Bool
  | [] => true
  | token :: rest => token.isLexical && Token.areLexical rest

end

theorem Token.areLexical_iff {tokens : List Token} :
    Token.areLexical tokens ↔ ∀ t ∈ tokens, t.kind.isLexical := by
  induction tokens with
  | nil => simp [Token.areLexical]
  | cons t tokens ih =>
    obtain ⟨kind, span⟩ := t
    rw [Token.areLexical, Bool.and_eq_true, ih, forall_mem_cons, Token.isLexical]

theorem Token.areLexical_append (tokens more : List Token) :
    Token.areLexical (tokens ++ more) = (Token.areLexical tokens && Token.areLexical more) := by
  induction tokens with
  | nil => rfl
  | cons token tokens ih => rw [cons_append, Token.areLexical, Token.areLexical, ih, Bool.and_assoc]

/-- A known function is free for names. -/
theorem isPlainName_of_mem_knownFunctions {name : String} (h : name ∈ knownFunctions) :
    isPlainName name := by
  have hall : ∀ name ∈ knownFunctions, isPlainName name := by decide
  exact hall name h

namespace Kind

theorem isLexical_ofWord {word : String} (hword : Text.isWord word) : (ofWord word).isLexical := by
  unfold ofWord
  split
  · rfl
  · rename_i hkeyword
    split
    · rfl
    · rename_i hlibrary
      split
      · rename_i hknown
        exact contains_iff_mem.mpr hknown
      · rename_i hknown
        simp [isLexical, isPlainName, hword, hkeyword, hlibrary, hknown]

theorem isLexical_of_mem_symbols {symbol : String × Kind} (h : symbol ∈ symbols) :
    symbol.2.isLexical := by
  have hall : ∀ symbol ∈ symbols, symbol.2.isLexical := by
    unfold symbols
    repeat refine forall_mem_cons.mpr ⟨rfl, ?_⟩
    exact forall_mem_nil _
  exact hall symbol h

end Kind

/-! ## Identifiers -/

mutual

/-- The identifiers in a token, in order. -/
def Token.identifiers : Token → List String
  | ⟨kind, _⟩ => kind.identifiers

/-- The identifiers in a kind, in order: the name of an identifier, or those in the expressions that
a formatted string embeds. -/
def Kind.identifiers : Kind → List String
  | .identifier name => [name]
  | .formatted fragments => Fragment.identifiers fragments
  | _ => []

/-- The identifiers in the fragments of a formatted string, in order. -/
def Fragment.identifiers : List Fragment → List String
  | [] => []
  | .literal _ :: rest => Fragment.identifiers rest
  | .embedded tokens :: rest => Token.allIdentifiers tokens ++ Fragment.identifiers rest

/-- The identifiers in some tokens, in order. -/
def Token.allIdentifiers : List Token → List String
  | [] => []
  | token :: rest => token.identifiers ++ Token.allIdentifiers rest

end

theorem Token.allIdentifiers_append (tokens more : List Token) :
    Token.allIdentifiers (tokens ++ more) = Token.allIdentifiers tokens ++
      Token.allIdentifiers more :=
  append_of_cons rfl (fun _ _ => rfl) tokens more

/-- A word that is no identifier holds none. -/
theorem Kind.identifiers_ofWord {word : String} (h : ∀ name, ofWord word ≠ .identifier name) :
    (ofWord word).identifiers = [] := by
  unfold ofWord at h ⊢
  split
  · rfl
  · rename_i hkeyword
    rw [hkeyword] at h
    split
    · rfl
    · rename_i hlibrary
      split
      · rfl
      · rename_i hknown
        exact absurd (by rw [if_neg hlibrary, if_neg hknown]) (h word)

theorem Kind.identifiers_of_mem_symbols {symbol : String × Kind} (h : symbol ∈ symbols) :
    symbol.2.identifiers = [] := by
  have hall : ∀ symbol ∈ symbols, symbol.2.identifiers = [] := by
    unfold symbols
    repeat refine forall_mem_cons.mpr ⟨rfl, ?_⟩
    exact forall_mem_nil _
  exact hall symbol h

/-! ## Entering names -/

namespace NameTable

/-- Enters some names, one after the other. -/
def internAll (t : NameTable) (names : List String) : NameTable := names.foldl intern t

theorem internAll_append (t : NameTable) (names more : List String) :
    t.internAll (names ++ more) = (t.internAll names).internAll more :=
  foldl_append

/-- The names that were not in the table come behind those that were, each where it is first met. -/
theorem names_internAll (t : NameTable) (names : List String) :
    (t.internAll names).names = t.names ++ (names.filter (· ∉ t.names)).eraseDups := by
  induction names generalizing t with
  | nil => exact (append_nil _).symm
  | cons name names ih =>
    change ((t.intern name).internAll names).names = _
    rw [ih]
    by_cases hname : name ∈ t.names
    · rw [intern_eq_self hname, filter_cons_of_neg (by simpa using hname)]
    · have hnew : (names.filter (· ∉ (t.intern name).names)) =
          (names.filter (· ∉ t.names)).filter (fun other => !other == name) := by
        rw [filter_filter]
        refine filter_congr fun other _ => ?_
        rw [names_intern_of_notMem hname]
        by_cases hother : other = name <;> simp [hother]
      rw [filter_cons_of_pos (by simpa using hname), eraseDups_cons, hnew,
        names_intern_of_notMem hname, append_assoc, singleton_append]

end NameTable

end Offside
