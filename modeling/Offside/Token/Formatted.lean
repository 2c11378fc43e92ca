import Offside.NameTable
import Offside.Text.Blank
import Offside.Token.Literal

/-!
# Formatted strings

A formatted string is a string in which an expression between braces is embedded.  Two equal braces
in a row stand for one.  An embedded expression reaches to the closing brace outside its own
brackets and quotes; it holds no newline and not the quote of the string around it.  Its text is cut
into tokens by a scanner of its own, which is given to the functions here as a parameter.
-/

namespace Offside

/-- The bracket depth behind a character of an embedded expression. -/
def embeddedDepth (depth : Nat) (d : Char) : Nat :=
  if d == '(' || d == '[' || d == '\x7b' then depth + 1
  else if d == ')' || d == ']' || d == '\x7d' then depth - 1
  else depth

/-- Splits a text at the brace that closes an embedded expression: the text before the brace and the
text behind it.  `quote` is the quote of a string inside the expression. -/
def splitEmbedded (mark : Char) (depth : Nat) (quote : Option Char) :
    List Char → Option (List Char × List Char)
  | [] => none
  | d :: rest =>
    match quote with
    | some q =>
      if d = q then (splitEmbedded mark depth none rest).map fun (t, r) => (d :: t, r)
      else if isNewline d then none
      else (splitEmbedded mark depth (some q) rest).map fun (t, r) => (d :: t, r)
    | none =>
      if isNewline d ∨ d = mark then none
      else if d = '\x7d' ∧ depth = 0 then some ([], rest)
      else if isQuote d then
        (splitEmbedded mark depth (some d) rest).map fun (t, r) => (d :: t, r)
      else (splitEmbedded mark (embeddedDepth depth d) none rest).map fun (t, r) => (d :: t, r)

/-- The two parts and the brace between them are the text. -/
theorem eq_append_of_splitEmbedded {mark : Char} {depth : Nat} {quote : Option Char}
    {text inside after : List Char}
    (h : splitEmbedded mark depth quote text = some (inside, after)) :
    text = inside ++ '\x7d' :: after := by
  induction text generalizing depth quote inside with
  | nil => simp [splitEmbedded] at h
  | cons d rest ih =>
    have step {depth : Nat} {quote : Option Char}
        (h : (splitEmbedded mark depth quote rest).map (fun (t, r) => (d :: t, r)) =
          some (inside, after)) : d :: rest = inside ++ '\x7d' :: after := by
      obtain ⟨⟨t, r⟩, hs, ht⟩ := Option.map_eq_some_iff.1 h
      simp only [Prod.mk.injEq] at ht
      obtain ⟨rfl, rfl⟩ := ht
      simp [ih hs]
    cases quote with
    | some q =>
      rw [splitEmbedded] at h
      split at h
      · exact step h
      · split at h
        · simp at h
        · exact step h
    | none =>
      rw [splitEmbedded] at h
      split at h
      · simp at h
      · split at h
        · rename_i hd
          simp only [Option.some.injEq, Prod.mk.injEq] at h
          obtain ⟨rfl, rfl⟩ := h
          simp [hd.1]
        · split at h
          · exact step h
          · exact step h

/-- A scanner for the text of an embedded expression: the tokens, and the names met. -/
abbrev EmbeddedScanner := Cursor → NameTable → Except LexicalError (List Token) × NameTable

/-- A literal fragment, unless it is empty. -/
def literalFragment (text : List Char) : List Fragment :=
  if text.isEmpty then [] else [.literal (String.ofList text)]

/-- Reads the fragments of a formatted string behind its opening marks.  `literal` is the literal
text since the last embedded expression. -/
def scanFragments (nested : EmbeddedScanner) (start : Location) (q : Quotes) (names : NameTable)
    (literal : List Char) (c : Cursor) :
    Except LexicalError (List Fragment) × NameTable × Cursor :=
  match _hc : c.rest with
  | '\x7b' :: '\x7b' :: rest =>
    scanFragments nested start q names (literal ++ ['\x7b'])
      ⟨rest, c.location.along ['\x7b', '\x7b']⟩
  | '\x7d' :: '\x7d' :: rest =>
    scanFragments nested start q names (literal ++ ['\x7d'])
      ⟨rest, c.location.along ['\x7d', '\x7d']⟩
  | '\x7d' :: _ => (.error ⟨.unmatchedBrace, c.location⟩, names, c)
  | '\x7b' :: rest =>
    let inner : Cursor := ⟨rest, c.location.along ['\x7b']⟩
    match _hs : splitEmbedded q.mark 0 none rest with
    | none => (.error ⟨.unterminatedEmbedded, c.location⟩, names, inner)
    | some (inside, after) =>
      if inside.all Text.isBlank then (.error ⟨.emptyEmbedded, c.location⟩, names, inner)
      else
        match nested ⟨inside, inner.location⟩ names with
        | (.error e, names) => (.error e, names, inner)
        | (.ok tokens, names) =>
          let (result, final) := scanFragments nested start q names []
            ⟨after, inner.location.along (inside ++ ['\x7d'])⟩
          (result.map (literalFragment literal ++ .embedded tokens :: ·), final)
  | _ =>
    match scanPiece start q c with
    | .closed next => (.ok (literalFragment literal), names, next)
    | .stuck e next => (.error e, names, next)
    | .text text next _ => scanFragments nested start q names (literal ++ text) next
termination_by c.rest.length
decreasing_by
  · simp only [_hc, List.length_cons]
    omega
  · simp only [_hc, List.length_cons]
    omega
  · have := congrArg List.length (eq_append_of_splitEmbedded _hs)
    simp only [_hc, List.length_append, List.length_cons] at this ⊢
    omega
  · assumption

/-- Reads a formatted string at its first quote; `start` is where the letter before it stands. -/
def scanFormatted (nested : EmbeddedScanner) (start : Location) (names : NameTable) (c : Cursor) :
    Except LexicalError Kind × NameTable × Cursor :=
  let (q, next) := Quotes.openAt c
  let (result, final) := scanFragments nested start q names [] next
  (result.map .formatted, final)

end Offside
