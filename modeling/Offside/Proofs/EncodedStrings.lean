import Offside.Proofs.Token.Alone

/-!
# Encoded strings

A text can stand in a string between any marks if its backslashes, its quotes, its line breaks, its
tabs and its null characters are written as escapes.  In a formatted string its braces are doubled
as well.  The scanner reads the text back from both, piece by piece (`tokenize_encoded`).
-/

namespace Offside

open List

/-- The characters that are written as escapes, with the characters behind the backslash. -/
def escapes : List (Char × Char) :=
  [('\\', '\\'), ('"', '"'), ('\'', '\''), ('\n', 'n'), ('\r', 'r'), ('\t', 't'), ('\x00', '0')]

/-- How a character is written in a string, whatever the marks around it. -/
def encodeChar (d : Char) : List Char :=
  match escapes.lookup d with
  | some e => ['\\', e]
  | none => [d]

/-- How a text is written in a string. -/
def encode (text : String) : List Char := text.toList.flatMap encodeChar

/-- A brace twice, and every other character once. -/
def doubleBrace (d : Char) : List Char := if d = '\x7b' ∨ d = '\x7d' then [d, d] else [d]

/-! ## Characters -/

/-- An escape stands for its character and holds no brace. -/
theorem of_mem_escapes {d e : Char} (h : (d, e) ∈ escapes) :
    isNewline e = false ∧ unescaped e = [d] ∧ doubleBrace e = [e] := by
  have hall : ∀ pair ∈ escapes, isNewline pair.2 = false ∧ unescaped pair.2 = [pair.1] ∧
      doubleBrace pair.2 = [pair.2] := by decide
  exact hall _ h

theorem encodeChar_cases (d : Char) :
    (∃ e, encodeChar d = ['\\', e] ∧ (d, e) ∈ escapes) ∨ encodeChar d = [d] ∧
      d ∉ escapes.map Prod.fst := by
  unfold encodeChar
  cases hfound : escapes.lookup d with
  | some e =>
    obtain ⟨before, after, hescapes, -⟩ := lookup_eq_some_iff.mp hfound
    exact .inl ⟨e, rfl, by simp [hescapes]⟩
  | none =>
    refine .inr ⟨rfl, ?_⟩
    rw [lookup_eq_none_iff] at hfound
    rintro hmem
    obtain ⟨pair, hpair, rfl⟩ := mem_map.mp hmem
    exact absurd (hfound pair hpair) (by simp)

theorem readsAs_encodeChar {mark : Char} (hmark : isQuote mark) (d : Char) :
    ReadsAs mark d (encodeChar d) := by
  rcases encodeChar_cases d with ⟨e, hencoded, he⟩ | ⟨hencoded, hd⟩
  · obtain ⟨hline, hread, -⟩ := of_mem_escapes he
    rw [hencoded]
    exact .escaped hline hread
  · have hne {other : Char} (hother : other ∈ escapes.map Prod.fst) : d ≠ other := by
      rintro rfl
      exact hd hother
    rw [hencoded]
    refine .plain (hne (by decide)) (hne ?_) ?_
    · rcases isQuote_cases hmark with rfl | rfl <;> decide
    · rw [isNewline, beq_eq_false_iff_ne.mpr (hne (by decide)),
        beq_eq_false_iff_ne.mpr (hne (by decide))]
      rfl

/-- A brace is written as two of them, and what is written for another character starts with no
brace. -/
theorem doubled_cases (d : Char) :
    (d = '\x7b' ∨ d = '\x7d') ∧ (encodeChar d).flatMap doubleBrace = [d, d] ∨
      (encodeChar d).flatMap doubleBrace = encodeChar d ∧
        ∃ first others, encodeChar d = first :: others ∧ first ≠ '\x7b' ∧ first ≠ '\x7d' := by
  rcases encodeChar_cases d with ⟨e, hencoded, he⟩ | ⟨hencoded, -⟩
  · obtain ⟨-, -, hdoubled⟩ := of_mem_escapes he
    refine .inr ⟨?_, '\\', [e], hencoded, by decide, by decide⟩
    rw [hencoded, flatMap_cons, flatMap_singleton, hdoubled]
    rfl
  · rw [hencoded, flatMap_singleton]
    by_cases hbrace : d = '\x7b' ∨ d = '\x7d'
    · exact .inl ⟨hbrace, if_pos hbrace⟩
    · obtain ⟨hopen, hclose⟩ := not_or.mp hbrace
      exact .inr ⟨if_neg hbrace, d, [], rfl, hopen, hclose⟩

/-! ## Formatted strings -/

section Formatted

variable (nested : EmbeddedScanner) (start : Location) {q : Quotes} (hmark : isQuote q.mark = true)

include hmark

/-- An encoded text is scanned as one literal fragment. -/
theorem scanFragments_encoded (names : NameTable) (literal : List Char) {text more : List Char}
    {c : Cursor}
    (hc : c.rest = (text.flatMap encodeChar).flatMap doubleBrace ++ (q.closing ++ more)) :
    ∃ location, scanFragments nested start q names literal c =
      (.ok (literalFragment (literal ++ text)), names, ⟨more, location⟩) := by
  induction text generalizing literal c with
  | nil =>
    have hpeek : c.peek = some q.mark := by
      rw [Cursor.peek, hc, q.closing_eq_cons]
      rfl
    have hbrace : c.peek ≠ some '\x7b' ∧ c.peek ≠ some '\x7d' := by
      rw [hpeek]
      rcases isQuote_cases hmark with h | h <;> rw [h] <;> decide
    obtain ⟨location, hpiece⟩ := scanPiece_closing start hmark hc
    rw [scanFragments_plain _ _ _ _ _ hbrace.1 hbrace.2, hpiece, append_nil]
    exact ⟨location, rfl⟩
  | cons d text ih =>
    rw [flatMap_cons, flatMap_append, append_assoc] at hc
    rw [← singleton_append, ← append_assoc]
    rcases doubled_cases d with ⟨hbrace, hdoubled⟩ | ⟨hsame, first, others, hencoded, hopen, hclose⟩
    · rw [hdoubled] at hc
      rw [scanFragments_doubled _ _ _ _ _ hbrace hc]
      exact ih (literal ++ [d]) rfl
    · rw [hsame] at hc
      have hpeek : c.peek = some first := by
        rw [Cursor.peek, hc, hencoded]
        rfl
      obtain ⟨location, hshorter, hpiece⟩ :=
        scanPiece_of_readsAs start hmark (readsAs_encodeChar hmark d) hc
      have hbrace : c.peek ≠ some '\x7b' ∧ c.peek ≠ some '\x7d' := by
        rw [hpeek]
        exact ⟨fun h => hopen (Option.some.inj h), fun h => hclose (Option.some.inj h)⟩
      rw [scanFragments_plain _ _ _ _ _ hbrace.1 hbrace.2, hpiece]
      exact ih (literal ++ [d]) rfl

/-- What is written between two single marks does not go on with two more, also if its braces are
doubled. -/
theorem not_prefix_doubled {text : List Char} (hsingle : q.triple = false) :
    ¬[q.mark, q.mark] <+: (text.flatMap encodeChar).flatMap doubleBrace ++ q.closing := by
  rintro ⟨rest, hrest⟩
  cases text with
  | nil =>
    rw [q.closing_eq_cons, hsingle] at hrest
    cases (cons.inj hrest).2
  | cons d text =>
    rw [flatMap_cons, flatMap_append, append_assoc] at hrest
    rcases doubled_cases d with ⟨hbrace, hdoubled⟩ | ⟨hsame, -⟩
    · rw [hdoubled] at hrest
      have hfirst := (cons.inj hrest).1
      rw [← hfirst] at hbrace
      rcases isQuote_cases hmark with h | h <;> rw [h] at hbrace <;> exact absurd hbrace (by decide)
    · obtain ⟨first, others, hencoded, hfirst⟩ := (readsAs_encodeChar hmark d).exists_cons hmark
      rw [hsame, hencoded] at hrest
      exact hfirst (cons.inj hrest).1.symm

theorem scanFormatted_encoded (names : NameTable) {text : List Char} {c : Cursor}
    (hc : c.rest = q.around ((text.flatMap encodeChar).flatMap doubleBrace)) :
    ∃ location, scanFormatted nested start names c =
      (.ok (.formatted (literalFragment text)), names, ⟨[], location⟩) := by
  let body : Cursor :=
    ⟨(text.flatMap encodeChar).flatMap doubleBrace ++ q.closing, c.location.along q.closing⟩
  have hbody : body.rest = (text.flatMap encodeChar).flatMap doubleBrace ++ (q.closing ++ []) := by
    rw [append_nil]
  obtain ⟨location, hfragments⟩ := scanFragments_encoded nested start hmark names [] hbody
  rw [scanFormatted, openAt_marks hmark hc (not_prefix_doubled hmark)]
  dsimp only
  rw [hfragments]
  exact ⟨location, rfl⟩

end Formatted

/-! ## Tokens -/

/-- A text that is encoded between any marks is one string, which is this text; and behind a letter
and with its braces doubled it is one formatted string, whose only fragment is this text. -/
theorem tokenize_encoded {q : Quotes} (hmark : isQuote q.mark = true) {letter : Char}
    (hletter : letter = 'f' ∨ letter = 'F') (text : String) (names : NameTable) :
    (∃ tokens, tokenize (.ofList (q.around (encode text))) names = (.ok tokens, names) ∧
      tokens.map Token.kind = [Kind.str text, Kind.newline, Kind.endOfInput]) ∧
    ∃ tokens, tokenize (.ofList (letter :: q.around ((encode text).flatMap doubleBrace))) names =
        (.ok tokens, names) ∧
      tokens.map Token.kind =
        [Kind.formatted (if text = "" then [] else [.literal text]), Kind.newline,
          Kind.endOfInput] := by
  constructor
  · have htext : (Cursor.ofText (.ofList (q.around (encode text)))).rest =
        q.closing ++ (text.toList.flatMap encodeChar ++ (q.closing ++ [])) := by
      rw [Cursor.ofText, String.toList_ofList, append_nil]
      rfl
    obtain ⟨l, hscan⟩ := scanString_written hmark (readsAs_encodeChar hmark) text htext (by simp)
    refine ⟨_, tokenize_of_scanString (l := l) hmark ?_ hscan, rfl⟩
    rw [Cursor.peek, htext, q.closing_eq_cons]
    rfl
  · have htext : (String.ofList (letter :: q.around ((encode text).flatMap doubleBrace))).toList =
        letter :: q.around ((text.toList.flatMap encodeChar).flatMap doubleBrace) :=
          String.toList_ofList
    rw [← literalFragment_toList]
    generalize String.ofList _ = source at htext ⊢
    let c : Cursor :=
      ⟨q.around ((text.toList.flatMap encodeChar).flatMap doubleBrace), .along {} [letter]⟩
    obtain ⟨l, hscan⟩ :=
      scanFormatted_encoded (Scanner.embeddedScanner source.length) {} hmark names
      (show c.rest = _ from rfl)
    obtain ⟨more, haround⟩ :=
      q.around_eq_cons ((text.toList.flatMap encodeChar).flatMap doubleBrace)
    dsimp only [c] at hscan
    rw [haround] at htext hscan
    exact ⟨_, tokenize_of_scanFormatted (l := l) hletter htext hmark hscan, rfl⟩

/-- A quote, a line break and a brace between three single quotes. -/
theorem tokenize_encoded_triple :
    (∃ tokens, tokenize "'''\\'\\n\x7b'''" {} = (.ok tokens, {}) ∧
      tokens.map Token.kind = [Kind.str "'\n\x7b", Kind.newline, Kind.endOfInput]) ∧
    ∃ tokens, tokenize "F'''\\'\\n\x7b\x7b'''" {} = (.ok tokens, {}) ∧
      tokens.map Token.kind =
        [Kind.formatted [.literal "'\n\x7b"], Kind.newline, Kind.endOfInput] :=
  tokenize_encoded (q := ⟨'\'', true⟩) (by decide) (.inr rfl) "'\n\x7b" {}

end Offside
