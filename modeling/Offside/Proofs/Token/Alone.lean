import Offside.Proofs.Token.ScannerVariation
import Offside.Proofs.Token.Written

/-!
# Texts of one token

A text that starts with a token is read from its first character on: it is not indented, and nothing
is skipped before it.  If nothing is left behind the token, the line and then the input end there
(`tokenize_of_scanKind`).  A quote starts a string, and a letter in front of a quote a formatted
string.
-/

namespace Offside

open List

/-- A line that is indented by the blanks of some levels. -/
theorem measureIndentation_blanks {c : Cursor} {depth : Nat} {e : Char} {more : List Char}
    (hc : c.rest = replicate (4 * depth) ' ' ++ e :: more) (he : startsToken e) :
    measureIndentation c =
      (.ok depth, ⟨e :: more, c.location.along (replicate (4 * depth) ' ')⟩) := by
  obtain ⟨hgap, hcomment, -, hline⟩ := of_startsToken he
  simp only [isGap, Bool.or_eq_false_iff, beq_eq_false_iff_ne] at hgap
  have hrun :=
    Cursor.run_eq (p := (· == ' ')) hc (fun d hd => beq_iff_eq.mpr (mem_replicate.mp hd).2)
    (beq_eq_false_iff_ne.mpr hgap.1.1)
  rw [measureIndentation_eq, hrun]
  simp only [Cursor.peek, getElem?_cons_zero]
  rw [if_neg hgap.1.2, if_neg hcomment, if_neg (by simp [hline])]
  simp [indentUnit]

theorem measureIndentation_of_startsToken {c : Cursor} {d : Char} (hpeek : c.peek = some d)
    (hd : startsToken d) : measureIndentation c = (.ok 0, c) := by
  obtain ⟨_ | ⟨e, more⟩, l⟩ := c
  · cases hpeek
  · cases hpeek
    simpa using @measureIndentation_blanks ⟨d :: more, l⟩ 0 d more rfl hd

theorem measureIndentation_of_peek_none {c : Cursor} (hpeek : c.peek = none) :
    measureIndentation c = (.ok 0, c) := by
  have hrun : c.run (· == ' ') = ([], c) := by
    obtain ⟨rest, l⟩ := c
    cases rest with
    | nil => simp [Cursor.run]
    | cons e more => cases hpeek
  rw [measureIndentation_eq, hrun]
  dsimp only
  rw [hpeek]

variable {l : Location} {s : Scanner}

namespace Scanner

/-! ## Steps -/

/-- A token in front of those that a run yields. -/
def withToken (t : Token) :
    EStateM.Result LexicalError Scanner (List Token) →
      EStateM.Result LexicalError Scanner (List Token)
  | .ok ts s => .ok (t :: ts) s
  | .error e s => .error e s

theorem tokens_succ (bound : Nat) (atLineStart pendingDedent : Bool) (s : Scanner) :
    tokens (bound + 1) atLineStart pendingDedent s =
      match next atLineStart pendingDedent s with
      | .ok t mid =>
        if t.kind.isEnd then .ok [t] mid
        else withToken t (tokens bound t.kind.isNewline t.kind.isDedent mid)
      | .error e s' => .error e s' := by
  change EStateM.bind (next atLineStart pendingDedent) _ s = _
  unfold EStateM.bind
  cases next atLineStart pendingDedent s with
  | error e s' => rfl
  | ok t mid =>
    dsimp only
    cases t.kind.isEnd with
    | true => rfl
    | false =>
      change EStateM.bind (tokens bound t.kind.isNewline t.kind.isDedent) _ mid = _
      unfold EStateM.bind
      cases tokens bound t.kind.isNewline t.kind.isDedent mid <;> rfl

theorem next_within (s : Scanner) :
    next false false s = scanWith (embeddedScanner s.cursor.rest.length) s := by
  rw [next, nextWithin_eq, ← scan_eq]
  rfl

/-- A line that is not indented, outside all blocks. -/
theorem next_outside (hembedded : s.embedded = false) (hindentation : s.indentation = {})
    (hmeasure : measureIndentation s.cursor = (.ok 0, s.cursor)) :
    next true false s = scanWith (embeddedScanner s.cursor.rest.length) s := by
  obtain ⟨c, names, indentation, depth, line, embedded⟩ := s
  obtain rfl : embedded = false := hembedded
  obtain rfl : indentation = {} := hindentation
  rw [next, nextWithin_eq, ← scan_eq, hmeasure]
  rfl

/-- A token at the cursor. -/
theorem scanWith_of_startsToken (nested : EmbeddedScanner) {d : Char}
    (hpeek : s.cursor.peek = some d) (hd : startsToken d) : scanWith nested s =
      match scanKind nested d s with
      | .ok kind s' =>
        .ok ⟨kind, ⟨s.cursor.location, s'.cursor.location⟩⟩ { s' with lineHasTokens := true }
      | .error e s' => .error e s' := by
  have hline := (of_startsToken hd).2.2.2
  rw [scanWith_eq, skipGaps_of_startsToken hpeek hd, hpeek]
  dsimp only
  rw [hline]
  rfl

/-- Behind the last token of a line outside all blocks the line is ended, and then the input is. -/
theorem tokens_of_end (hembedded : s.embedded = false) (hindentation : s.indentation = {})
    (hline : s.lineHasTokens) (hend : (skipGaps s.joined s.cursor).peek = none) (bound : Nat) :
    tokens (bound + 2) false false s =
      .ok [.mark .newline (skipGaps s.joined s.cursor).location,
          .mark .endOfInput (skipGaps s.joined s.cursor).location]
        { s with cursor := skipGaps s.joined s.cursor, lineHasTokens := false } := by
  obtain ⟨c, names, indentation, depth, line, embedded⟩ := s
  obtain rfl : embedded = false := hembedded
  obtain rfl : indentation = {} := hindentation
  obtain rfl : line := hline
  have hnext : next false false ⟨c, names, {}, depth, true, false⟩ =
      .ok (.mark .newline (skipGaps (joined ⟨c, names, {}, depth, true, false⟩) c).location)
        ⟨skipGaps (joined ⟨c, names, {}, depth, true, false⟩) c, names, {}, depth,
          false, false⟩ := by
    rw [next_within, scanWith_eq, hend]
    rfl
  dsimp only at hend hnext ⊢
  generalize skipGaps (joined ⟨c, names, {}, depth, true, false⟩) c = mid at hend hnext ⊢
  have hgaps : skipGaps (joined ⟨mid, names, {}, depth, false, false⟩) mid =
      mid := by rw [skipGaps_eq, hend]
  have hlast : next true false ⟨mid, names, {}, depth, false, false⟩ =
      .ok (.mark .endOfInput mid.location) ⟨mid, names, {}, depth, false, false⟩ := by
    rw [next_outside rfl rfl (measureIndentation_of_peek_none hend), scanWith_eq, hgaps, hend]
    rfl
  rw [tokens_succ, hnext]
  dsimp only [Token.mark, Kind.isEnd, Kind.isNewline, Kind.isDedent]
  rw [tokens_succ, hlast]
  rfl

end Scanner

/-! ## Tokens -/

section Tokenize

open Scanner

variable {text : String} {names : NameTable} {d : Char}

theorem next_ofText (hpeek : (Cursor.ofText text).peek = some d) (hd : startsToken d) :
    next true false (.ofText text names) =
      match scanKind (embeddedScanner text.length) d (.ofText text names) with
      | .ok kind s' => .ok ⟨kind, ⟨{}, s'.cursor.location⟩⟩ { s' with lineHasTokens := true }
      | .error e s' => .error e s' := by
  have hlength : (Scanner.ofText text names).cursor.rest.length = text.length :=
    String.length_toList
  have hmeasure := measureIndentation_of_startsToken hpeek hd
  rw [next_outside rfl rfl hmeasure, hlength, scanWith_of_startsToken _ hpeek hd]
  rfl

/-- A text that is one token. -/
theorem tokenize_of_scanKind (hpeek : (Cursor.ofText text).peek = some d) (hd : startsToken d)
    {kind : Kind} (hkind : kind.isLexeme) {entered : NameTable}
    (hscan : scanKind (embeddedScanner text.length) d (.ofText text names) =
      .ok kind { cursor := ⟨[], l⟩, names := entered }) :
    tokenize text names =
      (.ok [⟨kind, ⟨{}, l⟩⟩, .mark .newline l, .mark .endOfInput l], entered) := by
  obtain ⟨hlast, hnewline, hdedent, -⟩ := Kind.of_isLexeme hkind
  let s : Scanner := { cursor := ⟨[], l⟩, names := entered, lineHasTokens := true }
  have hgaps : skipGaps s.joined s.cursor = ⟨[], l⟩ := by
    rw [skipGaps_eq]
    rfl
  have hend := tokens_of_end (s := s) rfl rfl rfl (by rw [hgaps]; rfl) (2 * text.length)
  rw [hgaps] at hend
  unfold tokenize
  rw [show 2 * text.length + 3 = 2 * text.length + 2 + 1 from rfl, tokens_succ,
    next_ofText hpeek hd, hscan]
  dsimp only
  rw [hlast, hnewline, hdedent, hend]
  rfl

/-- A text whose first token is refused. -/
theorem tokenize_of_scanKind_error (hpeek : (Cursor.ofText text).peek = some d) (hd : startsToken d)
    {e : LexicalError}
    (hscan : scanKind (embeddedScanner text.length) d (.ofText text names) = .error e s) :
    tokenize text names = (.error e, s.names) := by
  unfold tokenize
  rw [show 2 * text.length + 3 = 2 * text.length + 2 + 1 from rfl, tokens_succ,
    next_ofText hpeek hd, hscan]

end Tokenize

/-! ## Strings -/

/-- A text between marks. -/
def Quotes.around (q : Quotes) (body : List Char) : List Char := q.closing ++ (body ++ q.closing)

theorem Quotes.around_eq_cons (q : Quotes) (body : List Char) :
    ∃ more, q.around body = q.mark :: more := by
  rw [around, q.closing_eq_cons]
  exact ⟨_, rfl⟩

theorem Quotes.forall_mem_around (q : Quotes) {P : Char → Prop} (hmark : P q.mark)
    {body : List Char} (hbody : ∀ d ∈ body, P d) : ∀ d ∈ q.around body, P d := by
  have hclosing : ∀ d ∈ q.closing, P d := by
    intro d hd
    rwa [eq_of_mem_replicate hd]
  exact forall_mem_append.mpr ⟨hclosing, forall_mem_append.mpr ⟨hbody, hclosing⟩⟩

theorem literalFragment_toList (text : String) :
    literalFragment text.toList = if text = "" then [] else [.literal text] := by
  unfold literalFragment
  rw [String.ofList_toList]
  by_cases htext : text = ""
  · rw [if_pos htext, htext]
    rfl
  · rw [if_neg htext, if_neg (by simpa using htext)]

namespace Scanner

variable (nested : EmbeddedScanner) {mark : Char} (hmark : isQuote mark = true)

include hmark

theorem scanKind_quote (s : Scanner) : scanKind nested mark s = onCursor scanString s := by
  rcases isQuote_cases hmark with rfl | rfl <;> rfl

theorem scanKind_formatted {letter : Char} (hletter : letter = 'f' ∨ letter = 'F')
    {more : List Char} (hs : s.cursor.rest = letter :: mark :: more) : scanKind nested letter s =
      match scanFormatted nested s.cursor.location s.names
        ⟨mark :: more, s.cursor.location.along [letter]⟩ with
      | (.ok kind, names, cursor) => .ok kind { s with cursor, names }
      | (.error e, names, cursor) => .error e { s with cursor, names } := by
  have hstart : Text.isWordStart letter := by
    rcases hletter with rfl | rfl <;> decide
  have hpart : Text.isWordPart mark = false := by
    rcases isQuote_cases hmark with rfl | rfl <;> decide
  have hword : [letter] = ['f'] ∨ [letter] = ['F'] := by
    rcases hletter with rfl | rfl
    · exact .inl rfl
    · exact .inr rfl
  have hrun := Cursor.run_eq (show s.cursor.rest = [letter] ++ mark :: more from hs)
    (forall_mem_singleton.mpr (Text.isWordPart_of_isWordStart hstart)) hpart
  rw [scanKind, if_pos hstart, scanWord, hrun]
  dsimp only
  exact (if_pos ⟨hword, hmark⟩).trans rfl

end Scanner

/-- A text that is one string. -/
theorem tokenize_of_scanString {text : String} {names : NameTable} {mark : Char}
    (hmark : isQuote mark) (hpeek : (Cursor.ofText text).peek = some mark) {found : String}
    (hscan : scanString (.ofText text) = (.ok (.str found), ⟨[], l⟩)) :
    tokenize text names =
      (.ok [⟨.str found, ⟨{}, l⟩⟩, .mark .newline l, .mark .endOfInput l], names) := by
  refine tokenize_of_scanKind hpeek (startsToken_eq_true (by decide) hmark) rfl ?_
  rw [Scanner.scanKind_quote _ hmark, Scanner.onCursor]
  dsimp only [Scanner.ofText]
  rw [hscan]

section Formatted

variable {text : String} {names entered : NameTable} {letter mark : Char}
  (hletter : letter = 'f' ∨ letter = 'F') {more : List Char}
  (htext : text.toList = letter :: mark :: more)

include hletter htext

theorem startsToken_letter : (Cursor.ofText text).peek = some letter ∧ startsToken letter := by
  refine ⟨?_, ?_⟩
  · rw [Cursor.peek, Cursor.ofText, htext]
    rfl
  · rcases hletter with rfl | rfl <;> decide

variable (hmark : isQuote mark = true)

include hmark

/-- A text that is one formatted string. -/
theorem tokenize_of_scanFormatted {fragments : List Fragment}
    (hscan : scanFormatted (Scanner.embeddedScanner text.length) {} names
      ⟨mark :: more, Location.along {} [letter]⟩ = (.ok (.formatted fragments), entered, ⟨[], l⟩)) :
    tokenize text names =
      (.ok [⟨.formatted fragments, ⟨{}, l⟩⟩, .mark .newline l, .mark .endOfInput l], entered) := by
  obtain ⟨hpeek, hstarts⟩ := startsToken_letter hletter htext
  refine tokenize_of_scanKind hpeek hstarts rfl ?_
  rw [Scanner.scanKind_formatted _ hmark hletter htext]
  dsimp only [Scanner.ofText, Cursor.ofText]
  rw [hscan]

theorem tokenize_of_scanFormatted_error {e : LexicalError} {c : Cursor}
    (hscan : scanFormatted (Scanner.embeddedScanner text.length) {} names
      ⟨mark :: more, Location.along {} [letter]⟩ = (.error e, entered, c)) :
    tokenize text names = (.error e, entered) := by
  obtain ⟨hpeek, hstarts⟩ := startsToken_letter hletter htext
  have hkind := Scanner.scanKind_formatted (Scanner.embeddedScanner text.length) hmark hletter
    (s := .ofText text names) htext
  dsimp only [Scanner.ofText, Cursor.ofText] at hkind
  rw [hscan] at hkind
  exact tokenize_of_scanKind_error hpeek hstarts hkind

end Formatted

end Offside
