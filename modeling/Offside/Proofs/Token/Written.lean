import Offside.Proofs.Token.Number
import Offside.Proofs.Token.Spelling
import Offside.Proofs.Tree.WellFormed
import Offside.Token.Scanner

/-!
# Written tokens

A token is written by its spelling, and a string between quotes with its special characters escaped.
Behind a blank or the end of the line follows, which no word, number or symbol can go on with, and
so the scanner reads the token back (`scanKind_written`).
-/

namespace Offside

open List

/-! ## Writing -/

/-- The character behind a backslash that stands for a character of a string between two marks, if
one is needed. -/
def escapeOf? (mark d : Char) : Option Char :=
  if d = '\\' ∨ d = mark then some d
  else if d = '\n' then some 'n'
  else if d = '\r' then some 'r'
  else if d = '\t' then some 't'
  else if d = '\x00' then some '0'
  else none

/-- How a character of a string is written between two marks. -/
def writtenChar (mark d : Char) : List Char :=
  match escapeOf? mark d with
  | some e => ['\\', e]
  | none => [d]

variable {e mark : Char} {text : List Char} {word : String} {symbol : String × Kind}

namespace Kind

/-- How a kind is written, with the given mark around strings. -/
def written (mark : Char) : Kind → List Char
  | str text => mark :: (text.toList.flatMap (writtenChar mark) ++ [mark])
  | kind => (kind.spelling?.getD "").toList

/-- Whether a kind is read back from what is written: it is no mark of the layout, no float and no
formatted string, a name is free for identifiers, and an integer lies below the bound. -/
def IsWritable : Kind → Prop
  | identifier name => isPlainName name = true ∧ name ∉ knownFunctions
  | integer value => value < integerBound
  | operator spelling => (spelling, operator spelling) ∈ symbols
  | function name => name ∈ knownFunctions
  | keyword _ | str _ | sumOp _ | termOp _ | power | comparison _ | delimiter _ | library => True
  | indent | dedent | newline | endOfInput | float _ | formatted _ => False

/-- The bracket depth behind a kind. -/
def depthAfter (depth : Nat) : Kind → Nat
  | delimiter mark => mark.depthAfter depth
  | _ => depth

theorem depthAfter_ofWord (depth : Nat) (word : String) :
    (ofWord word).depthAfter depth = depth := by
  unfold ofWord
  split
  · rfl
  · split
    · rfl
    · split <;> rfl

theorem ofWord_of_mem_knownFunctions {name : String} (h : name ∈ knownFunctions) :
    ofWord name = function name ∧ Text.isWord name := by
  have hall : ∀ name ∈ knownFunctions, (Keyword.ofWord? name).isNone ∧ name ≠ libraryName ∧
      Text.isWord name := by decide
  obtain ⟨hkeyword, hlibrary, hword⟩ := hall name h
  rw [Option.isNone_iff_eq_none] at hkeyword
  refine ⟨?_, hword⟩
  rw [ofWord, hkeyword]
  exact (if_neg hlibrary).trans (if_pos h)

theorem ofWord_of_isPlainName {name : String} (h : isPlainName name)
    (hnot : name ∉ knownFunctions) :
    ofWord name = identifier name ∧ Text.isWord name := by
  simp only [isPlainName, Bool.and_eq_true, Option.isNone_iff_eq_none, bne_iff_ne] at h
  obtain ⟨⟨hword, hkeyword⟩, hlibrary⟩ := h
  refine ⟨?_, hword⟩
  rw [ofWord, hkeyword]
  exact (if_neg hlibrary).trans (if_neg hnot)

theorem ofWord_spelling (k : Keyword) : ofWord k.spelling = keyword k ∧ Text.isWord k.spelling := by
  refine ⟨by rw [ofWord, Keyword.ofWord?_spelling], ?_⟩
  have hall : ∀ k ∈ Keyword.all, Text.isWord k.spelling := by decide
  exact hall k k.mem_all

/-- Every symbol of the table is read from its own spelling. -/
theorem symbol?_toList (h : symbol ∈ symbols) : symbol? symbol.1.toList = some symbol := by
  have hall : ∀ symbol ∈ symbols, symbol? symbol.1.toList = some symbol := by
    unfold symbols
    repeat refine forall_mem_cons.mpr ⟨rfl, ?_⟩
    exact forall_mem_nil _
  exact hall symbol h

/-- What is written is a word, a number, a string or a symbol. -/
theorem IsWritable.cases {kind : Kind} (h : kind.IsWritable) (mark : Char) :
    (∃ word, kind.written mark = word.toList ∧ Text.isWord word ∧ kind = ofWord word) ∨
    (∃ spelling, kind.written mark = spelling.toList ∧
      symbol? spelling.toList = some (spelling, kind)) ∨
    (∃ value, kind = integer value ∧ value < integerBound) ∨ ∃ text, kind = str text := by
  cases kind with
  | identifier name =>
    obtain ⟨hkind, hword⟩ := ofWord_of_isPlainName h.1 h.2
    exact .inl ⟨name, rfl, hword, hkind.symm⟩
  | keyword k =>
    obtain ⟨hkind, hword⟩ := ofWord_spelling k
    exact .inl ⟨k.spelling, rfl, hword, hkind.symm⟩
  | function name =>
    obtain ⟨hkind, hword⟩ := ofWord_of_mem_knownFunctions h
    exact .inl ⟨name, rfl, hword, hkind.symm⟩
  | library => exact .inl ⟨libraryName, rfl, rfl, rfl⟩
  | integer value => exact .inr (.inr (.inl ⟨value, rfl, h⟩))
  | str text => exact .inr (.inr (.inr ⟨text, rfl⟩))
  | operator spelling => exact .inr (.inl ⟨spelling, rfl, symbol?_toList h⟩)
  | sumOp op | termOp op | comparison op => cases op <;> exact .inr (.inl ⟨_, rfl, rfl⟩)
  | power => exact .inr (.inl ⟨_, rfl, rfl⟩)
  | delimiter d =>
    cases d with
    | augmented op => cases op <;> exact .inr (.inl ⟨_, rfl, rfl⟩)
    | _ => exact .inr (.inl ⟨_, rfl, rfl⟩)
  | indent | dedent | newline | endOfInput | float _ | formatted _ => exact h.elim

end Kind

/-! ## Reading back -/

/-- Whether a character stands behind a written token. -/
def endsToken (d : Char) : Bool := d == ' ' || d == '\n'

/-- Whether a token can start with a character: it is not skipped and it ends no line. -/
def startsToken (d : Char) : Bool := !(isGap d || d == '#' || d == '\\' || isNewline d)

/-- What stands behind a written token belongs to no token. -/
theorem of_endsToken {d : Char} (h : endsToken d) :
    Text.isWordPart d = false ∧ d.isDigit = false ∧ isQuote d = false ∧ d ≠ '.' := by
  simp only [endsToken, Bool.or_eq_true, beq_iff_eq] at h
  rcases h with rfl | rfl <;> decide

theorem startsToken_eq_true {p : Char → Bool}
    (hp : [' ', '\t', '\x0c', '#', '\\', '\n', '\r'].all (!p ·)) {d : Char} (hd : p d) :
    startsToken d := by
  refine Bool.not_eq_true' _ |>.mpr (Bool.eq_false_iff.mpr fun h => ?_)
  have hmem : d ∈ [' ', '\t', '\x0c', '#', '\\', '\n', '\r'] := by
    simp only [isGap, isNewline, Bool.or_eq_true, beq_iff_eq] at h
    simp only [mem_cons, not_mem_nil, or_false]
    rcases h with ((((h | h) | h) | h) | h) | (h | h) <;> simp [h]
  have hnot := all_eq_true.mp hp d hmem
  rw [hd] at hnot
  cases hnot

theorem of_startsToken (h : startsToken e) :
    isGap e = false ∧ e ≠ '#' ∧ e ≠ '\\' ∧ isNewline e = false := by
  simpa [startsToken, and_assoc] using h

theorem skipGaps_of_startsToken {c : Cursor} (hpeek : c.peek = some e) (he : startsToken e)
    (joined : Bool) :
    skipGaps joined c = c := by
  obtain ⟨hgap, hcomment, hjoin, hline⟩ := of_startsToken he
  rw [skipGaps]
  split
  · rfl
  · rename_i d hd
    obtain rfl := Option.some.inj (hpeek.symm.trans hd)
    rw [if_neg (by simp [hgap]), if_neg hcomment, if_neg fun h =>
      hjoin h.1, if_neg (by simp [hline])]

variable {d : Char} {more : List Char}

theorem Text.exists_cons_of_isWord (h : Text.isWord word) :
    ∃ e text, word.toList = e :: text ∧ isWordStart e := by
  unfold isWord at h
  split at h
  · cases h
  · rename_i e text htext
    exact ⟨e, text, htext, (Bool.and_eq_true _ _ ▸ h).1⟩

theorem Text.isWordPart_of_isWord (h : Text.isWord word) : ∀ e ∈ word.toList, isWordPart e := by
  unfold isWord at h
  split at h
  · cases h
  · rename_i e text htext
    rw [Bool.and_eq_true, all_eq_true] at h
    rw [htext]
    exact forall_mem_cons.mpr ⟨isWordPart_of_isWordStart h.1, h.2⟩

theorem Scanner.scanWord_written (nested : EmbeddedScanner) {s : Scanner} (hword : Text.isWord word)
    (hs : s.cursor.rest = word.toList ++ d :: more) (hd : endsToken d)
    (hheld : ∀ name, Kind.ofWord word = .identifier name → name ∈ s.names.names) :
    ∃ location, scanWord nested s =
      .ok (.ofWord word) { s with cursor := ⟨d :: more, location⟩ } := by
  obtain ⟨hpart, -, hquote, -⟩ := of_endsToken hd
  refine ⟨s.cursor.location.along word.toList, ?_⟩
  rw [scanWord, Cursor.run_eq hs (Text.isWordPart_of_isWord hword) hpart]
  dsimp only
  rw [if_neg (by simp [Cursor.peek, hquote]), String.ofList_toList]
  split
  · rename_i name hname
    rw [NameTable.intern_eq_self (hheld name hname), hname]
  · rfl

/-! ### Numbers -/

theorem isWordStart_of_isDigit (h : e.isDigit) : Text.isWordStart e = false := by
  have hall : ∀ m < 10, Text.isWordStart (Nat.digitChar m) = false := by decide
  obtain ⟨hlt, heq⟩ := digitChar_of_isDigit h
  exact heq ▸ hall _ hlt

theorem isDigit_toDigits (value : Nat) : ∀ e ∈ Nat.toDigits 10 value, e.isDigit :=
  fun _ he => Nat.isDigit_of_mem_toDigits (by decide) (by decide) he

/-- Only zero is written with a zero in front. -/
theorem head?_toDigits {value : Nat} (h : 0 < value) :
    (Nat.toDigits 10 value).head? ≠ some '0' := by
  induction value using Nat.strongRecOn with
  | ind value ih =>
    by_cases hlt : value < 10
    · have hall : ∀ m < 10, 0 < m → [Nat.digitChar m].head? ≠ some '0' := by decide
      rw [Nat.toDigits_of_lt_base hlt]
      exact hall value hlt h
    · rw [Nat.toDigits_of_base_le (by decide) (by omega), head?_append]
      have hfirst := ih (value / 10) (by omega) (by omega)
      cases hhead : (Nat.toDigits 10 (value / 10)).head? with
      | none => exact absurd (head?_eq_none_iff.mp hhead) Nat.toDigits_ne_nil
      | some e => rwa [Option.some_or, ← hhead]

theorem digitsValue_toDigits (value : Nat) : digitsValue (Nat.toDigits 10 value) = value := by
  have h := Nat.ofDigitChars_toDigits (b := 10) (n := value) (by decide) (by decide)
  rwa [Nat.ofDigitChars_eq_foldl] at h

/-- A written number is scanned as its value. -/
theorem scanNumber_written {c : Cursor} {value : Nat}
    (hc : c.rest = (toString value).toList ++ d :: more) (hvalue : value < integerBound)
    (hd : endsToken d) :
    ∃ location, scanNumber c = (.ok (.integer value), ⟨d :: more, location⟩) := by
  obtain ⟨hpart, hdigit, -, hpoint⟩ := of_endsToken hd
  rw [Nat.toString_eq_repr, Nat.toList_repr] at hc
  have hzero : ¬(1 < (Nat.toDigits 10 value).length ∧ (Nat.toDigits 10 value).head? =
      some '0') := by
    rintro ⟨hlength, hhead⟩
    rcases Nat.eq_zero_or_pos value with rfl | hpos
    · exact absurd hlength (by decide)
    · exact head?_toDigits hpos hhead
  have hpoint' : NoneAhead (· == '.') (d :: more) := beq_eq_false_iff_ne.mpr hpoint
  have hword : NoneAhead Text.isWordPart (d :: more) := hpart
  obtain ⟨location, hscan⟩ :=
    scanNumber_of_parts hc ⟨Nat.toDigits_ne_nil, isDigit_toDigits value⟩ hdigit hzero
    (.absent hpoint') hword.exponentAt
  have hkind : numberKind c.location (Nat.toDigits 10 value) none none = .ok (.integer value) := by
    simp [numberKind, digitsValue_toDigits, hvalue]
  rw [hword.filter_eq_none, Option.elim_none, hkind] at hscan
  exact ⟨location, hscan⟩

/-! ### Symbols -/

theorem notMem_symbol (h : symbol ∈ symbols) (hd : endsToken d) : d ∉ symbol.1.toList := by
  have hall : ∀ symbol ∈ symbols, symbol.1.toList.all (!endsToken ·) := by decide
  intro hmem
  have hends := all_eq_true.mp (hall symbol h) d hmem
  rw [hd] at hends
  cases hends

/-- A symbol starts like no other token. -/
theorem of_symbol_cons (h : symbol ∈ symbols) (htext : symbol.1.toList = e :: text) :
    startsToken e ∧ Text.isWordStart e = false ∧ e.isDigit = false ∧ isQuote e = false := by
  have hall : ∀ symbol ∈ symbols, symbol.1.toList.head?.all (fun e =>
      startsToken e && !Text.isWordStart e && !e.isDigit && !isQuote e) := by decide
  have hfirst := hall symbol h
  rw [htext] at hfirst
  simpa [and_assoc] using hfirst

/-- A part that ends before a character was not begun behind it. -/
theorem prefix_of_prefix_append_cons {part : List Char} (h : part <+: text ++ d :: more)
    (hd : d ∉ part) :
    part <+: text := by
  rcases Nat.lt_or_ge text.length part.length with hlt | hle
  · have htext : text ++ [d] <+: text ++ d :: more := ⟨more, by simp⟩
    have hpart := prefix_of_prefix_length_le htext h (by rw [length_append]; exact hlt)
    exact absurd (hpart.subset (by simp)) hd
  · exact prefix_of_prefix_length_le h (prefix_append _ _) hle

/-- Behind the end of a token no longer symbol is found. -/
theorem symbol?_append (h : symbol? text = some symbol) (hd : endsToken d) :
    symbol? (text ++ d :: more) = some symbol := by
  unfold symbol? at h ⊢
  obtain ⟨hleads, before, after, hsymbols, hbefore⟩ := find?_eq_some_iff_append.mp h
  refine find?_eq_some_iff_append.mpr ⟨?_, before, after, hsymbols, fun other hother => ?_⟩
  · have hshorter := isPrefixOf_iff_prefix.mp hleads
    exact isPrefixOf_iff_prefix.mpr (hshorter.trans (prefix_append _ _))
  · have hmem : other ∈ symbols := hsymbols ▸ mem_append_left _ hother
    rw [Bool.not_eq_true', Bool.eq_false_iff, Ne, isPrefixOf_iff_prefix]
    intro hlonger
    have hshort := prefix_of_prefix_append_cons hlonger (notMem_symbol hmem hd)
    rw [← isPrefixOf_iff_prefix] at hshort
    simpa [hshort] using hbefore other hother

theorem Scanner.scanSymbol_written {s : Scanner} {spelling : String} {kind : Kind}
    (h : symbol? spelling.toList = some (spelling, kind))
    (hs : s.cursor.rest = spelling.toList ++ d :: more) (hd : endsToken d) (e : Char) :
    ∃ location, scanSymbol e s = .ok kind
      { s with cursor := ⟨d :: more, location⟩, bracketDepth :=
        kind.depthAfter s.bracketDepth } := by
  obtain ⟨hmem, -⟩ := symbol?_eq_some h
  obtain ⟨-, -, hline⟩ := spelling?_of_mem_symbols hmem
  have hpass : s.cursor.Passes spelling.toList (s.cursor.skipMany spelling.length) := by
    rw [← String.length_toList]
    exact Cursor.passes_skipMany ⟨d :: more, hs.symm⟩ hline
  have hcursor : s.cursor.skipMany spelling.length =
      ⟨d :: more, (s.cursor.skipMany spelling.length).location⟩ := by
    have hrest := hpass.rest
    rw [hs, append_cancel_left_eq] at hrest
    rw [hrest]
  refine ⟨(s.cursor.skipMany spelling.length).location, ?_⟩
  rw [scanSymbol, hs, symbol?_append h hd]
  dsimp only
  rw [← hcursor]
  cases kind <;> rfl

/-! ### Strings -/

theorem isQuote_cases (h : isQuote mark) : mark = '"' ∨ mark = '\'' := by
  simpa [isQuote] using h

theorem Cursor.advance_of_rest {c : Cursor} (hc : c.rest = d :: more) (hd : isNewline d = false) :
    c.advance = some (d, ⟨more, c.location.along [d]⟩) := by
  rw [advance, hc]
  split
  · rename_i hnil
    cases hnil
  · rename_i hcons
    rw [(cons.inj hcons).1] at hd
    cases hd
  · rename_i hcons
    cases hcons
    rw [hd]
    rfl

/-- A text stands in a string for one character: behind a backslash, or as it is. -/
inductive ReadsAs (mark e : Char) : List Char → Prop
  | escaped {f : Char} (hline : isNewline f = false) (hread : unescaped f = [e]) :
    ReadsAs mark e ['\\', f]
  | plain (hslash : e ≠ '\\') (hmark : e ≠ mark) (hline : isNewline e = false) : ReadsAs mark e [e]

/-- What is written for a character is read back as this character. -/
theorem readsAs_writtenChar (hmark : isQuote mark) (e : Char) :
    ReadsAs mark e (writtenChar mark e) := by
  unfold writtenChar
  split
  · rename_i f hescape
    have hread : isNewline f = false ∧ unescaped f = [e] := by
      rcases isQuote_cases hmark with rfl | rfl <;> grind [escapeOf?, unescaped, isNewline]
    exact .escaped hread.1 hread.2
  · rename_i hescape
    have hplain : e ≠ '\\' ∧ e ≠ mark ∧ isNewline e = false := by
      grind [escapeOf?, isNewline]
    exact .plain hplain.1 hplain.2.1 hplain.2.2

/-- What stands for a character does not start like the closing mark. -/
theorem ReadsAs.exists_cons {written : List Char} (h : ReadsAs mark e written)
    (hmark : isQuote mark) :
    ∃ first others, written = first :: others ∧ first ≠ mark := by
  cases h with
  | escaped hline hread =>
    refine ⟨_, _, rfl, ?_⟩
    rcases isQuote_cases hmark with rfl | rfl <;> decide
  | plain hslash hother hline => exact ⟨_, _, rfl, hother⟩

section Piece

variable (start : Location) {q : Quotes} {c : Cursor}

theorem Quotes.closing_eq_cons (q : Quotes) :
    q.closing = q.mark :: replicate (if q.triple then 2 else 0) q.mark := by
  obtain ⟨mark, triple⟩ := q
  cases triple <;> rfl

/-- The closing marks end a string. -/
theorem scanPiece_closing (hmark : isQuote q.mark) (hc : c.rest = q.closing ++ more) :
    ∃ location, scanPiece start q c = .closed ⟨more, location⟩ := by
  have hline : ∀ e ∈ q.closing, isNewline e = false := by
    intro e he
    rw [eq_of_mem_replicate he]
    rcases isQuote_cases hmark with h | h <;> rw [h] <;> decide
  have hleads : q.closing <+: c.rest := ⟨more, hc.symm⟩
  have hrest := (Cursor.passes_skipMany hleads hline).rest
  rw [hc, append_cancel_left_eq] at hrest
  have hstarts := isPrefixOf_iff_prefix.mpr hleads
  rw [scanPiece, Quotes.close?, if_pos hstarts, hrest]
  exact ⟨_, rfl⟩

theorem close?_eq_none (hc : c.rest = d :: more) (hd : d ≠ q.mark) : q.close? c = none := by
  rw [Quotes.close?, if_neg]
  rw [hc, q.closing_eq_cons, isPrefixOf, beq_eq_false_iff_ne.mpr hd.symm]
  exact Bool.false_ne_true

/-- A character without a meaning of its own is read as it is. -/
theorem scanPiece_plain (hc : c.rest = d :: more) (hmark : d ≠ q.mark) (hd : d ≠ '\\')
    (hline : isNewline d = false) :
    ∃ location h, scanPiece start q c = .text [d] ⟨more, location⟩ h := by
  have hadvance := Cursor.advance_of_rest hc hline
  have hnot : ¬(d = '\n' ∧ (!q.triple)) := by
    rintro ⟨rfl, -⟩
    cases hline
  rw [scanPiece, close?_eq_none hc hmark]
  dsimp only
  split
  · rename_i hnone
    rw [hadvance] at hnone
    cases hnone
  · rename_i e next hsome
    rw [hadvance] at hsome
    cases hsome
    rw [if_neg hnot, if_neg hd]
    exact ⟨_, by rw [hc]; exact Nat.lt_succ_self _, rfl⟩

/-- An escape is read as what it stands for. -/
theorem scanPiece_escape (hc : c.rest = '\\' :: d :: more) (hmark : isQuote q.mark)
    (hline : isNewline d = false) :
    ∃ location h, scanPiece start q c = .text (unescaped d) ⟨more, location⟩ h := by
  have hadvance := Cursor.advance_of_rest hc (by decide)
  have hne : '\\' ≠ q.mark := by
    rcases isQuote_cases hmark with h | h <;> rw [h] <;> decide
  have hnot : ¬('\\' = '\n' ∧ (!q.triple)) := fun h => absurd h.1 (by decide)
  rw [scanPiece, close?_eq_none hc hne]
  dsimp only
  split
  · rename_i hnone
    rw [hadvance] at hnone
    cases hnone
  · rename_i e next hsome
    rw [hadvance] at hsome
    cases hsome
    rw [if_neg hnot, if_pos rfl]
    have hadvance' := Cursor.advance_of_rest (c := ⟨d :: more, c.location.along ['\\']⟩) rfl hline
    split
    · rename_i hnone
      rw [hadvance'] at hnone
      cases hnone
    · rename_i e after hsome'
      rw [hadvance'] at hsome'
      cases hsome'
      exact ⟨_, by rw [hc]; exact Nat.lt_succ_of_lt (Nat.lt_succ_self _), rfl⟩

/-- What stands for a character is read as this character. -/
theorem scanPiece_of_readsAs (hmark : isQuote q.mark) {written : List Char}
    (h : ReadsAs q.mark e written) (hc : c.rest = written ++ more) :
    ∃ location h, scanPiece start q c = .text [e] ⟨more, location⟩ h := by
  cases h with
  | escaped hline hread =>
    rw [← hread]
    exact scanPiece_escape start hc hmark hline
  | plain hslash hother hline => exact scanPiece_plain start hc hother hslash hline

variable {write : Char → List Char}

theorem scanText_written (hmark : isQuote q.mark) (hwrite : ∀ e, ReadsAs q.mark e (write e))
    (hc : c.rest = text.flatMap write ++ (q.closing ++ more)) :
    ∃ location, scanText start q c = (.ok text, ⟨more, location⟩) := by
  induction text generalizing c with
  | nil =>
    obtain ⟨location, hpiece⟩ := scanPiece_closing start hmark hc
    rw [scanText, hpiece]
    exact ⟨location, rfl⟩
  | cons e text ih =>
    rw [flatMap_cons, append_assoc] at hc
    obtain ⟨location, hshorter, hpiece⟩ := scanPiece_of_readsAs start hmark (hwrite e) hc
    obtain ⟨last, hrest⟩ := ih (c := ⟨_, location⟩) rfl
    rw [scanText, hpiece]
    dsimp only
    rw [hrest]
    exact ⟨last, rfl⟩

/-- The opening marks are one quote, unless two more follow. -/
theorem openAt_marks (hmark : isQuote q.mark) {body : List Char} (hc : c.rest = q.closing ++ body)
    (hbody : q.triple = false → ¬[q.mark, q.mark] <+: body) :
    Quotes.openAt c = (q, ⟨body, c.location.along q.closing⟩) := by
  obtain ⟨mark, triple⟩ := q
  have hline : isNewline mark = false := by
    rcases isQuote_cases hmark with rfl | rfl <;> decide
  have hskip {text : List Char} {l : Location} : Cursor.skip ⟨mark :: text, l⟩ =
      ⟨text, l.along [mark]⟩ := by
    rw [Cursor.skip, Cursor.advance_of_rest rfl hline]
    rfl
  obtain ⟨rest, l⟩ := c
  obtain rfl : rest = _ := hc
  cases triple with
  | true =>
    have hpeek : Cursor.peek ⟨Quotes.closing ⟨mark, true⟩ ++ body, l⟩ = some mark := rfl
    have hnext : Cursor.skip ⟨Quotes.closing ⟨mark, true⟩ ++ body, l⟩ =
      ⟨mark :: mark :: body, l.along [mark]⟩ := hskip
    have halong : ((l.along [mark]).along [mark]).along [mark] = l.along [mark, mark, mark] := by
      rw [← Location.along_append, ← Location.along_append]
      rfl
    rw [Quotes.openAt, hpeek, hnext]
    dsimp only [Option.getD_some]
    rw [if_pos ⟨rfl, rfl⟩, Cursor.skipMany, Cursor.skipMany, Cursor.skipMany, hskip, hskip, halong]
    rfl
  | false =>
    have hpeek : Cursor.peek ⟨Quotes.closing ⟨mark, false⟩ ++ body, l⟩ = some mark := rfl
    have hnext : Cursor.skip ⟨Quotes.closing ⟨mark, false⟩ ++ body, l⟩ = ⟨body, l.along [mark]⟩ :=
      hskip
    have htriple : ¬(Cursor.peek ⟨body, l.along [mark]⟩ = some mark ∧
        Cursor.peekSecond ⟨body, l.along [mark]⟩ = some mark) := by
      rintro ⟨hfirst, hsecond⟩
      refine hbody rfl ?_
      rcases body with _ | ⟨e, _ | ⟨f, more⟩⟩
      · cases hfirst
      · cases hsecond
      · rw [Option.some.inj hfirst, Option.some.inj hsecond]
        exact ⟨more, rfl⟩
    rw [Quotes.openAt, hpeek, hnext]
    dsimp only [Option.getD_some]
    rw [if_neg htriple]
    rfl

/-- What is written between two single marks does not go on with two more. -/
theorem not_prefix_written (hmark : isQuote q.mark) (hwrite : ∀ e, ReadsAs q.mark e (write e))
    (hmore : more.head? ≠ some q.mark) (hsingle : q.triple = false) :
    ¬[q.mark, q.mark] <+: text.flatMap write ++ (q.closing ++ more) := by
  rintro ⟨rest, hrest⟩
  cases text with
  | nil =>
    rw [q.closing_eq_cons, hsingle] at hrest
    have htail := congrArg head? (cons.inj hrest).2
    exact hmore htail.symm
  | cons e text =>
    obtain ⟨first, others, hwritten, hfirst⟩ := (hwrite e).exists_cons hmark
    rw [flatMap_cons, hwritten] at hrest
    exact hfirst (cons.inj hrest).1.symm

theorem scanString_written (hmark : isQuote q.mark) (hwrite : ∀ e, ReadsAs q.mark e (write e))
    (text : String) (hc : c.rest = q.closing ++ (text.toList.flatMap write ++ (q.closing ++ more)))
    (hmore : more.head? ≠ some q.mark) :
    ∃ location, scanString c = (.ok (.str text), ⟨more, location⟩) := by
  obtain ⟨location, htext⟩ := scanText_written c.location hmark hwrite
    (c := ⟨text.toList.flatMap write ++ (q.closing ++ more), c.location.along q.closing⟩) rfl
  rw [scanString, openAt_marks hmark hc (not_prefix_written hmark hwrite hmore)]
  dsimp only
  rw [htext]
  refine ⟨location, ?_⟩
  change (Except.ok (Kind.str (String.ofList text.toList)), _) = _
  rw [String.ofList_toList]

end Piece

/-! ### All tokens -/

theorem written_integer (mark : Char) (value : Nat) :
    (Kind.integer value).written mark = Nat.toDigits 10 value := by
  change (toString value).toList = _
  rw [Nat.toString_eq_repr, Nat.toList_repr]

theorem isDigit_of_toDigits_cons {value : Nat} (h : Nat.toDigits 10 value = e :: text) :
    e.isDigit :=
  isDigit_toDigits value e (h ▸ mem_cons_self)

/-- A written token starts with a character that is neither skipped nor ends a line. -/
theorem Kind.IsWritable.exists_written_cons {kind : Kind} (h : kind.IsWritable)
    (hmark : isQuote mark) :
    ∃ e text, kind.written mark = e :: text ∧ startsToken e := by
  rcases h.cases mark with
    ⟨word, hwritten, hword, -⟩ | ⟨spelling, hwritten, hsymbol⟩ | ⟨value, rfl, -⟩ | ⟨text, rfl⟩
  · obtain ⟨e, text, htext, he⟩ := Text.exists_cons_of_isWord hword
    exact ⟨e, text, hwritten.trans htext, startsToken_eq_true (by decide) he⟩
  · obtain ⟨hmem, -⟩ := symbol?_eq_some hsymbol
    obtain ⟨-, hne, -⟩ := spelling?_of_mem_symbols hmem
    obtain ⟨e, text, htext⟩ := exists_cons_of_ne_nil hne
    exact ⟨e, text, hwritten.trans htext, (of_symbol_cons hmem htext).1⟩
  · obtain ⟨e, text, htext⟩ := exists_cons_of_ne_nil (Nat.toDigits_ne_nil (n := value) (b := 10))
    exact ⟨e, text, (written_integer mark value).trans htext,
      startsToken_eq_true (by decide) (isDigit_of_toDigits_cons htext)⟩
  · exact ⟨mark, _, rfl, startsToken_eq_true (by decide) hmark⟩

/-- A written token is read back, wherever it stands in a line. -/
theorem Scanner.scanKind_written (nested : EmbeddedScanner) {s : Scanner} {kind : Kind}
    (hmark : isQuote mark) (hkind : kind.IsWritable)
    (hheld : ∀ name, kind = .identifier name → name ∈ s.names.names)
    (hs : s.cursor.rest = kind.written mark ++ d :: more) (hd : endsToken d)
    (he : kind.written mark = e :: text) : ∃ location, scanKind nested e s =
      .ok kind { s with
        cursor := ⟨d :: more, location⟩, bracketDepth := kind.depthAfter s.bracketDepth } := by
  rcases hkind.cases mark with
    ⟨word, hwritten, hword, rfl⟩ | ⟨spelling, hwritten, hsymbol⟩ | ⟨value,
      rfl, hvalue⟩ | ⟨text, rfl⟩
  · obtain ⟨e', text', htext, hstart⟩ := Text.exists_cons_of_isWord hword
    obtain ⟨rfl, rfl⟩ := cons.inj (he.symm.trans (hwritten.trans htext))
    obtain ⟨location, hscan⟩ := scanWord_written nested hword (hwritten ▸ hs) hd hheld
    refine ⟨location, ?_⟩
    rw [scanKind, if_pos hstart, hscan, Kind.depthAfter_ofWord]
  · obtain ⟨hmem, -⟩ := symbol?_eq_some hsymbol
    obtain ⟨-, hword, hdigit, hquote⟩ := of_symbol_cons hmem (hwritten.symm.trans he)
    obtain ⟨location, hscan⟩ := scanSymbol_written hsymbol (hwritten ▸ hs) hd e
    refine ⟨location, ?_⟩
    rw [scanKind, hword, hdigit, hquote]
    exact hscan
  · obtain ⟨location, hscan⟩ := scanNumber_written hs hvalue hd
    have hdigit := isDigit_of_toDigits_cons ((written_integer mark value).symm.trans he)
    refine ⟨location, ?_⟩
    rw [scanKind, isWordStart_of_isDigit hdigit, hdigit]
    change onCursor scanNumber s = _
    rw [onCursor, hscan]
    rfl
  · have hother : (d :: more).head? ≠ some mark := by
      have hquote := (of_endsToken hd).2.2.1
      rintro ⟨⟩
      exact absurd (hquote.symm.trans hmark) Bool.false_ne_true
    obtain ⟨location, hscan⟩ := scanString_written (q := ⟨mark, false⟩) hmark
      (readsAs_writtenChar hmark) text (by simpa [Kind.written, Quotes.closing] using hs) hother
    obtain ⟨rfl, -⟩ := cons.inj he
    have hkind : Text.isWordStart mark = false ∧ mark.isDigit = false := by
      rcases isQuote_cases hmark with rfl | rfl <;> decide
    refine ⟨location, ?_⟩
    rw [scanKind, hkind.1, hkind.2, hmark]
    change onCursor scanString s = _
    rw [onCursor, hscan]
    rfl

end Offside
