import Offside.Emit.Expression
import Offside.Proofs.Token.Alone
import Offside.Reader.Expression

/-!
# Strings without braces

In front of a string without braces the letter of a formatted string changes nothing: the two are
the same text, end at the same place and are emitted alike, or both are refused for the same cause
(`next_braceFree`).  The pieces of the one are the pieces of the other, and all of them are literal.
-/

namespace Offside

open List

/-- The comparison that forgets where the two readings take place. -/
def Collation.placeless : Collation where
  place _ := {}
  place' _ := {}
  names := id
  swaps := Eq
  place_along _ _ := rfl
  place_nextLine _ _ := rfl
  names_intern := NameTable.id_intern

/-! ## Scanning -/

theorem scanFragments_braceFree (nested : EmbeddedScanner) (start : Location) (q : Quotes)
    (names : NameTable) (literal : List Char) {c : Cursor}
    (hc : ∀ d ∈ c.rest, d ≠ '\x7b' ∧ d ≠ '\x7d') :
    scanFragments nested start q names literal c =
      ((scanText start q c).1.map fun text => literalFragment (literal ++ text), names,
        (scanText start q c).2) := by
  have hpeek {c : Cursor} (hc : ∀ d ∈ c.rest, d ≠ '\x7b' ∧ d ≠ '\x7d') :
      c.peek ≠ some '\x7b' ∧ c.peek ≠ some '\x7d' :=
    ⟨fun h => (hc _ (mem_of_getElem? h)).1 rfl, fun h => (hc _ (mem_of_getElem? h)).2 rfl⟩
  fun_induction scanText start q c generalizing literal with
  | case1 c next hpiece =>
    rw [scanFragments_plain _ _ _ _ _ (hpeek hc).1 (hpeek hc).2, hpiece]
    dsimp only [Except.map]
    rw [append_nil]
  | case2 c e next hpiece =>
    rw [scanFragments_plain _ _ _ _ _ (hpeek hc).1 (hpeek hc).2, hpiece]
    rfl
  | case3 c text next hshorter hpiece result final hscan ih =>
    have hpassed := reaches_scanPiece start q c
    rw [hpiece] at hpassed
    rw [scanFragments_plain _ _ _ _ _ (hpeek hc).1 (hpeek hc).2, hpiece]
    dsimp only
    rw [ih (literal ++ text) (hpassed.forall_mem hc), hscan]
    cases result with
    | error e => rfl
    | ok more =>
      dsimp only [Except.map]
      rw [append_assoc]

/-- A string and a formatted string at the same text without braces, wherever the two start. -/
theorem scanFormatted_braceFree (nested : EmbeddedScanner) (start : Location) (names : NameTable)
    {text : List Char} (htext : ∀ d ∈ text, d ≠ '\x7b' ∧ d ≠ '\x7d') (l l' : Location)
    (hquote : text.head?.any isQuote) :
    (∃ found rest last last', scanString ⟨text, l⟩ = (.ok (.str found), ⟨rest, last⟩) ∧
      scanFormatted nested start names ⟨text, l'⟩ =
        (.ok (.formatted (if found = "" then [] else [.literal found])), names, ⟨rest, last'⟩)) ∨
    ∃ e e' last last', scanString ⟨text, l⟩ = (.error e, last) ∧
      scanFormatted nested start names ⟨text, l'⟩ = (.error e', names, last') ∧
        e'.cause = e.cause := by
  have halike : Cursor.Alike .placeless ⟨text, l⟩ ⟨text, l'⟩ := ⟨.refl (fun _ => rfl) text, rfl⟩
  have hopens : (Cursor.mk text l).peek.any isQuote := by
    rwa [Cursor.peek, ← head?_eq_getElem?]
  obtain ⟨hmarks, hline, hnext⟩ := alike_openAt halike hopens
  have hbody := ((Cursor.reaches_skip ⟨text, l'⟩).trans (reaches_openAt _)).forall_mem htext
  have hscanned : ScannedAlike .placeless Eq (scanText l _ (Quotes.openAt ⟨text, l⟩).2)
      (scanText start _ (Quotes.openAt ⟨text, l'⟩).2) := alike_scanText rfl hnext hline
  rw [hmarks] at hscanned
  unfold scanString scanFormatted
  dsimp only
  rw [scanFragments_braceFree _ _ _ _ _ hbody, hmarks]
  generalize scanText l _ (Quotes.openAt ⟨text, l⟩).2 = scanned at hscanned ⊢
  generalize scanText start _ (Quotes.openAt ⟨text, l'⟩).2 = scanned' at hscanned ⊢
  cases hscanned with
  | @ok found found' c c' h hlast =>
    obtain rfl : found = found' := h
    obtain ⟨rest, last⟩ := c
    obtain ⟨rest', last'⟩ := c'
    obtain rfl : rest' = rest := hlast.rest.eq_of_eq
    refine .inl ⟨.ofList found, rest', last, last', rfl, ?_⟩
    rw [← literalFragment_toList, String.toList_ofList]
    rfl
  | @error e e' c c' h _ =>
    refine .inr ⟨e, e', c, c', rfl, rfl, ?_⟩
    exact (congrArg LexicalError.cause h).symm

/-! ## Emitting -/

/-- A reader that stands before another token. -/
def Reader.before (r : Reader) (token : Token) : Reader :=
  { r with stream := { r.stream with current := token } }

/-- The text that is emitted for the atom that a reader stands before. -/
def Reader.emittedAtom (scope : Emit.Scope) (r : Reader) : Option String :=
  match Reader.atomWith Reader.expression r with
  | .ok atom _ => (Emit.atomCode scope atom).toOption.map Target.Code.text
  | .error _ _ => none

/-- A literal of the emitted code. -/
def literalText (text : String) : String := "\"" ++ Target.escapeText text ++ "\""

theorem emittedAtom_str (scope : Emit.Scope) (r : Reader) {token : Token} {text : String}
    (hkind : token.kind = .str text) :
    (r.before token).emittedAtom scope = some (literalText text) := by
  obtain ⟨kind, span⟩ := token
  obtain rfl : kind = .str text := hkind
  change some ("\"" ++ (Target.escapeText text ++ "") ++ "\"") = _
  rw [String.append_empty]
  rfl

theorem emittedAtom_formatted (scope : Emit.Scope) (r : Reader) {token : Token} {text : String}
    (hkind : token.kind = .formatted (if text = "" then [] else [.literal text])) :
    (r.before token).emittedAtom scope = some (literalText text) := by
  obtain ⟨kind, span⟩ := token
  obtain rfl : kind = .formatted (if text = "" then [] else [.literal text]) := hkind
  by_cases htext : text = ""
  · rw [if_pos htext, htext]
    rfl
  · rw [if_neg htext]
    change some ("\"" ++ (Target.escapeText text ++ "") ++ "\"") = _
    rw [String.append_empty]
    rfl

/-- A string and a formatted string come to the same: to the same text, in front of the same text,
and to the same emitted code; or to errors of the same cause. -/
inductive SameString :
    EStateM.Result LexicalError Scanner Token → EStateM.Result LexicalError Scanner Token → Prop
  | read {text : String} {token token' : Token} {s s' : Scanner} (hkind : token.kind = .str text)
    (hkind' : token'.kind = .formatted (if text = "" then [] else [.literal text]))
    (hrest : s'.cursor.rest = s.cursor.rest) (hnames : s'.names = s.names)
    (hemitted : ∀ scope (r : Reader), (r.before token).emittedAtom scope = some (literalText text) ∧
      (r.before token').emittedAtom scope = some (literalText text)) : SameString (.ok token s)
        (.ok token' s')
  | refused {e e' : LexicalError} {s s' : Scanner} (hcause : e'.cause = e.cause) :
    SameString (.error e s) (.error e' s')

/-- A text without braces between any marks, without the letter and with it. -/
theorem next_braceFree {q : Quotes} (hmark : isQuote q.mark = true) {letter : Char}
    (hletter : letter = 'f' ∨ letter = 'F') (body : List Char)
    (hbody : ∀ d ∈ body, d ≠ '\x7b' ∧ d ≠ '\x7d') (names : NameTable) :
    SameString (Scanner.next true false (.ofText (.ofList (q.around body)) names))
      (Scanner.next true false (.ofText (.ofList (letter :: q.around body)) names)) := by
  have hquote : q.mark ≠ '\x7b' ∧ q.mark ≠ '\x7d' := by
    rcases isQuote_cases hmark with h | h <;> rw [h] <;> decide
  have htext := q.forall_mem_around hquote hbody
  obtain ⟨more, haround⟩ := q.around_eq_cons body
  rw [haround] at htext ⊢
  have hpeek : (Cursor.ofText (.ofList (q.mark :: more))).peek = some q.mark := by
    rw [Cursor.peek, Cursor.ofText, String.toList_ofList]
    rfl
  have hletters : (String.ofList (letter :: q.mark :: more)).toList = letter :: q.mark :: more :=
    String.toList_ofList
  obtain ⟨hpeek', hstarts⟩ := startsToken_letter hletter hletters
  rw [next_ofText hpeek (startsToken_eq_true (by decide) hmark), next_ofText hpeek' hstarts,
    Scanner.scanKind_quote _ hmark, Scanner.scanKind_formatted _ hmark hletter hletters,
      Scanner.onCursor]
  dsimp only [Scanner.ofText, Cursor.ofText]
  rw [String.toList_ofList]
  rcases scanFormatted_braceFree _ {} names htext {} (Location.along {} [letter])
    (by simpa using hmark) with
    ⟨found, rest, last, last', hscan, hscan'⟩ | ⟨e, e', last, last', hscan, hscan', hcause⟩
  · rw [hscan, hscan']
    exact .read rfl rfl rfl rfl fun scope r =>
      ⟨emittedAtom_str scope r rfl, emittedAtom_formatted scope r rfl⟩
  · rw [hscan, hscan']
    exact .refused hcause

/-- An escape that is not known, and a quote that does not end the string. -/
theorem next_braceFree_escape :
    SameString (Scanner.next true false (.ofText "'''a\\q'b'''"))
      (Scanner.next true false (.ofText "f'''a\\q'b'''")) :=
  next_braceFree (q := ⟨'\'', true⟩) (by decide) (.inl rfl)
    ['a', '\\', 'q', '\'', 'b'] (by simp) {}

end Offside
