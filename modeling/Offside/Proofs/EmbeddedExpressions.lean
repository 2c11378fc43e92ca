import Offside.Proofs.Token.Alone

/-!
# Embedded expressions

An expression that is embedded in a formatted string has the tokens that it has as a text of its
own, except for the end of its line, at places that are moved by what stands before it
(`tokenize_embedded`).  This is shown for expressions of one line without strings and comments.  The
scanner of an embedded expression takes the steps of the scanner of a text (`stepsAlike`), and only
at the end do the two differ (`embeds_tokens`).
-/

namespace Offside

open List

/-- Whether a character may stand in an expression that is embedded as it is: it is no quote, no
brace, and no part of a gap with more than blanks. -/
def isEmbeddable (d : Char) : Bool :=
  !(isQuote d || isNewline d || d == '\\' || d == '#' || d == '\x7b' || d == '\x7d')

/-- Whether the round and square brackets of a text are balanced, behind some that are open. -/
def isBalanced : Nat → List Char → Bool
  | depth, [] => depth == 0
  | depth, d :: rest =>
    if d == '(' || d == '[' then isBalanced (depth + 1) rest
    else if d == ')' || d == ']' then 0 < depth && isBalanced (depth - 1) rest
    else isBalanced depth rest

/-- A location with a number of one-byte characters before it on its line. -/
def Location.moved (width : Nat) (l : Location) : Location :=
  ⟨l.line, l.column + .ofNat width, l.offset + .ofNat width⟩

theorem Location.along_moved (width : Nat) (l : Location) (text : List Char) :
    (l.moved width).along text = (l.along text).moved width := by
  simp only [moved, along, UInt32.add_assoc, UInt32.add_comm (.ofNat width)]

variable {d : Char}

theorem of_isEmbeddable (h : isEmbeddable d) :
    isQuote d = false ∧ isNewline d = false ∧ d ≠ '\\' ∧ d ≠ '#' ∧ d ≠ '\x7b' ∧ d ≠ '\x7d' := by
  simpa [isEmbeddable, and_assoc] using h

/-- The brace behind a balanced text closes it. -/
theorem splitEmbedded_balanced {text : List Char} (htext : ∀ d ∈ text, isEmbeddable d) {depth : Nat}
    (hbalanced : isBalanced depth text) {mark : Char} (hmark : isQuote mark) (after : List Char) :
    splitEmbedded mark depth none (text ++ '\x7d' :: after) = some (text, after) := by
  induction text generalizing depth with
  | nil =>
    obtain rfl : depth = 0 := beq_iff_eq.mp hbalanced
    have hbrace : ¬(isNewline '\x7d' ∨ '\x7d' = mark) := by
      rcases isQuote_cases hmark with rfl | rfl <;> decide
    rw [nil_append, splitEmbedded, if_neg hbrace, if_pos ⟨rfl, rfl⟩]
  | cons d text ih =>
    obtain ⟨hd, htext⟩ := forall_mem_cons.mp htext
    obtain ⟨hquote, hline, -, -, hopen, hclose⟩ := of_isEmbeddable hd
    have hdepth : isBalanced (embeddedDepth depth d) text := by
      unfold embeddedDepth
      rw [isBalanced] at hbalanced
      split at hbalanced
      · rename_i h
        rw [if_pos (by rw [h]; rfl)]
        exact hbalanced
      · rename_i h
        rw [if_neg (by simpa [hopen] using h)]
        split at hbalanced
        · rename_i h'
          rw [if_pos (by rw [h']; rfl)]
          exact (Bool.and_eq_true_iff.mp hbalanced).2
        · rename_i h'
          rw [if_neg (by simpa [hclose] using h')]
          exact hbalanced
    have hne : d ≠ mark := by
      rintro rfl
      exact absurd (hquote.symm.trans hmark) Bool.false_ne_true
    rw [cons_append, splitEmbedded, if_neg (by simp [hline, hne]), if_neg (fun h => hclose h.1),
      if_neg (by simp [hquote]), ih htext hdepth]
    rfl

namespace Scanner

/-! ## Steps -/

/-- Nothing but embeddable characters is left to read. -/
def IsPlain (c : Cursor) : Prop := ∀ d ∈ c.rest, isEmbeddable d = true

theorem IsPlain.peek {c : Cursor} (hc : IsPlain c) (hpeek : c.peek = some d) : isEmbeddable d :=
  hc d (mem_of_getElem? hpeek)

/-- Lines are not looked at where there are none. -/
theorem IsPlain.skipGaps_eq {c : Cursor} (hc : IsPlain c) (joined : Bool) :
    skipGaps joined c = skipGaps false c := by
  fun_induction skipGaps joined c with
  | case1 c hpeek =>
    rw [Offside.skipGaps_eq, hpeek]
  | case2 c d hpeek hgap ih =>
    rw [ih ((Cursor.reaches_skip c).forall_mem hc), Offside.skipGaps_eq false c, hpeek]
    exact (if_pos hgap).symm
  | case3 c hpeek _ _ => exact absurd rfl (of_isEmbeddable (hc.peek hpeek)).2.2.2.1
  | case4 c d hpeek _ _ hd _ => exact absurd hd.1 (of_isEmbeddable (hc.peek hpeek)).2.2.1
  | case5 c d hpeek _ _ _ hd _ =>
    exact absurd ((of_isEmbeddable (hc.peek hpeek)).2.1.symm.trans hd.1) Bool.false_ne_true
  | case6 c d hpeek hgap hcomment hjoin hline =>
    rw [Offside.skipGaps_eq, hpeek]
    dsimp only
    rw [if_neg hgap, if_neg hcomment, if_neg hjoin, if_neg (by simp)]

/-- A result in another state. -/
def onState {α : Type} (f : Scanner → Scanner) :
    EStateM.Result LexicalError Scanner α → EStateM.Result LexicalError Scanner α
  | .ok a s => .ok a (f s)
  | .error e s => .error e (f s)

/-- The scanner of the same text, embedded. -/
def within (embedded : Bool) (s : Scanner) : Scanner := { s with embedded }

variable {s : Scanner}

theorem onCursor_within {α : Type} (step : Cursor → Scanned α) (embedded : Bool) :
    onCursor step (s.within embedded) = onState (within embedded) (onCursor step s) := by
  unfold onCursor within
  dsimp only
  rcases step s.cursor with ⟨_ | _, c⟩ <;> rfl

theorem scanSymbol_within (d : Char) (embedded : Bool) :
    scanSymbol d (s.within embedded) = onState (within embedded) (scanSymbol d s) := by
  unfold scanSymbol within
  dsimp only
  rcases symbol? s.cursor.rest with _ | ⟨spelling, kind⟩
  · rfl
  · cases kind <;> rfl

theorem scanWord_within (hs : IsPlain s.cursor) (nested nested' : EmbeddedScanner)
    (embedded : Bool) :
    scanWord nested' (s.within embedded) = onState (within embedded) (scanWord nested s) := by
  have hquote : (s.cursor.run Text.isWordPart).2.peek.any isQuote = false := by
    have hrun : s.cursor.Reaches (s.cursor.run Text.isWordPart).2 :=
      ⟨_, Cursor.passes_run (fun _ => isNewline_of_isWordPart) s.cursor⟩
    rw [Option.any_eq_false_iff_get]
    intro h
    exact (of_isEmbeddable (IsPlain.peek (hrun.forall_mem hs) (Option.some_get h).symm)).1
  unfold scanWord within
  dsimp only
  rw [if_neg (by simp [hquote]), if_neg (by simp [hquote])]
  cases Kind.ofWord (String.ofList (s.cursor.run Text.isWordPart).1) <;> rfl

/-- Without quotes nothing depends on the scanner of embedded expressions, nor on whether the text
is one. -/
theorem scanKind_within (hs : IsPlain s.cursor) (nested nested' : EmbeddedScanner) (d : Char)
    (embedded : Bool) :
    scanKind nested' d (s.within embedded) = onState (within embedded) (scanKind nested d s) := by
  unfold scanKind
  split
  · exact scanWord_within hs nested nested' embedded
  · split
    · exact onCursor_within scanNumber embedded
    · split
      · exact onCursor_within scanString embedded
      · exact scanSymbol_within d embedded

/-- What a step in front of a character does: it reads a token, whatever the scanner of embedded
expressions, and the scanner of the same text reads it too if the text is embedded; or both fail. -/
inductive StepsAlike (s : Scanner) : Prop
  | token {t : Token} {mid : Scanner} (hscan : ∀ nested, scanWith nested s = .ok t mid)
    (hwithin : ∀ nested, scanWith nested (s.within true) = .ok t (mid.within true))
    (ht : t.kind.isLexeme = true) (hreaches : s.cursor.Reaches mid.cursor)
    (hshorter : mid.cursor.rest.length < s.cursor.rest.length)
      (hembedded : mid.embedded = s.embedded)
    (hindentation : mid.indentation = s.indentation) (hline : mid.lineHasTokens = true)
  | refused {e : LexicalError} {mid : Scanner} (hscan : ∀ nested, scanWith nested s = .error e mid)
    (hwithin : ∀ nested, scanWith nested (s.within true) = .error e (mid.within true))

/-- A step of a scanner of plain text, in terms of the kind that is read. -/
theorem scanWith_plain (hs : IsPlain s.cursor) (hpeek : (skipGaps false s.cursor).peek = some d)
    (nested nested' : EmbeddedScanner) (embedded : Bool) : scanWith nested' (s.within embedded) =
      match scanKind nested d { s with cursor := skipGaps false s.cursor } with
      | .ok kind s' => .ok ⟨kind, ⟨(skipGaps false s.cursor).location, s'.cursor.location⟩⟩
          { s'.within embedded with lineHasTokens := true }
      | .error e s' => .error e (s'.within embedded) := by
  have hgap : IsPlain (skipGaps false s.cursor) := by
    obtain ⟨gap, hpass, -⟩ := passes_skipGaps false s.cursor
    exact Cursor.Reaches.forall_mem ⟨gap, hpass⟩ hs
  have hline := (of_isEmbeddable (hgap.peek hpeek)).2.1
  have hkind :=
    scanKind_within (s := { s with cursor := skipGaps false s.cursor }) hgap nested
    nested' d embedded
  dsimp only [within] at hkind ⊢
  rw [scanWith_eq]
  dsimp only
  rw [hs.skipGaps_eq, hpeek]
  dsimp only
  rw [hline, hkind]
  rcases scanKind nested d _ with ⟨kind, s'⟩ | ⟨e, s'⟩ <;> rfl

theorem stepsAlike (hs : IsPlain s.cursor) (hpeek : (skipGaps false s.cursor).peek = some d) :
    StepsAlike s := by
  let nested : EmbeddedScanner := fun _ names => (.ok [], names)
  have hsound : nested.IsSound := by
    intro c names tokens htokens
    rw [← Except.ok.inj htokens]
    exact yields_nil _ _ _
  obtain ⟨gap, hpass, -⟩ := passes_skipGaps false s.cursor
  have hstep := scanWith_plain hs hpeek nested
  cases hscan : scanKind nested d { s with cursor := skipGaps false s.cursor } with
  | error e mid =>
    simp only [hscan] at hstep
    exact .refused (fun nested' => hstep nested' s.embedded) fun nested' => hstep nested' true
  | ok kind mid =>
    obtain ⟨hlexeme, ⟨text, htext, hpassed, -⟩, -, -, hlayout⟩ := reads_scanKind hsound hpeek hscan
    simp only [hscan] at hstep
    have hgap := hpass.length_le
    have hlength := hpassed.length_le
    have hpos := length_pos_iff.mpr htext
    refine .token (fun nested' => hstep nested' s.embedded) (fun nested' =>
      hstep nested' true) hlexeme
      ⟨gap ++ text, hpass.trans hpassed⟩ ?_ rfl hlayout.indentation rfl
    dsimp only [within] at hlength ⊢
    omega

/-! ## Runs -/

theorem scanToEnd_succ (next : Scan Token) (bound : Nat) (s : Scanner) :
    scanToEnd next (bound + 1) s =
      match next s with
      | .ok t mid =>
        if t.kind.isEnd then .ok [t] mid else withToken t (scanToEnd next bound mid)
      | .error e s' => .error e s' := by
  change EStateM.bind next _ s = _
  unfold EStateM.bind
  cases next s with
  | error e s' => rfl
  | ok t mid =>
    dsimp only
    cases t.kind.isEnd with
    | true => rfl
    | false =>
      change EStateM.bind (scanToEnd next bound) _ mid = _
      unfold EStateM.bind
      cases scanToEnd next bound mid <;> rfl

/-- The tokens that do not end a line. -/
def inLine (ts : List Token) : List Token := ts.filter (!·.kind.isNewline)

/-- The tokens of a text, and those of the same text embedded. -/
inductive Embeds : EStateM.Result LexicalError Scanner (List Token) →
    EStateM.Result LexicalError Scanner (List Token) → Prop
  | ok {ts : List Token} {s s' : Scanner} (hnames : s'.names = s.names) :
    Embeds (.ok ts s) (.ok (inLine ts) s')
  | error {e : LexicalError} {s s' : Scanner} (hnames : s'.names = s.names) :
    Embeds (.error e s) (.error e s')

/-- Behind a token the two runs go on. -/
theorem Embeds.cons {t : Token} (ht : t.kind.isLexeme)
    {result result' : EStateM.Result LexicalError Scanner (List Token)}
    (h : Embeds result result') :
    Embeds (withToken t result) (withToken t result') := by
  cases h with
  | @ok ts s s' hnames =>
    have hcons : inLine (t :: ts) = t :: inLine ts :=
      filter_cons_of_pos (by simp [(Kind.of_isLexeme ht).2.1])
    dsimp only [withToken]
    rw [← hcons]
    exact .ok hnames
  | error hnames => exact .error hnames

/-- Behind the first token of a text, its tokens are those of the same text embedded. -/
theorem embeds_tokens {bound bound' depth : Nat} (hs : IsPlain s.cursor)
    (hembedded : s.embedded = false) (hindentation : s.indentation = {}) (hline : s.lineHasTokens)
    (hbound : s.cursor.rest.length ≤ bound) (hbound' : s.cursor.rest.length ≤ bound') :
    Embeds (tokens (bound' + 2) false false s)
      (scanToEnd (scan depth) (bound + 1) (s.within true)) := by
  induction hlength : s.cursor.rest.length using Nat.strongRecOn generalizing s bound bound' with
  | ind n ih =>
    subst hlength
    cases hpeek : (skipGaps false s.cursor).peek with
    | none =>
      have hgaps := hs.skipGaps_eq s.joined
      have hwithin : scan depth (s.within true) =
          .ok (.mark .endOfInput (skipGaps false s.cursor).location)
            { s.within true with cursor := skipGaps false s.cursor } := by
        rw [scan_eq, scanWith_eq]
        dsimp only [within]
        rw [hs.skipGaps_eq, hpeek]
        rfl
      rw [tokens_of_end hembedded hindentation hline (hgaps ▸ hpeek), hgaps,
        scanToEnd_succ, hwithin]
      exact .ok rfl
    | some d =>
      cases stepsAlike hs hpeek with
      | refused hscan hwithin =>
        rw [tokens_succ, next_within, hscan, scanToEnd_succ, scan_eq, hwithin]
        exact .error rfl
      | @token t mid hscan hwithin ht hreaches hshorter hembedded' hindentation' hline' =>
        obtain ⟨less, rfl⟩ : ∃ less, bound = less + 1 := ⟨bound - 1, by omega⟩
        obtain ⟨less', rfl⟩ : ∃ less', bound' = less' + 1 := ⟨bound' - 1, by omega⟩
        have hrest := ih _ hshorter (hreaches.forall_mem hs) (hembedded'.trans hembedded)
          (hindentation'.trans hindentation) hline' (by omega : mid.cursor.rest.length ≤ less)
          (by omega : mid.cursor.rest.length ≤ less') rfl
        obtain ⟨hlast, hnewline, hdedent, -⟩ := Kind.of_isLexeme ht
        rw [tokens_succ, next_within, hscan, scanToEnd_succ, scan_eq, hwithin, ← scan_eq]
        dsimp only
        rw [hlast, hnewline, hdedent]
        exact hrest.cons ht

/-- A text that starts with a token, and the same text embedded. -/
theorem embeds_ofText {text : String} (htext : IsPlain (.ofText text))
    (hpeek : (Cursor.ofText text).peek = some d) (hd : startsToken d) (names : NameTable)
    (depth : Nat) :
    Embeds (tokens (2 * text.length + 3) true false (.ofText text names))
      (scanToEnd (scan depth) (text.length + 1) ((Scanner.ofText text names).within true)) := by
  have hlength : (Scanner.ofText text names).cursor.rest.length = text.length :=
    String.length_toList
  have hgaps : (skipGaps false (Scanner.ofText text names).cursor).peek = some d := by
    rwa [show (Scanner.ofText text names).cursor = .ofText text from rfl,
      skipGaps_of_startsToken hpeek hd]
  have hnext :=
    next_outside (s := .ofText text names) rfl rfl (measureIndentation_of_startsToken hpeek hd)
  cases stepsAlike (s := .ofText text names) htext hgaps with
  | refused hscan hwithin =>
    rw [tokens_succ, hnext, hscan, scanToEnd_succ, scan_eq, hwithin]
    exact .error rfl
  | @token t mid hscan hwithin ht hreaches hshorter hembedded hindentation hline =>
    rw [hlength] at hshorter
    obtain ⟨hlast, hnewline, hdedent, -⟩ := Kind.of_isLexeme ht
    obtain ⟨less, hless⟩ : ∃ less, text.length = less + 1 := ⟨text.length - 1, by omega⟩
    have hrest : Embeds (tokens (2 * text.length + 2) false false mid)
        (scanToEnd (scan depth) (less + 1) (mid.within true)) :=
      embeds_tokens (hreaches.forall_mem htext) hembedded hindentation hline (by omega) (by omega)
    rw [tokens_succ, hnext, hscan, scanToEnd_succ, scan_eq, hwithin, ← scan_eq]
    dsimp only
    rw [hlast, hnewline, hdedent]
    rw [← hless] at hrest
    exact hrest.cons ht

/-! ## Places -/

/-- The comparison of a text with the same text further on in a line. -/
def further (width : Nat) : Collation where
  place := .moved width
  place' := id
  names := id
  swaps _ _ := False
  place_along text h :=
    (Location.along_moved _ _ text).symm.trans (congrArg (Location.along · text) h)
  place_nextLine h := h.elim
  names_intern := NameTable.id_intern

/-- The tokens of a text further on in a line are moved there. -/
theorem embeddedScanner_moved {text : String} (htext : IsPlain (.ofText text))
    (hpeek : (Cursor.ofText text).peek = some d) (hd : startsToken d) {depth : Nat}
    (hdepth : text.length ≤ depth) (names : NameTable) (width : Nat) :
    (∀ tokens entered, tokenize text names = (.ok tokens, entered) →
      embeddedScanner (depth + 1) ⟨text.toList, Location.moved width {}⟩ names =
        (.ok ((inLine tokens).map (Token.relocate (.moved width))), entered)) ∧
    ∀ e entered, tokenize text names = (.error e, entered) →
      embeddedScanner (depth + 1) ⟨text.toList, Location.moved width {}⟩ names =
        (.error (e.relocate (.moved width)), entered) := by
  have hlength : text.toList.length = text.length := String.length_toList
  have halike : Cursor.Alike (further width) (.ofText text)
      ⟨text.toList, Location.moved width {}⟩ :=
    ⟨.of_forall fun d hd => (of_isEmbeddable (htext d hd)).2.1, rfl⟩
  have hembeds := embeds_ofText htext hpeek hd names depth
  have hmoved : StepAlike (further width) (Token.AreAlike (further width))
      (scanToEnd (scan depth) (text.length + 1) ((Scanner.ofText text names).within true))
      (scanToEnd (scan depth) (text.length + 1)
        { cursor := ⟨text.toList, Location.moved width {}⟩, names, embedded := true }) :=
    alike_scanToEnd alike_scan (text.length + 1) halike (hlength ▸ hdepth) (hlength ▸ hdepth)
  rw [embeddedScanner, tokenize]
  dsimp only
  rw [hlength]
  generalize tokens _ _ _ _ = run at hembeds ⊢
  generalize scanToEnd _ _ { cursor := ⟨text.toList, _⟩, names, embedded := true } =
    last at hmoved ⊢
  generalize scanToEnd _ _ _ = mid at hembeds hmoved
  cases hembeds with
  | ok hnames =>
    obtain ⟨hts, ⟨-⟩⟩ | - := hmoved
    constructor
    · rintro tokens entered ⟨⟩
      have hmap : Token.relocate (further width).place' = id := funext Token.relocate_id
      rw [Token.AreAlike, hmap, map_id] at hts
      rw [← hts, ← hnames]
      rfl
    · rintro e entered ⟨⟩
  | error hnames =>
    obtain - | ⟨he, hlast⟩ := hmoved
    constructor
    · rintro tokens entered ⟨⟩
    · rintro e entered ⟨⟩
      rw [NamesAlike] at hlast
      dsimp only
      rw [hlast, ← hnames]
      exact congrArg (fun e => (Except.error e, _)) he.symm

end Scanner

/-! ## Formatted strings -/

theorem startsToken_of_isEmbeddable (hd : isEmbeddable d) (hblank : Text.isBlank d = false) :
    startsToken d := by
  obtain ⟨-, hline, hjoin, hcomment, -⟩ := of_isEmbeddable hd
  have hgap : isGap d = false := by
    refine Bool.eq_false_iff.mpr fun hgap => ?_
    simp only [isGap, Bool.or_eq_true, beq_iff_eq] at hgap
    rcases hgap with (rfl | rfl) | rfl <;> cases hblank
  simp [startsToken, hgap, hline, hjoin, hcomment]

section Formatted

variable {text : List Char} (htext : ∀ d ∈ text, isEmbeddable d = true)
  (hblank : text.all Text.isBlank = false) (hbalanced : isBalanced 0 text = true)
  (nested : EmbeddedScanner) (start l : Location) (names : NameTable)

include htext hblank hbalanced

/-- A formatted string that is one embedded expression. -/
theorem scanFormatted_embedded :
    scanFormatted nested start names ⟨'"' :: '\x7b' :: (text ++ ['\x7d', '"']), l⟩ =
      let inner := (l.along ['"']).along ['\x7b']
      match nested ⟨text, inner⟩ names with
      | (.error e, names) => (.error e, names, ⟨text ++ ['\x7d', '"'], inner⟩)
      | (.ok tokens, names) =>
        (.ok (.formatted [.embedded tokens]), names,
          ⟨[], (inner.along (text ++ ['\x7d'])).along ['"']⟩) := by
  have hhead : (text ++ ['\x7d', '"']).head? ≠ some '\x7b' := by
    cases text with
    | nil => cases hblank
    | cons d text =>
      rintro ⟨⟩
      cases htext '\x7b' mem_cons_self
  have hopened : Quotes.openAt ⟨'"' :: '\x7b' :: (text ++ ['\x7d', '"']), l⟩ =
      (⟨'"', false⟩, ⟨'\x7b' :: (text ++ ['\x7d', '"']), l.along ['"']⟩) := rfl
  have hclosed (l : Location) : scanPiece start ⟨'"', false⟩ ⟨['"'], l⟩ =
      .closed ⟨[], l.along ['"']⟩ := rfl
  rw [scanFormatted, hopened]
  dsimp only
  rw [scanFragments_embedded _ _ _ _ _ rfl hhead]
  dsimp only
  rw [splitEmbedded_balanced htext hbalanced (by decide) ['"']]
  dsimp only
  rw [if_neg (by simp [hblank])]
  rcases nested ⟨text, (l.along ['"']).along ['\x7b']⟩ names with ⟨e | tokens, entered⟩
  · rfl
  · have hbrace {d : Char} (hd : '"' ≠ d) (l : Location) : (Cursor.mk ['"'] l).peek ≠ some d :=
      fun h => hd (Option.some.inj h)
    dsimp only
    rw [scanFragments_plain _ _ _ _ _ (hbrace (by decide) _) (hbrace (by decide) _), hclosed]
    rfl

end Formatted

/-- An expression of one line without strings and comments, as a text of its own and embedded. -/
theorem tokenize_embedded {text : String} (htext : ∀ d ∈ text.toList, isEmbeddable d = true)
    {first : Char} (hfirst : text.toList.head? = some first) (hblank : Text.isBlank first = false)
    (hbalanced : isBalanced 0 text.toList = true) (names : NameTable) :
    (∀ tokens entered, tokenize text names = (.ok tokens, entered) →
      ∃ l, tokenize ("f\"\x7b" ++ text ++ "\x7d\"") names =
        (.ok
          [⟨.formatted
          [.embedded ((Scanner.inLine tokens).map (Token.relocate (.moved 3)))], ⟨{}, l⟩⟩,
          .mark .newline l, .mark .endOfInput l], entered)) ∧
    ∀ e entered, tokenize text names = (.error e, entered) →
      tokenize ("f\"\x7b" ++ text ++ "\x7d\"") names =
        (.error (e.relocate (.moved 3)), entered) := by
  have hmem := mem_of_mem_head? hfirst
  have hstarts := startsToken_of_isEmbeddable (htext first hmem) hblank
  have hpeek : (Cursor.ofText text).peek = some first := by
    rwa [Cursor.peek, ← head?_eq_getElem?]
  have hall : text.toList.all Text.isBlank = false :=
    all_eq_false.mpr ⟨first, hmem, by simp [hblank]⟩
  have hwhole : ("f\"\x7b" ++ text ++ "\x7d\"").toList =
      'f' :: '"' :: '\x7b' :: (text.toList ++ ['\x7d', '"']) := by
    simp
  have hlength : ("f\"\x7b" ++ text ++ "\x7d\"").length = text.length + 4 + 1 := by
    rw [← String.length_toList, hwhole]
    simp only [length_cons, length_append, length_nil, String.length_toList]
  obtain ⟨htokens, herror⟩ := Scanner.embeddedScanner_moved htext hpeek hstarts
    (Nat.le_add_right text.length 4) names 3
  have hscan :=
    scanFormatted_embedded htext hall hbalanced (Scanner.embeddedScanner (text.length + 4 + 1)) {}
    (Location.along {} ['f']) names
  have hinner : ((Location.along {} ['f']).along ['"']).along ['\x7b'] = Location.moved 3 {} := rfl
  dsimp only at hscan
  rw [hinner] at hscan
  constructor
  · intro tokens entered h
    rw [htokens tokens entered h, ← hlength] at hscan
    exact ⟨_, tokenize_of_scanFormatted (.inl rfl) hwhole (by decide) hscan⟩
  · intro e entered h
    rw [herror e entered h, ← hlength] at hscan
    exact tokenize_of_scanFormatted_error (.inl rfl) hwhole (by decide) hscan

/-- A call and a subscript, with a blank behind them. -/
theorem tokenize_embedded_call :
    (∀ d ∈ "f(x)[y + 1] ".toList, isEmbeddable d = true) ∧
      isBalanced 0 "f(x)[y + 1] ".toList = true ∧
    (∀ tokens entered, tokenize "f(x)[y + 1] " {} = (.ok tokens, entered) →
      ∃ l, tokenize "f\"\x7bf(x)[y + 1] \x7d\"" {} =
        (.ok
          [⟨.formatted
          [.embedded ((Scanner.inLine tokens).map (Token.relocate (.moved 3)))], ⟨{}, l⟩⟩,
          .mark .newline l, .mark .endOfInput l], entered)) ∧
    ∀ e entered, tokenize "f(x)[y + 1] " {} = (.error e, entered) →
      tokenize "f\"\x7bf(x)[y + 1] \x7d\"" {} = (.error (e.relocate (.moved 3)), entered) :=
  ⟨all_eq_true.mp (by decide), by decide,
    tokenize_embedded (all_eq_true.mp (by decide)) rfl (by decide) (by decide) {}⟩

end Offside
