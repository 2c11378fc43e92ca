import Offside.Proofs.Token.FormattedVariation

/-!
# Tokens of texts that are read alike

Two scanners that stand before texts that are read alike yield tokens that differ only in the part
of their locations that may differ, and enter the same names; or both fail, for the same cause and
at the same place. This is shown for one step of the scanners, and from there for all tokens of the
two texts (`tokenize_alike`).

The bounds on the number of tokens and on the depth of formatted strings are taken from the length
of the text, so they differ between the two texts.  They are large enough in both, so the readings
are compared for any two bounds that are.
-/

namespace Offside

/-- Two tokens that differ in locations only. -/
def Token.Alike (v : Collation) (t t' : Token) : Prop := t.relocate v.place = t'.relocate v.place'

section Tests

variable {v : Collation} {t t' : Token}

/-- What is asked of the kind of a token, and not of its fragments, has the same answer. -/
theorem Token.Alike.test {α : Type} {test : Kind → α} (htest : Kind.SkipsFragments test)
    (h : t.Alike v t') : test t.kind = test t'.kind := by
  have hkind : t.kind.relocate v.place = t'.kind.relocate v.place' := by
    rw [← Token.kind_relocate, ← Token.kind_relocate]
    exact congrArg Token.kind h
  rw [← Kind.test_relocate v.place htest, hkind, Kind.test_relocate v.place' htest]

theorem Token.Alike.isEnd (h : t.Alike v t') : t.kind.isEnd = t'.kind.isEnd := h.test fun _ _ => rfl

theorem Token.Alike.isNewline (h : t.Alike v t') : t.kind.isNewline = t'.kind.isNewline :=
  h.test fun _ _ => rfl

theorem Token.Alike.isDedent (h : t.Alike v t') : t.kind.isDedent = t'.kind.isDedent :=
  h.test fun _ _ => rfl

end Tests

/-- A kind without embedded tokens has no locations. -/
theorem Kind.alike_of_spelling? {v : Collation} {kind : Kind} {spelling : String}
    (h : kind.spelling? = some spelling) : kind.Alike v kind := by
  cases kind with
  | formatted fragments => cases h
  | _ => rfl

theorem EmbeddedScanner.Alike.mono {v : Collation} {bound bound' less less' : Nat}
    {nested nested' : EmbeddedScanner} (h : EmbeddedScanner.Alike v bound bound' nested nested')
    (hless : less ≤ bound) (hless' : less' ≤ bound') :
    EmbeddedScanner.Alike v less less' nested nested' :=
  fun inside l l' names hinside hplace hlt hlt' =>
    h inside l l' names hinside hplace (Nat.lt_of_lt_of_le hlt hless)
      (Nat.lt_of_lt_of_le hlt' hless')

namespace Scanner

/-- The scanner of the second reading, at the given cursor. -/
abbrev second (v : Collation) (s : Scanner) (c' : Cursor) : Scanner :=
  { s with cursor := c', names := v.names s.names }

/-- Two scanners are alike: their cursors are, their names are those of the two readings, and all
else is the same. -/
inductive Alike (v : Collation) (s : Scanner) : Scanner → Prop
  | intro {c' : Cursor} (h : s.cursor.Alike v c') : Alike v s (s.second v c')

/-- Two steps agree: both yield something that is related and leave scanners that are alike, or both
fail for one cause at the same place, and have entered the same names. -/
inductive StepAlike (v : Collation) {α : Type} (R : α → α → Prop) :
    EStateM.Result LexicalError Scanner α → EStateM.Result LexicalError Scanner α → Prop
  | ok {a a' : α} {s s' : Scanner} (h : R a a') (hs : Alike v s s') :
    StepAlike v R (.ok a s) (.ok a' s')
  | error {e e' : LexicalError} {s s' : Scanner} (h : e.relocate v.place = e'.relocate v.place')
    (hnames : NamesAlike v s.names s'.names) : StepAlike v R (.error e s) (.error e' s')

variable {v : Collation} {s : Scanner} {c' : Cursor}

/-- Steps that agree, followed by steps that agree on what they yield. -/
theorem StepAlike.bind {α β : Type} {R : α → α → Prop} {Q : β → β → Prop} {x x' : Scan α}
    {k k' : α → Scan β} {s s' : Scanner} (hx : StepAlike v R (x s) (x' s'))
    (hk : ∀ {a a' : α} {last : Scanner} {c' : Cursor}, R a a' → x s = .ok a last →
      x' s' = .ok a' (last.second v c') → last.cursor.Alike v c' →
        StepAlike v Q (k a last) (k' a' (last.second v c'))) :
    StepAlike v Q ((x >>= k) s) ((x' >>= k') s') := by
  change StepAlike v Q (EStateM.bind x k s) (EStateM.bind x' k' s')
  unfold EStateM.bind
  generalize hrun : x s = result at hx ⊢
  generalize hrun' : x' s' = result' at hx ⊢
  rcases hx with ⟨ha, hlast⟩ | ⟨he, hnames⟩
  · rcases hlast with ⟨hlast⟩
    exact hk ha hrun hrun' hlast
  · exact .error he hnames

theorem alike_onCursor {α : Type} {R : α → α → Prop} {step : Cursor → Scanned α}
    (h : ScannedAlike v R (step s.cursor) (step c')) :
    StepAlike v R (onCursor step s) (onCursor step (s.second v c')) := by
  unfold onCursor
  dsimp only
  generalize step s.cursor = scanned at h ⊢
  generalize step c' = scanned' at h ⊢
  rcases h with ⟨ha, hnext⟩ | ⟨he, -⟩
  · exact .ok ha (.intro hnext)
  · exact .error he rfl

section Kinds

variable {nested nested' : EmbeddedScanner}

/-- A word is scanned alike in both texts. -/
theorem alike_scanWord
    (hnested : EmbeddedScanner.Alike v s.cursor.rest.length c'.rest.length nested nested')
    (h : s.cursor.Alike v c') : StepAlike v (Kind.Alike v) (scanWord nested s)
      (scanWord nested' (s.second v c')) := by
  obtain ⟨hword, hnext⟩ := h.run fun _ => isNewline_of_isWordPart
  have hquote := hnext.any_peek_of_imp fun _ => isNewline_of_isQuote
  have hle := Cursor.length_run_le Text.isWordPart s.cursor
  have hle' := Cursor.length_run_le Text.isWordPart c'
  unfold scanWord
  simp only [← hword, ← hquote]
  generalize (c'.run Text.isWordPart).2 = next' at hnext hle' ⊢
  split
  · rename_i hformatted
    have hscan := alike_scanFormatted hnested h.location hnext hle hle' s.names hformatted.2
    generalize scanFormatted nested _ _ _ = scanned at hscan ⊢
    generalize scanFormatted nested' _ _ _ = scanned' at hscan ⊢
    rcases hscan with ⟨hkind, hnames, hlast⟩ | ⟨he, hnames⟩
    · rename_i final final'
      obtain ⟨names, cursor⟩ := final
      obtain ⟨names', cursor'⟩ := final'
      obtain rfl : names' = v.names names := hnames
      exact .ok hkind (.intro (s := { s with cursor, names }) hlast)
    · exact .error he hnames
  · have hkind := Kind.alike_of_spelling? (v := v)
      (Kind.spelling?_ofWord (String.ofList (s.cursor.run Text.isWordPart).1))
    generalize Kind.ofWord _ = kind at hkind ⊢
    cases kind with
    | identifier name =>
      have hs := Alike.intro (v := v) (s := { s with
        cursor := (s.cursor.run Text.isWordPart).2, names := s.names.intern name }) hnext
      rw [second, v.names_intern] at hs
      exact .ok rfl hs
    | _ =>
      exact .ok hkind (.intro (s := { s with cursor := (s.cursor.run Text.isWordPart).2 }) hnext)

theorem alike_scanSymbol (d : Char) (h : s.cursor.Alike v c') : StepAlike v (Kind.Alike v)
    (scanSymbol d s) (scanSymbol d (s.second v c')) := by
  unfold scanSymbol
  simp only [← alike_symbol? h.rest]
  split
  · exact .error (relocate_error_eq h.location _) rfl
  · rename_i spelling kind hsymbol
    have hnext := h.skipMany spelling.length
    have hkind :=
      Kind.alike_of_spelling? (v := v) (spelling?_of_mem_symbols (symbol?_eq_some hsymbol).1).1
    split
    · exact .ok rfl (.intro (s := { s with
        cursor := s.cursor.skipMany spelling.length, bracketDepth := _ }) hnext)
    · exact .ok hkind (.intro (s := { s with cursor := s.cursor.skipMany spelling.length }) hnext)

theorem alike_scanKind
    (hnested : EmbeddedScanner.Alike v s.cursor.rest.length c'.rest.length nested nested')
    {d : Char} (hpeek : s.cursor.peek = some d) (h : s.cursor.Alike v c') :
    StepAlike v (Kind.Alike v)
      (scanKind nested d s) (scanKind nested' d (s.second v c')) := by
  unfold scanKind
  split
  · exact alike_scanWord hnested h
  · split
    · exact alike_onCursor (alike_scanNumber h)
    · split
      · rename_i hquote
        exact alike_onCursor (alike_scanString h (by rw [hpeek]; exact hquote))
      · exact alike_scanSymbol d h

end Kinds

/-! ## Steps within a line -/

theorem alike_token {kind kind' : Kind} (hkind : kind.Alike v kind')
    {start start' stop stop' : Location} (hstart : v.place start = v.place' start')
    (hstop : v.place stop = v.place' stop') :
    Token.Alike v ⟨kind, ⟨start, stop⟩⟩ ⟨kind', ⟨start', stop'⟩⟩ := by
  unfold Token.Alike Token.relocate Span.relocate
  rw [show kind.relocate v.place = kind'.relocate v.place' from hkind, hstart, hstop]

theorem alike_mark {kind : Kind} (hkind : kind.Alike v kind) {l l' : Location}
    (h : v.place l = v.place' l') :
    (Token.mark kind l).Alike v (.mark kind l') :=
  alike_token hkind h h

theorem alike_finish (h : s.cursor.Alike v c') :
    StepAlike v (Token.Alike v) (finish s) (finish (s.second v c')) := by
  unfold finish
  dsimp only
  split
  · exact .ok (alike_mark (by rfl) h.location) (.intro h)
  · split
    · exact .ok (alike_mark (by rfl) h.location) (.intro (s := { s with lineHasTokens := false }) h)
    · refine .ok (alike_mark ?_ h.location) (.intro (s := { s with indentation := _ }) h)
      cases s.indentation.flushOne.1 <;> rfl

/-- Behind gaps, a token is scanned alike in both texts. -/
theorem alike_scanWith {nested nested' : EmbeddedScanner}
    (hnested : EmbeddedScanner.Alike v s.cursor.rest.length c'.rest.length nested nested')
    (h : s.cursor.Alike v c') : StepAlike v (Token.Alike v) (scanWith nested s)
      (scanWith nested' (s.second v c')) := by
  have hjoined : (s.second v c').joined = s.joined := rfl
  rw [scanWith_eq, scanWith_eq, hjoined]
  have hlength (c : Cursor) : (skipGaps s.joined c).rest.length ≤ c.rest.length := by
    obtain ⟨text, htext, -⟩ := passes_skipGaps s.joined c
    have hpassed := htext.length_le
    omega
  have hgap : (skipGaps s.joined s.cursor).Alike v (skipGaps s.joined c') :=
    alike_skipGaps s.joined h
  have hnested' := hnested.mono (hlength s.cursor) (hlength c')
  dsimp only
  generalize skipGaps s.joined s.cursor = mid at hgap hnested' ⊢
  generalize skipGaps s.joined c' = mid' at hgap hnested' ⊢
  rcases hgap.ahead with
    ⟨hpeek, hpeek'⟩ | @⟨d, hd, hpeek, hpeek', hskip⟩ | ⟨hd, hd', hpeek, hpeek', hskip⟩
  · rw [hpeek, hpeek']
    exact alike_finish (s := { s with cursor := mid }) hgap
  · have hkind := alike_scanKind (s := { s with cursor := mid }) hnested' hpeek hgap
    rw [hpeek, hpeek']
    simp only [hd, Bool.false_eq_true, if_false]
    generalize scanKind nested d _ = scanned at hkind ⊢
    generalize scanKind nested' d _ = scanned' at hkind ⊢
    rcases hkind with ⟨hkind, hs⟩ | ⟨he, hnames⟩
    · rename_i kind kind' last last'
      rcases hs with ⟨hlast⟩
      exact .ok (alike_token hkind hgap.location hlast.location)
        (.intro (s := { last with lineHasTokens := true }) hlast)
    · exact .error he hnames
  · rw [hpeek, hpeek']
    simp only [hd, hd', if_true]
    exact .ok (alike_token (by rfl) hgap.location hskip.location)
      (.intro (s := { s with cursor := mid.skip, lineHasTokens := false }) hskip)

/-! ## Depths and bounds -/

theorem length_le_of_scan {depth : Nat} {s s' : Scanner} {t : Token} (h : scan depth s = .ok t s') :
    s'.cursor.rest.length ≤ s.cursor.rest.length := by
  obtain ⟨gap, mid, text, hgap, -, htext, -⟩ := (step_scan h).passes
  have hlength := hgap.length_le
  have hlength' := htext.length_le
  omega

/-- Token after token up to the end of input, two scanners agree if their steps do at the given
depths. -/
theorem alike_scanToEnd {depth depth' : Nat}
    (hscan : ∀ {s : Scanner} {c' : Cursor}, s.cursor.Alike v c' → s.cursor.rest.length ≤ depth →
      c'.rest.length ≤ depth' →
        StepAlike v (Token.Alike v) (scan depth s) (scan depth' (s.second v c')))
    (bound : Nat) (h : s.cursor.Alike v c') (hdepth : s.cursor.rest.length ≤ depth)
    (hdepth' : c'.rest.length ≤ depth') :
    StepAlike v (Token.AreAlike v) (scanToEnd (scan depth) bound s)
      (scanToEnd (scan depth') bound (s.second v c')) := by
  induction bound generalizing s c' with
  | zero => exact .ok rfl (.intro h)
  | succ bound ih =>
    refine (hscan h hdepth hdepth').bind fun ht hrun hrun' hlast => ?_
    have hlength := Nat.le_trans (length_le_of_scan hrun) hdepth
    have hlength' := Nat.le_trans (length_le_of_scan hrun') hdepth'
    rw [ht.isEnd]
    split
    · exact .ok (congrArg (fun t => [t]) ht) (.intro hlast)
    · refine (ih hlast hlength hlength').bind fun hts _ _ hfinal => ?_
      exact .ok (congrArg₂ List.cons ht hts) (.intro hfinal)

/-- The scanner of the expressions that are embedded at a depth. -/
def embeddedScanner : Nat → EmbeddedScanner
  | 0 => fun _ names => (.ok [], names)
  | depth + 1 => fun inside names =>
    match scanToEnd (scan depth) (inside.rest.length + 1)
      { cursor := inside, names, embedded := true } with
    | .ok tokens s => (.ok tokens, s.names)
    | .error e s => (.error e, s.names)

theorem scan_eq (depth : Nat) : scan depth = scanWith (embeddedScanner depth) := by
  cases depth <;> rfl

/-- Steps within a line agree at all depths that are as large as the texts are long. -/
theorem alike_scan {depth depth' : Nat} (h : s.cursor.Alike v c')
    (hdepth : s.cursor.rest.length ≤ depth) (hdepth' : c'.rest.length ≤ depth') :
    StepAlike v (Token.Alike v) (scan depth s)
      (scan depth' (s.second v c')) := by
  induction depth generalizing depth' s c' with
  | zero =>
    rw [scan_eq, scan_eq]
    refine alike_scanWith (fun inside l l' names hinside hplace hless hless' => ?_) h
    omega
  | succ depth ih =>
    rw [scan_eq, scan_eq]
    refine alike_scanWith (fun inside l l' names hinside hplace hless hless' => ?_) h
    cases depth' with
    | zero => omega
    | succ depth' =>
      have hinner : Cursor.Alike v ⟨inside, l⟩ ⟨inside, l'⟩ := ⟨.of_forall hinside, hplace⟩
      have hle : inside.length ≤ depth := by omega
      have hle' : inside.length ≤ depth' := by omega
      have hmore := alike_scanToEnd ih (inside.length + 1)
        (s := { cursor := ⟨inside, l⟩, names, embedded := true }) hinner hle hle'
      unfold embeddedScanner
      dsimp only at hmore ⊢
      generalize scanToEnd (scan depth) _ _ = result at hmore ⊢
      generalize scanToEnd (scan depth') _ _ = result' at hmore ⊢
      rcases hmore with ⟨hts, hfinal⟩ | ⟨he, hnames⟩
      · rcases hfinal with ⟨hfinal⟩
        exact .ok hts rfl
      · exact .error he hnames

/-- A step of the scanner is alike in both texts. -/
theorem alike_nextWithin {depth depth' : Nat} (atLineStart pendingDedent : Bool)
    (h : s.cursor.Alike v c') (hdepth : s.cursor.rest.length ≤ depth)
    (hdepth' : c'.rest.length ≤ depth') :
    StepAlike v (Token.Alike v) (nextWithin depth atLineStart pendingDedent s)
      (nextWithin depth' atLineStart pendingDedent (s.second v c')) := by
  rw [nextWithin_eq, nextWithin_eq]
  dsimp only
  split
  · cases s.indentation.continueDedent with
    | mk owed indentation =>
      have hs : Cursor.Alike v { s with indentation }.cursor c' := h
      match owed with
      | .ok true => exact .ok (alike_mark (by rfl) h.location) (.intro hs)
      | .ok false => exact alike_scan hs hdepth hdepth'
      | .error cause => exact .error (relocate_error_eq h.location _) rfl
  · split
    · have hlevel := alike_measureIndentation h
      have hlength (c : Cursor) : (measureIndentation c).2.rest.length ≤ c.rest.length := by
        obtain ⟨text, htext, -⟩ := passes_measureIndentation c
        have hpassed := htext.length_le
        omega
      have hle := hlength s.cursor
      have hle' := hlength c'
      generalize measureIndentation s.cursor = measured at hlevel hle ⊢
      generalize measureIndentation c' = measured' at hlevel hle' ⊢
      rcases hlevel with ⟨rfl, hcursor⟩ | ⟨he, -⟩
      · rename_i level cursor cursor'
        dsimp only
        cases s.indentation.enterLine level with
        | mk change indentation =>
          have hs : Cursor.Alike v { s with cursor, indentation }.cursor cursor' := hcursor
          match change with
          | .indent | .dedent => exact .ok (alike_mark (by rfl) hcursor.location) (.intro hs)
          | .same => exact alike_scan hs (Nat.le_trans hle hdepth) (Nat.le_trans hle' hdepth')
      · exact .error he rfl
    · exact alike_scan h hdepth hdepth'

theorem alike_next (atLineStart pendingDedent : Bool) (h : s.cursor.Alike v c') :
    StepAlike v (Token.Alike v) (next atLineStart pendingDedent s)
      (next atLineStart pendingDedent (s.second v c')) :=
  alike_nextWithin atLineStart pendingDedent h (Nat.le_refl _) (Nat.le_refl _)

/-- The tokens of two scanners agree for all bounds that are large enough. -/
theorem alike_tokens {bound bound' : Nat} (atLineStart pendingDedent : Bool)
    (h : s.cursor.Alike v c') (hbound : s.remaining ≤ bound)
    (hbound' : (s.second v c').remaining ≤ bound') :
    StepAlike v (Token.AreAlike v) (tokens bound atLineStart pendingDedent s)
      (tokens bound' atLineStart pendingDedent (s.second v c')) := by
  induction bound generalizing bound' atLineStart pendingDedent s c' with
  | zero => exact absurd (remaining_pos s) (by omega)
  | succ bound ih =>
    cases bound' with
    | zero => exact absurd (remaining_pos (s.second v c')) (by omega)
    | succ bound' =>
      refine (alike_next atLineStart pendingDedent h).bind fun {t t' _ _} ht hrun hrun' hlast => ?_
      have hless := (step_next hrun).remaining_lt
      have hless' := (step_next hrun').remaining_lt
      rw [ht.isEnd] at hless
      rw [ht.isEnd, ht.isNewline, ht.isDedent]
      split
      · exact .ok (congrArg (fun t => [t]) ht) (.intro hlast)
      · rename_i hend
        rw [Bool.not_eq_true] at hend
        have hmore := ih t'.kind.isNewline t'.kind.isDedent hlast
          (Nat.le_of_lt_succ (Nat.lt_of_lt_of_le (hless hend) hbound))
          (Nat.le_of_lt_succ (Nat.lt_of_lt_of_le (hless' hend) hbound'))
        refine hmore.bind fun hts _ _ hfinal => ?_
        exact .ok (congrArg₂ List.cons ht hts) (.intro hfinal)

end Scanner

/-- Texts that are read alike have the same tokens, up to what may differ in their locations, and
enter the same names; or both are refused for one cause at the same place. -/
theorem tokenize_alike {v : Variation} {text text' : String}
    (h : Recast v.swaps text.toList text'.toList) (names : NameTable) :
    Agree v.collation (Token.AreAlike v.collation) (NamesAlike v.collation) (NamesAlike v.collation)
      (tokenize text names)
      (tokenize text' (v.names names)) := by
  have hcursor : (Cursor.ofText text).Alike v.collation (.ofText text') := ⟨h, rfl⟩
  have hbound (text : String) (names : NameTable) :
      (Scanner.ofText text names).remaining ≤ 2 * text.length + 3 :=
    Nat.le_trans (remaining_ofText_le text names) (by omega)
  have htokens : Scanner.StepAlike v.collation (Token.AreAlike v.collation)
      (Scanner.tokens (2 * text.length + 3) true false (.ofText text names))
      (Scanner.tokens (2 * text'.length + 3) true false (.ofText text' (v.names names))) :=
    Scanner.alike_tokens true false hcursor (hbound text names) (hbound text' (v.names names))
  unfold tokenize
  generalize Scanner.tokens _ _ _ (.ofText text names) = result at htokens ⊢
  generalize Scanner.tokens _ _ _ (.ofText text' (v.names names)) = result' at htokens ⊢
  rcases htokens with ⟨hts, hfinal⟩ | ⟨he, hnames⟩
  · rcases hfinal with ⟨hfinal⟩
    exact .ok hts rfl
  · exact .error he hnames

end Offside
