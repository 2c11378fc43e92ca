import Offside.Proofs.Outcome
import Offside.Proofs.Token.Embedded
import Offside.Proofs.Token.Gap
import Offside.Token.Scanner

/-!
# Steps of a scanner

What one step of a scanner can do, said once.  A step skips a gap, and then it reads a word, a
number, a string or a symbol, or passes a newline sequence, or marks the opening or closing of a
block, the end of the last line or the end of the input (`Scanner.Step`).  All that holds of every
token and every state that is reached is derived from this.
-/

namespace Offside

open List

variable {s s' : Scanner}

theorem Separates.append {rest text more : List Char} (h : Separates (more ++ rest) text)
    (hmore : Separates rest more) : Separates rest (text ++ more) := by
  induction h with
  | nil => exact hmore
  | blank hd _ ih => exact .blank hd ih
  | newline hsequence _ ih =>
    rw [append_assoc]
    exact .newline hsequence ih
  | comment hcomment hend _ ih =>
    rw [append_assoc]
    exact .comment hcomment (by rwa [append_assoc]) ih
  | joined hsequence _ ih =>
    rw [append_assoc]
    exact .joined hsequence ih

namespace Scanner

/-! ## Words, numbers, strings and symbols -/

/-- The state of the layout is the same in two states. -/
structure KeepsLayout (s s' : Scanner) : Prop where
  indentation : s'.indentation = s.indentation
  lineHasTokens : s'.lineHasTokens = s.lineHasTokens
  embedded : s'.embedded = s.embedded

/-- A token of the given kind is read at the cursor.  The text that is passed is its spelling, if it
has one, and holds the tokens embedded in it.  The names in the token are of its kind, and its
identifiers are entered. -/
structure Reads (s : Scanner) (kind : Kind) (s' : Scanner) : Prop where
  lexeme : kind.isLexeme = true
  passes : ∃ text, text ≠ [] ∧ s.cursor.Passes text s'.cursor ∧
    (∀ spelling ∈ kind.spelling?, text = spelling.toList) ∧ LieInPassed s.cursor text kind.embedded
  lexical : kind.isLexical = true
  names_eq : s'.names = s.names.internAll kind.identifiers
  layout : s.KeepsLayout s'

theorem embedded_of_spelling? {kind : Kind} {spelling : String}
    (h : kind.spelling? = some spelling) :
    kind.embedded = [] := by
  cases kind with
  | formatted fragments => cases h
  | _ => rfl

theorem run_ne_nil {c : Cursor} {d : Char} {p : Char → Bool} (h : c.peek = some d) (hp : p d) :
    (c.run p).1 ≠ [] := by
  cases hc : c.rest with
  | nil => simp [Cursor.peek, hc] at h
  | cons e rest =>
    obtain rfl : e = d := by simpa [Cursor.peek, hc] using h
    simp [Cursor.run, hc, hp]

variable {nested : EmbeddedScanner} {ts : List Token} {t : Token}

section Kinds

variable {d : Char} {kind : Kind}

/-- A token that is spelled in one way is read from its spelling. -/
theorem reads_of_spelling {spelling : String} (hspelling : kind.spelling? = some spelling)
    (hne : spelling.toList ≠ []) (hpass : s.cursor.Passes spelling.toList s'.cursor)
    (hlexical : kind.isLexical) (hnames : s'.names = s.names.internAll kind.identifiers)
    (hlayout : s.KeepsLayout s') : s.Reads kind s' := by
  refine ⟨Kind.isLexeme_of_spelling? hspelling, ⟨spelling.toList, hne, hpass, ?_, ?_⟩, hlexical,
    hnames, hlayout⟩
  · intro other hother
    rw [Option.some.inj (hspelling.symm.trans hother)]
  · rw [embedded_of_spelling? hspelling]
    exact lieInPassed_nil _ _

/-- The longest run of word characters from the start of a word on is a word. -/
theorem isWord_run {c : Cursor} (hpeek : c.peek = some d) (hd : Text.isWordStart d) :
    Text.isWord (String.ofList (c.run Text.isWordPart).1) := by
  cases hrest : c.rest with
  | nil => simp [Cursor.peek, hrest] at hpeek
  | cons e rest =>
    obtain rfl : e = d := by simpa [Cursor.peek, hrest] using hpeek
    simp [Cursor.run, hrest, Text.isWordPart_of_isWordStart hd, Text.isWord, hd]

/-- A word is a name or a keyword, or it opens a formatted string. -/
theorem reads_scanWord (hnested : nested.IsSound) (hpeek : s.cursor.peek = some d)
    (hd : Text.isWordStart d) (h : scanWord nested s = .ok kind s') : s.Reads kind s' := by
  have hne := run_ne_nil hpeek (Text.isWordPart_of_isWordStart hd)
  have hrun := Cursor.passes_run (fun _ => isNewline_of_isWordPart) s.cursor
  unfold scanWord at h
  simp only at h
  split at h
  · obtain ⟨text, htext, hyields⟩ := scanFormatted_reads hnested s.cursor.location s.names
      (s.cursor.run Text.isWordPart).2
    split at h
    · rename_i kind' names cursor hscan
      rw [hscan] at htext hyields
      cases h
      obtain ⟨⟨fragments, rfl⟩, hlie, hlexical, hnames⟩ := hyields kind rfl
      refine ⟨rfl,
        ⟨_, by simp [hne], hrun.trans htext, by simp [Kind.spelling?], hrun.lieInPassed hlie⟩,
        ?_, ?_, rfl, rfl, rfl⟩
      · rwa [Kind.isLexical, Fragment.areLexical_eq]
      · rwa [Kind.identifiers, Fragment.identifiers_eq]
    · cases h
  · have hspelling := Kind.spelling?_ofWord (String.ofList (s.cursor.run Text.isWordPart).1)
    have hlexical := Kind.isLexical_ofWord (isWord_run hpeek hd)
    split at h
    · rename_i name hname
      cases h
      rw [hname] at hspelling hlexical
      exact reads_of_spelling hspelling (by simpa using hne) (by simpa using hrun) hlexical rfl
        ⟨rfl, rfl, rfl⟩
    · rename_i hword
      cases h
      refine reads_of_spelling hspelling (by simpa using hne) (by simpa using hrun) hlexical ?_
        ⟨rfl, rfl, rfl⟩
      rw [Kind.identifiers_ofWord hword]
      rfl

theorem reads_scanNumber (hpeek : s.cursor.peek = some d) (hd : d.isDigit)
    (h : onCursor scanNumber s = .ok kind s') : s.Reads kind s' := by
  have hne := run_ne_nil hpeek hd
  have hrun := Cursor.passes_run (fun _ => isNewline_of_isDigit) s.cursor
  obtain ⟨more, hmore⟩ := reaches_scanNumber s.cursor
  unfold onCursor at h
  split at h
  · rename_i kind' cursor hscan
    rw [hscan] at hmore
    cases h
    rcases scanNumber_ok hscan hne with ⟨value, rfl, rfl, hdigits⟩ | ⟨value, rfl⟩
    · exact reads_of_spelling rfl (hdigits ▸ hne) (hdigits ▸ hrun) rfl rfl ⟨rfl, rfl, rfl⟩
    · exact ⟨rfl,
        ⟨_, by simp [hne], hrun.trans hmore, by simp [Kind.spelling?], lieInPassed_nil _ _⟩,
        rfl, rfl, rfl, rfl, rfl⟩
  · cases h

theorem reads_scanString (hpeek : s.cursor.peek = some d) (hd : isQuote d)
    (h : onCursor scanString s = .ok kind s') : s.Reads kind s' := by
  have hline : isNewline d = false := by
    simp only [isQuote, Bool.or_eq_true, beq_iff_eq] at hd
    rcases hd with rfl | rfl <;> decide
  have hquote := Cursor.passes_skip_of_not_newline hpeek hline
  obtain ⟨more, hmore⟩ := reaches_scanString s.cursor
  unfold onCursor at h
  split at h
  · rename_i kind' cursor hscan
    rw [hscan] at hmore
    cases h
    obtain ⟨text, rfl⟩ : ∃ text, kind = .str text := by
      have hresult : (scanString s.cursor).1 = .ok kind := by rw [hscan]
      unfold scanString at hresult
      simp only at hresult
      cases hscan' : (scanText s.cursor.location (Quotes.openAt s.cursor).1
          (Quotes.openAt s.cursor).2).1 with
      | error e => rw [hscan'] at hresult; cases hresult
      | ok text => rw [hscan'] at hresult; exact ⟨_, (Except.ok.inj hresult).symm⟩
    exact ⟨rfl, ⟨_, by simp, hquote.trans hmore, by simp [Kind.spelling?], lieInPassed_nil _ _⟩,
      rfl, rfl, rfl, rfl, rfl⟩
  · cases h

theorem reads_scanSymbol (h : scanSymbol d s = .ok kind s') : s.Reads kind s' := by
  unfold scanSymbol at h
  split at h
  · cases h
  · rename_i spelling kind' hsymbol
    obtain ⟨hmem, hleads⟩ := symbol?_eq_some hsymbol
    obtain ⟨hspelling, hne, hline⟩ := spelling?_of_mem_symbols hmem
    have hpass := Cursor.passes_skipMany hleads hline
    rw [String.length_toList] at hpass
    have hlexical := Kind.isLexical_of_mem_symbols hmem
    have hnames := congrArg s.names.internAll (Kind.identifiers_of_mem_symbols hmem).symm
    split at h
    · cases h
      exact reads_of_spelling hspelling hne hpass hlexical hnames ⟨rfl, rfl, rfl⟩
    · cases h
      exact reads_of_spelling hspelling hne hpass hlexical hnames ⟨rfl, rfl, rfl⟩

theorem reads_scanKind (hnested : nested.IsSound) (hpeek : s.cursor.peek = some d)
    (h : scanKind nested d s = .ok kind s') : s.Reads kind s' := by
  unfold scanKind at h
  split at h
  · rename_i hd
    exact reads_scanWord hnested hpeek hd h
  · split at h
    · rename_i hd
      exact reads_scanNumber hpeek hd h
    · split at h
      · rename_i hd
        exact reads_scanString hpeek hd h
      · exact reads_scanSymbol h

end Kinds

/-! ## Steps -/

/-- One step of a scanner: the token that it yields and the state behind it.  The number of open
blocks changes at their marks only; the level of the current line may have been measured anew. -/
inductive Step (s : Scanner) : Token → Scanner → Prop
  | indent {gap : List Char} {mid : Cursor} (hpass : s.cursor.Passes gap mid)
    (hgap : Separates mid.rest gap) (hlong : indentUnit ≤ gap.length) (level : Nat) :
    Step s (.mark .indent mid.location)
      { s with cursor := mid, indentation := ⟨level :: s.indentation.opened, level⟩ }
  | dedent {gap : List Char} {mid : Cursor} (hpass : s.cursor.Passes gap mid)
    (hgap : Separates mid.rest gap) (hopened : s.indentation.opened ≠ []) (measured : Nat) :
    Step s (.mark .dedent mid.location)
      { s with cursor := mid, indentation := ⟨s.indentation.opened.tail, measured⟩ }
  | lexeme {gap : List Char} {mid : Cursor} (hpass : s.cursor.Passes gap mid)
    (hgap : Separates mid.rest gap) {measured : Nat} {kind : Kind} {s' : Scanner}
    (hreads : Reads
      { s with cursor := mid, indentation := ⟨s.indentation.opened, measured⟩ } kind s') :
    Step s ⟨kind, ⟨mid.location, s'.cursor.location⟩⟩ { s' with lineHasTokens := true }
  | newline {gap : List Char} {mid : Cursor} (hpass : s.cursor.Passes gap mid)
    (hgap : Separates mid.rest gap) {sequence : List Char} {next : Cursor}
    (hsequence : IsNewlineSequence sequence) (hnext : mid.Passes sequence next) (measured : Nat) :
    Step s ⟨.newline, ⟨mid.location, next.location⟩⟩
      { s with
        cursor := next, lineHasTokens := false, indentation := ⟨s.indentation.opened, measured⟩ }
  | lastNewline {gap : List Char} {mid : Cursor} (hpass : s.cursor.Passes gap mid)
    (hgap : Separates mid.rest gap) (hend : mid.rest = []) (hline : s.lineHasTokens = true)
    (measured : Nat) :
    Step s (.mark .newline mid.location)
      { s with
        cursor := mid, lineHasTokens := false, indentation := ⟨s.indentation.opened, measured⟩ }
  | endOfInput {gap : List Char} {mid : Cursor} (hpass : s.cursor.Passes gap mid)
    (hgap : Separates mid.rest gap) (hend : mid.rest = [])
    (hclosed : s.embedded = true ∨ s.lineHasTokens = false ∧ s.indentation.opened = [])
    (measured : Nat) :
    Step s (.mark .endOfInput mid.location)
      { s with cursor := mid, indentation := ⟨s.indentation.opened, measured⟩ }

/-- The end of input comes where nothing is left to read.  Outside of an embedded expression no
block is open there. -/
theorem Step.of_isEnd (h : Step s t s') (ht : t.kind.isEnd) :
    s'.cursor.rest = [] ∧ (s.embedded ∨ s'.indentation.opened = []) := by
  cases h with
  | @lexeme gap mid hpass hgap measured kind s' hreads =>
    have hlexeme := hreads.lexeme
    cases kind with
    | endOfInput => cases hlexeme
    | _ => cases ht
  | endOfInput hpass hgap hend hclosed measured => exact ⟨hend, hclosed.imp_right And.right⟩
  | _ => cases ht

/-- A step behind a gap is a step. -/
theorem Step.behind {s : Scanner} {gap : List Char} {mid : Cursor} (hpass : s.cursor.Passes gap mid)
    (hgap : Separates mid.rest gap) {measured : Nat} {t : Token} {s' : Scanner}
    (h : Step { s with cursor := mid, indentation := ⟨s.indentation.opened, measured⟩ } t s') :
    Step s t s' := by
  have hpasses {more : List Char} {last : Cursor} (hmore : mid.Passes more last) :
      s.cursor.Passes (gap ++ more) last := hpass.trans hmore
  have hseparates {more : List Char} {last : Cursor} (hmore : mid.Passes more last)
      (h : Separates last.rest more) : Separates last.rest (gap ++ more) :=
    Separates.append (hmore.rest ▸ hgap) h
  cases h with
  | indent hmore h hlong level =>
    refine .indent (hpasses hmore) (hseparates hmore h) ?_ level
    rw [length_append]
    omega
  | dedent hmore h hopened measured => exact .dedent (hpasses hmore) (hseparates hmore h) hopened _
  | lexeme hmore h hreads => exact .lexeme (hpasses hmore) (hseparates hmore h) hreads
  | newline hmore h hsequence hnext measured =>
    exact .newline (hpasses hmore) (hseparates hmore h) hsequence hnext _
  | lastNewline hmore h hend hline measured =>
    exact .lastNewline (hpasses hmore) (hseparates hmore h) hend hline _
  | endOfInput hmore h hend hclosed measured =>
    exact .endOfInput (hpasses hmore) (hseparates hmore h) hend hclosed _

/-- At the end of the text the last line is ended, then the blocks are closed, and then the input
is. -/
theorem step_finish {s : Scanner} (hend : s.cursor.rest = []) {s' : Scanner}
    (h : finish s = .ok t s') :
    Step s t s' := by
  unfold finish at h
  simp only at h
  split at h
  · rename_i hembedded
    cases h
    exact .endOfInput (.refl _) .nil hend (.inl hembedded) s.indentation.measured
  · split at h
    · rename_i hline
      cases h
      exact .lastNewline (.refl _) .nil hend hline s.indentation.measured
    · rename_i hline
      rw [Bool.not_eq_true] at hline
      cases hopened : s.indentation.opened with
      | nil =>
        simp only [Indentation.flushOne, hopened] at h
        cases h
        have hstep := Step.endOfInput (.refl s.cursor) .nil hend (.inr ⟨hline, hopened⟩) 0
        rwa [hopened] at hstep
      | cons level opened =>
        simp only [Indentation.flushOne, hopened] at h
        cases h
        have hstep := Step.dedent (.refl s.cursor) .nil (by rw [hopened]; simp) 0
        rwa [hopened] at hstep

/-- A step within a line, as a function of the state. -/
theorem scanWith_eq (nested : EmbeddedScanner) (s : Scanner) :
    scanWith nested s =
      match (skipGaps s.joined s.cursor).peek with
      | none => finish { s with cursor := skipGaps s.joined s.cursor }
      | some d =>
        if isNewline d then
          .ok ⟨.newline, ⟨(skipGaps s.joined s.cursor).location,
              (skipGaps s.joined s.cursor).skip.location⟩⟩
            { s with cursor := (skipGaps s.joined s.cursor).skip, lineHasTokens := false }
        else
          match scanKind nested d { s with cursor := skipGaps s.joined s.cursor } with
          | .ok kind s' =>
            .ok ⟨kind, ⟨(skipGaps s.joined s.cursor).location, s'.cursor.location⟩⟩
              { s' with lineHasTokens := true }
          | .error e s' => .error e s' := by
  change (match (skipGaps s.joined s.cursor).peek with
    | none => finish
    | some d => _ : Scan Token) { s with cursor := skipGaps s.joined s.cursor } = _
  cases (skipGaps s.joined s.cursor).peek with
  | none => rfl
  | some d =>
    dsimp only
    cases isNewline d with
    | true => rfl
    | false =>
      change EStateM.bind (scanKind nested d) _ _ = _
      unfold EStateM.bind
      cases scanKind nested d { s with cursor := skipGaps s.joined s.cursor } <;> rfl

theorem step_scanWith (hnested : nested.IsSound) (h : scanWith nested s = .ok t s') :
    Step s t s' := by
  obtain ⟨gap, hpass, hgap⟩ := passes_skipGaps s.joined s.cursor
  rw [scanWith_eq] at h
  split at h
  · rename_i hpeek
    have hend : (skipGaps s.joined s.cursor).rest = [] := by simpa [Cursor.peek] using hpeek
    exact Step.behind hpass hgap (step_finish hend h)
  · rename_i d hpeek
    split at h
    · rename_i hnewline
      obtain ⟨sequence, hsequence, hnext⟩ := Cursor.passes_skip_of_newline hpeek hnewline
      cases h
      exact .newline hpass hgap hsequence hnext s.indentation.measured
    · split at h
      · rename_i kind s₁ hscan
        cases h
        have hreads : Reads { s with cursor := skipGaps s.joined s.cursor } kind s₁ :=
          reads_scanKind hnested hpeek hscan
        exact .lexeme hpass hgap hreads
      · cases h

/-- Where a step goes: over a gap, and then over the text of its token. -/
theorem Step.passes {s : Scanner} {t : Token} {s' : Scanner} (h : Step s t s') :
    ∃ gap mid text, s.cursor.Passes gap mid ∧ Separates mid.rest gap ∧ mid.Passes text s'.cursor ∧
      t.span = ⟨mid.location, s'.cursor.location⟩ ∧
      (∀ spelling ∈ t.kind.spelling?, text = spelling.toList) ∧
        LieInPassed mid text t.kind.embedded := by
  cases h with
  | indent hpass hgap | dedent hpass hgap | lastNewline hpass hgap | endOfInput hpass hgap =>
    exact ⟨_, _, [], hpass, hgap, .refl _, rfl, nofun, lieInPassed_nil _ _⟩
  | lexeme hpass hgap hreads =>
    obtain ⟨text, -, htext, hspelling, hlie⟩ := hreads.passes
    exact ⟨_, _, text, hpass, hgap, htext, rfl, hspelling, hlie⟩
  | newline hpass hgap hsequence hnext measured =>
    exact ⟨_, _, _, hpass, hgap, hnext, rfl, nofun, lieInPassed_nil _ _⟩

/-- The token of a step lies before those that lie in the rest of the text. -/
theorem Step.lieInPassed (h : Step s t s') (hts : LieInPassed s'.cursor s'.cursor.rest ts) :
    LieInPassed s.cursor s.cursor.rest (t :: ts) := by
  obtain ⟨gap, mid, text, hpass, -, htext, hspan, -, hlie⟩ := h.passes
  intro before hbefore hsize
  have hmid := hpass.follows hbefore
  have hnext := htext.follows hmid
  have hrest : before ++ s.cursor.rest = before ++ gap ++ text ++ s'.cursor.rest := by
    rw [hpass.rest, htext.rest, append_assoc, append_assoc]
  have hmidrest : before ++ gap ++ mid.rest = before ++ gap ++ text ++ s'.cursor.rest := by
    rw [htext.rest, ← append_assoc]
  rw [hrest] at hsize ⊢
  have hstart := hmid.offset (by rw [byteLength_append, byteLength_append] at hsize; omega)
  have hstop := hnext.offset (by rw [byteLength_append] at hsize; omega)
  refine .cons ?_ ?_ ?_ ?_ ?_
  · rw [hspan, ← hmidrest]
    exact hmid.isPlaceOf
  · rw [hspan]
    exact hnext.isPlaceOf
  · rw [hspan, hstart, byteLength_append]
    exact Nat.le_add_right _ _
  · rw [hspan, hstart, hstop, ← hmidrest]
    exact hlie _ hmid (hmidrest ▸ hsize)
  · rw [hspan, hstop]
    exact hts _ hnext hsize

/-- The names in the token of a step are of its kind. -/
theorem Step.isLexical {s : Scanner} {t : Token} {s' : Scanner} (h : Step s t s') :
    t.kind.isLexical := by
  cases h with
  | lexeme hpass hgap hreads => exact hreads.lexical
  | _ => rfl

/-- A step enters the identifiers of its token. -/
theorem Step.names_eq {s : Scanner} {t : Token} {s' : Scanner} (h : Step s t s') :
    s'.names = s.names.internAll t.identifiers := by
  cases h with
  | lexeme hpass hgap hreads => exact hreads.names_eq
  | _ => rfl

/-- The token of a step comes before those that the rest of the text yields. -/
theorem Step.yields (h : Step s t s') {entered : NameTable}
    (hts : Yields s'.cursor s'.names s'.cursor.rest ts entered) :
    Yields s.cursor s.names s.cursor.rest (t :: ts) entered where
  lie := h.lieInPassed hts.lie
  lexical :=
    Token.areLexical_iff.mpr
    (forall_mem_cons.mpr ⟨h.isLexical, Token.areLexical_iff.mp hts.lexical⟩)
  entered_eq := by
    rw [Token.allIdentifiers, NameTable.internAll_append, ← h.names_eq, hts.entered_eq]

/-- Token after token up to the end of input is yielded. -/
theorem yields_scanToEnd {next : Scan Token} (hnext : ∀ {s t s'}, next s = .ok t s' → Step s t s')
    {bound : Nat} (h : scanToEnd next bound s = .ok ts s') :
    Yields s.cursor s.names s.cursor.rest ts s'.names := by
  induction bound generalizing s ts with
  | zero =>
    cases h
    exact yields_nil _ _ _
  | succ bound ih =>
    obtain ⟨t, mid, hstep, h⟩ := exists_of_step_bind h
    split at h
    · cases h
      exact (hnext hstep).yields (yields_nil _ _ _)
    · obtain ⟨more, s₂, hmore, h⟩ := exists_of_step_bind h
      cases h
      exact (hnext hstep).yields (ih hmore)

/-- A step within a line, at any depth of embedded expressions, reads the embedded ones soundly. -/
theorem exists_scanWith (depth : Nat) : ∃ nested :
    EmbeddedScanner, nested.IsSound ∧ scan depth = scanWith nested := by
  induction depth with
  | zero =>
    refine ⟨_, fun c names tokens htokens => ?_, rfl⟩
    rw [← Except.ok.inj htokens]
    exact yields_nil _ _ _
  | succ depth ih =>
    obtain ⟨nested, hnested, hscan⟩ := ih
    refine ⟨_, fun c names tokens htokens => ?_, rfl⟩
    split at htokens
    · rename_i ts s₁ hrun
      rw [← Except.ok.inj htokens]
      exact yields_scanToEnd (fun h => step_scanWith hnested (hscan ▸ h)) hrun
    · cases htokens

/-- Every step within a line is one of those above. -/
theorem step_scan {depth : Nat} (h : scan depth s = .ok t s') : Step s t s' := by
  obtain ⟨nested, hnested, hscan⟩ := exists_scanWith depth
  exact step_scanWith hnested (hscan ▸ h)

/-- A step, as a function of the state: a block that is still to be closed comes first, then the
indentation of a new line. -/
theorem nextWithin_eq (depth : Nat) (atLineStart pendingDedent : Bool) (s : Scanner) :
    nextWithin depth atLineStart pendingDedent s =
      if pendingDedent then
        match s.indentation.continueDedent with
        | (.ok true, indentation) =>
          .ok (.mark .dedent s.cursor.location) { s with indentation }
        | (.ok false, indentation) => scan depth { s with indentation }
        | (.error cause, indentation) => .error ⟨cause, s.cursor.location⟩ { s with indentation }
      else if atLineStart && !s.embedded then
        match measureIndentation s.cursor with
        | (.error e, cursor) => .error e { s with cursor }
        | (.ok level, cursor) =>
          match s.indentation.enterLine level with
          | (.indent, indentation) =>
            .ok (.mark .indent cursor.location) { s with cursor, indentation }
          | (.dedent, indentation) =>
            .ok (.mark .dedent cursor.location) { s with cursor, indentation }
          | (.same, indentation) => scan depth { s with cursor, indentation }
      else scan depth s := by
  cases pendingDedent with
  | true =>
    change EStateM.bind owedDedent _ s = _
    unfold EStateM.bind owedDedent
    match s.indentation.continueDedent with
    | (.ok true, indentation) => rfl
    | (.ok false, indentation) => rfl
    | (.error cause, indentation) => rfl
  | false =>
    change (if (atLineStart && !s.embedded) =
      true then EStateM.bind enterLine _ else scan depth) s = _
    cases atLineStart && !s.embedded with
    | false => rfl
    | true =>
      change EStateM.bind (EStateM.bind (onCursor measureIndentation) _) _ s = _
      unfold EStateM.bind onCursor
      match measureIndentation s.cursor with
      | (.error e, cursor) => rfl
      | (.ok level, cursor) =>
        dsimp only [modifyGet, MonadStateOf.modifyGet, EStateM.modifyGet]
        match s.indentation.enterLine level with
        | (.indent, indentation) => rfl
        | (.dedent, indentation) => rfl
        | (.same, indentation) => rfl

/-- A line deeper than the innermost block opens one, and a line less deep closes one. -/
theorem enterLine_cases (i : Indentation) (level : Nat) :
    i.top < level ∧ i.enterLine level = (.indent, ⟨level :: i.opened, level⟩) ∨
      i.opened ≠ [] ∧ i.enterLine level = (.dedent, ⟨i.opened.tail, level⟩) ∨
      i.enterLine level = (.same, ⟨i.opened, level⟩) := by
  unfold Indentation.enterLine
  split
  · rename_i h
    exact .inl ⟨h, rfl⟩
  · split
    · rename_i h
      refine .inr (.inl ⟨fun hnil => ?_, rfl⟩)
      rw [Indentation.top, hnil] at h
      exact Nat.not_lt_zero _ h
    · exact .inr (.inr rfl)

theorem continueDedent_cases (i : Indentation) :
    i.opened ≠ [] ∧ i.continueDedent = (.ok true, ⟨i.opened.tail, i.measured⟩) ∨
      (∃ cause, i.continueDedent = (.error cause, i)) ∨ i.continueDedent = (.ok false, i) := by
  unfold Indentation.continueDedent
  split
  · rename_i h
    refine .inl ⟨fun hnil => ?_, rfl⟩
    rw [Indentation.top, hnil] at h
    exact Nat.not_lt_zero _ h
  · split
    · exact .inr (.inl ⟨_, rfl⟩)
    · exact .inr (.inr rfl)

/-- Every step is one of those above, whatever the scanner is told of its place. -/
theorem step_next {atLineStart pendingDedent : Bool}
    (h : next atLineStart pendingDedent s = .ok t s') : Step s t s' := by
  rw [next, nextWithin_eq] at h
  split at h
  · rcases continueDedent_cases s.indentation with ⟨hopened, heq⟩ | ⟨cause, heq⟩ | heq
    · rw [heq] at h
      cases h
      exact .dedent (.refl _) .nil hopened _
    · rw [heq] at h
      cases h
    · rw [heq] at h
      exact step_scan h
  · split at h
    · obtain ⟨gap, hpass, hgap, hlevel⟩ := passes_measureIndentation s.cursor
      split at h
      · cases h
      · rename_i level cursor hmeasure
        rw [hmeasure] at hpass hgap hlevel
        rcases enterLine_cases s.indentation level with ⟨htop, heq⟩ | ⟨hopened, heq⟩ | heq
        · rw [heq] at h
          cases h
          refine .indent hpass hgap ?_ level
          exact Nat.le_trans (Nat.le_mul_of_pos_right _ (Nat.zero_lt_of_lt htop)) (hlevel level rfl)
        · rw [heq] at h
          cases h
          exact .dedent hpass hgap hopened level
        · rw [heq] at h
          exact Step.behind hpass hgap (step_scan h)
    · exact step_scan h

end Scanner

end Offside
