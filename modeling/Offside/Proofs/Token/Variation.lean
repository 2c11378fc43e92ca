import Mathlib.Data.List.Find
import Offside.Proofs.Source.Variation
import Offside.Proofs.Token.Relocation
import Offside.Proofs.Token.Runs

/-!
# Readings at cursors before texts that are read alike

From two cursors that are alike the same is read: numbers, strings, gaps, indentation and symbols.
Both readings yield it and end at cursors that are alike, or both fail, for the same cause and at
the same place.
-/

namespace Offside

/-- Two outcomes agree: both are results that are related, or both are errors of one cause at the
same place.  The states behind them are related too. -/
inductive Agree (v : Collation) {α σ : Type} (R : α → α → Prop) (S E : σ → σ → Prop) :
    Except LexicalError α × σ → Except LexicalError α × σ → Prop
  | ok {a a' : α} {s s' : σ} (h : R a a') (hs : S s s') : Agree v R S E (.ok a, s) (.ok a', s')
  | error {e e' : LexicalError} {s s' : σ} (h : e.relocate v.place = e'.relocate v.place')
    (hs : E s s') : Agree v R S E (.error e, s) (.error e', s')

/-- Two readings at cursors agree, and the cursors behind what was read are alike. -/
abbrev ScannedAlike (v : Collation) {α : Type} (R : α → α → Prop) : Scanned α → Scanned α → Prop :=
  Agree v R (Cursor.Alike v) fun _ _ => True

/-- Two kinds that differ in locations only. -/
def Kind.Alike (v : Collation) (kind kind' : Kind) : Prop :=
  kind.relocate v.place = kind'.relocate v.place'

/-- Tokens that differ in locations only. -/
def Token.AreAlike (v : Collation) (ts ts' : List Token) : Prop :=
  ts.map (Token.relocate v.place) = ts'.map (Token.relocate v.place')

section Cursors

variable {v : Collation} {c c' : Cursor} {l l' start start' : Location}

/-- Errors of one cause at the same place. -/
theorem relocate_error_eq (h : v.place l = v.place' l') (cause : LexicalCause) :
    LexicalError.relocate v.place ⟨cause, l⟩ = LexicalError.relocate v.place' ⟨cause, l'⟩ :=
  congrArg (LexicalError.mk cause) h

/-! ## Numbers -/

theorem alike_scanFraction (h : c.Alike v c') :
    ScannedAlike v Eq (scanFraction c) (scanFraction c') := by
  unfold scanFraction
  by_cases hpoint : c.peek = some '.'
  · have hpoint' := (h.peek_eq_some_iff (by decide)).mp hpoint
    rw [if_pos hpoint, if_pos hpoint', Cursor.peekSecond_eq hpoint (by decide),
      Cursor.peekSecond_eq hpoint' (by decide), h.skip.any_peek_of_imp fun _ =>
        isNewline_of_isDigit]
    obtain ⟨hdigits, hnext⟩ := h.skip.run fun _ => isNewline_of_isDigit
    split
    · exact .ok (congrArg some hdigits) hnext
    · exact .error (relocate_error_eq h.location _) trivial
  · rw [if_neg hpoint, if_neg fun hpoint' => hpoint ((h.peek_eq_some_iff (by decide)).mpr hpoint')]
    exact .ok rfl h

theorem isNewline_of_isSign {d : Char} (h : isSign d) : isNewline d = false := by
  simp only [isSign, Bool.or_eq_true, beq_iff_eq] at h
  rcases h with rfl | rfl <;> decide

theorem alike_scanExponent (h : c.Alike v c') :
    ScannedAlike v Eq (scanExponent c) (scanExponent c') := by
  have hmark : c.peek = some 'e' ∨ c.peek = some 'E' ↔ c'.peek = some 'e' ∨ c'.peek = some 'E' :=
    or_congr (h.peek_eq_some_iff (by decide)) (h.peek_eq_some_iff (by decide))
  unfold scanExponent
  by_cases hexponent : c.peek = some 'e' ∨ c.peek = some 'E'
  · rw [if_pos hexponent, if_pos (hmark.mp hexponent)]
    -- behind the mark the two texts are compared one and two characters on
    have hsecond {c : Cursor} (hc : c.peek = some 'e' ∨ c.peek = some 'E') :
        c.peekSecond = c.skip.peek ∧ c.peekThird = c.skip.peekSecond := by
      rcases hc with hc | hc
      · exact ⟨Cursor.peekSecond_eq hc (by decide), Cursor.peekThird_eq hc (by decide)⟩
      · exact ⟨Cursor.peekSecond_eq hc (by decide), Cursor.peekThird_eq hc (by decide)⟩
    have hthird : c.peekSecond.any isSign ∧ c.peekThird.any Char.isDigit ↔
        c'.peekSecond.any isSign ∧ c'.peekThird.any Char.isDigit := by
      rw [(hsecond hexponent).1, (hsecond hexponent).2, (hsecond (hmark.mp hexponent)).1,
        (hsecond (hmark.mp hexponent)).2, h.skip.any_peek_of_imp fun _ => isNewline_of_isSign]
      refine and_congr_right fun hsign' => ?_
      have hsign := (h.skip.any_peek_of_imp fun _ => isNewline_of_isSign).trans hsign'
      obtain ⟨d, hd, hdsign⟩ := (Option.any_eq_true _ _).mp hsign
      obtain ⟨d', hd', hdsign'⟩ := (Option.any_eq_true _ _).mp hsign'
      rw [Cursor.peekSecond_eq hd (isNewline_of_isSign hdsign),
        Cursor.peekSecond_eq hd' (isNewline_of_isSign hdsign'),
        h.skip.skip.any_peek_of_imp fun _ => isNewline_of_isDigit]
    obtain ⟨hdigits, hnext⟩ := h.skip.run fun _ => isNewline_of_isDigit
    obtain ⟨hdigits₂, hnext₂⟩ := (h.skipMany 2).run fun _ => isNewline_of_isDigit
    have hminus : c.peekSecond = some '-' ↔ c'.peekSecond = some '-' := by
      rw [(hsecond hexponent).1, (hsecond (hmark.mp hexponent)).1]
      exact h.skip.peek_eq_some_iff (by decide)
    have hfirst : c.peekSecond.any Char.isDigit = c'.peekSecond.any Char.isDigit := by
      rw [(hsecond hexponent).1, (hsecond (hmark.mp hexponent)).1]
      exact h.skip.any_peek_of_imp fun _ => isNewline_of_isDigit
    simp only [hfirst, hthird, hminus, hdigits, hdigits₂]
    split
    · exact .ok rfl hnext
    · split
      · exact .ok rfl hnext₂
      · exact .error (relocate_error_eq h.location _) trivial
  · rw [if_neg hexponent, if_neg fun hexponent' => hexponent (hmark.mpr hexponent')]
    exact .ok rfl h

theorem alike_numberKind (hstart : v.place start = v.place' start') (h : c.Alike v c')
    (whole : List Char) (fraction : Option (List Char)) (exponent : Option Int) :
    ScannedAlike v (Kind.Alike v) (numberKind start whole fraction exponent, c)
      (numberKind start' whole fraction exponent, c') := by
  unfold numberKind
  split
  · split
    · exact .ok rfl h
    · exact .error (relocate_error_eq hstart _) trivial
  · exact .ok rfl h

/-- A number is scanned alike in both texts. -/
theorem alike_scanNumber (h : c.Alike v c') :
    ScannedAlike v (Kind.Alike v) (scanNumber c) (scanNumber c') := by
  obtain ⟨hwhole, hafter⟩ := h.run fun _ => isNewline_of_isDigit
  unfold scanNumber
  simp only [hwhole]
  split
  · exact .error (relocate_error_eq h.location _) trivial
  · have hfraction := alike_scanFraction hafter
    generalize scanFraction (c.run Char.isDigit).2 = fraction at hfraction ⊢
    generalize scanFraction (c'.run Char.isDigit).2 = fraction' at hfraction ⊢
    rcases hfraction with ⟨rfl, hnext⟩ | ⟨he, -⟩
    · rename_i digits next next'
      have hexponent := alike_scanExponent hnext
      dsimp only
      generalize scanExponent next = exponent at hexponent ⊢
      generalize scanExponent next' = exponent' at hexponent ⊢
      rcases hexponent with ⟨rfl, hlast⟩ | ⟨he, -⟩
      · rename_i value last last'
        dsimp only
        rw [hlast.filter_peek fun _ => isNewline_of_isWordPart]
        cases last'.peek.filter Text.isWordPart with
        | some d => exact .error (relocate_error_eq hlast.location _) trivial
        | none => exact alike_numberKind h.location hlast _ _ _
      · exact .error he trivial
    · exact .error he trivial

/-! ## Strings -/

theorem isNewline_of_isQuote {d : Char} (h : isQuote d) : isNewline d = false := by
  simp only [isQuote, Bool.or_eq_true, beq_iff_eq] at h
  rcases h with rfl | rfl <;> decide

/-- The opening marks at a quote are the same. -/
theorem alike_openAt (h : c.Alike v c') (hquote : c.peek.any isQuote) :
    (Quotes.openAt c).1 = (Quotes.openAt c').1 ∧ isNewline (Quotes.openAt c).1.mark = false ∧
      (Quotes.openAt c).2.Alike v (Quotes.openAt c').2 := by
  obtain ⟨d, hd, hdquote⟩ := (Option.any_eq_true _ _).mp hquote
  have hline := isNewline_of_isQuote hdquote
  have hd' := (h.peek_eq_some_iff hline).mp hd
  have htriple : c.skip.peek = some d ∧ c.skip.peekSecond = some d ↔
      c'.skip.peek = some d ∧ c'.skip.peekSecond = some d := by
    rw [h.skip.peek_eq_some_iff hline]
    refine and_congr_right fun hnext' => ?_
    have hnext := (h.skip.peek_eq_some_iff hline).mpr hnext'
    rw [Cursor.peekSecond_eq hnext hline, Cursor.peekSecond_eq hnext' hline]
    exact h.skip.skip.peek_eq_some_iff hline
  unfold Quotes.openAt
  simp only [hd, hd', Option.getD_some, htriple]
  split
  · exact ⟨rfl, hline, h.skip.skipMany 2⟩
  · exact ⟨rfl, hline, h.skip⟩

/-- The closing marks follow at both cursors or at none. -/
theorem alike_close? (h : c.Alike v c') {q : Quotes} (hq : isNewline q.mark = false) :
    q.close? c = none ∧ q.close? c' = none ∨
      ∃ next next', q.close? c = some next ∧ q.close? c' = some next' ∧ next.Alike v next' := by
  have hclosing : ∀ d ∈ q.closing, isNewline d = false := by
    intro d hd
    rw [List.eq_of_mem_replicate hd]
    exact hq
  unfold Quotes.close?
  rw [h.rest.isPrefixOf_eq hclosing]
  split
  · exact .inr ⟨_, _, rfl, rfl, h.skipMany _⟩
  · exact .inl ⟨rfl, rfl⟩

/-- What comes of reading a piece of a string: nothing, if the string ends. -/
def Piece.outcome {c : Cursor} : Piece c → Scanned (Option (List Char))
  | .closed next => (.ok none, next)
  | .text found next _ => (.ok (some found), next)
  | .stuck e next => (.error e, next)

/-- What a step through a string comes to. -/
theorem outcome_scanPiece (start : Location) (q : Quotes) (c : Cursor) :
    (scanPiece start q c).outcome =
      match q.close? c with
      | some next => (.ok none, next)
      | none =>
        match c.advance with
        | none => (.error ⟨.unterminatedString, start⟩, c)
        | some (d, next) =>
          if d = '\n' ∧ !q.triple then (.error ⟨.unterminatedString, start⟩, c)
          else if d = '\\' then
            match next.advance with
            | none => (.error ⟨.incompleteEscape, next.location⟩, next)
            | some (e, after) => (.ok (some (unescaped e)), after)
          else (.ok (some [d]), next) := by
  fun_cases scanPiece start q c with
  | case1 next hclose =>
    rw [hclose]
    rfl
  | case2 hclose hadvance =>
    rw [hclose, hadvance]
    rfl
  | case3 hclose d next hadvance hline =>
    simp only [hclose, hadvance, if_pos hline]
    rfl
  | case4 hclose next hend hadvance hline =>
    simp only [hclose, hadvance, if_neg hline, if_true, hend]
    rfl
  | case5 hclose next e after hescaped hadvance hline =>
    simp only [hclose, hadvance, if_neg hline, if_true, hescaped]
    rfl
  | case6 hclose d next hadvance hline hslash =>
    simp only [hclose, hadvance, if_neg hline, if_neg hslash]
    rfl

/-- Two pieces of strings that are the same text, or both end their strings, or cannot be read for
the same reason. -/
inductive Piece.Alike (v : Collation) {c c' : Cursor} : Piece c → Piece c' → Prop
  | closed {next next' : Cursor} (hnext : next.Alike v next') :
    Piece.Alike v (.closed next) (.closed next')
  | text {found : List Char} {next next' : Cursor} {hshorter : next.rest.length < c.rest.length}
    {hshorter' : next'.rest.length < c'.rest.length} (hnext : next.Alike v next') :
    Piece.Alike v (.text found next hshorter) (.text found next' hshorter')
  | stuck {e e' : LexicalError} {next next' : Cursor}
    (h : e.relocate v.place = e'.relocate v.place') :
    Piece.Alike v (.stuck e next) (.stuck e' next')

theorem Piece.alike_of_outcome {piece : Piece c} {piece' : Piece c'}
    (h : ScannedAlike v Eq piece.outcome piece'.outcome) : piece.Alike v piece' := by
  cases piece with
  | closed next =>
    cases piece' with
    | closed next' =>
      rcases h with ⟨-, hnext⟩
      exact .closed hnext
    | _ => nomatch h
  | text found next hshorter =>
    cases piece' with
    | text found' next' hshorter' =>
      rcases h with ⟨hfound, hnext⟩
      cases hfound
      exact .text hnext
    | _ => nomatch h
  | stuck e next =>
    cases piece' with
    | stuck e' next' =>
      rcases h with - | ⟨he, -⟩
      exact .stuck he
    | _ => nomatch h

theorem alike_scanPiece (hstart : v.place start = v.place' start') (h : c.Alike v c') {q : Quotes}
    (hq : isNewline q.mark = false) : (scanPiece start q c).Alike v (scanPiece start' q c') := by
  apply Piece.alike_of_outcome
  rw [outcome_scanPiece, outcome_scanPiece]
  rcases alike_close? h hq with ⟨hclose, hclose'⟩ | ⟨next, next', hclose, hclose', hnext⟩
  · rw [hclose, hclose']
    rcases h.advance with ⟨hadvance, hadvance'⟩ | ⟨d, hadvance, hadvance'⟩
    · rw [hadvance, hadvance']
      exact .error (relocate_error_eq hstart _) trivial
    · rw [hadvance, hadvance']
      dsimp only
      split
      · exact .error (relocate_error_eq hstart _) trivial
      · split
        · rcases h.skip.advance with ⟨hescape, hescape'⟩ | ⟨e, hescape, hescape'⟩
          · rw [hescape, hescape']
            exact .error (relocate_error_eq h.skip.location _) trivial
          · rw [hescape, hescape']
            exact .ok rfl h.skip.skip
        · exact .ok rfl h.skip
  · rw [hclose, hclose']
    exact .ok rfl hnext

/-- The text of a string is scanned alike. -/
theorem alike_scanText (hstart : v.place start = v.place' start') (h : c.Alike v c') {q : Quotes}
    (hq : isNewline q.mark = false) :
    ScannedAlike v Eq (scanText start q c) (scanText start' q c') := by
  fun_induction scanText start q c generalizing c' with
  | case1 c next hpiece =>
    have halike := alike_scanPiece hstart h hq
    rw [hpiece] at halike
    rw [scanText]
    generalize scanPiece start' q c' = piece' at halike ⊢
    rcases halike with ⟨hnext⟩
    exact .ok rfl hnext
  | case2 c e next hpiece =>
    have halike := alike_scanPiece hstart h hq
    rw [hpiece] at halike
    rw [scanText]
    generalize scanPiece start' q c' = piece' at halike ⊢
    rcases halike with - | - | ⟨he⟩
    exact .error he trivial
  | case3 c text next hshorter hpiece result final hscan ih =>
    have halike := alike_scanPiece hstart h hq
    rw [hpiece] at halike
    rw [scanText]
    generalize scanPiece start' q c' = piece' at halike ⊢
    cases halike with
    | @text _ _ next' _ hshorter' hnext =>
      have hrest := ih hnext
      rw [hscan] at hrest
      dsimp only
      generalize scanText start' q next' = scanned at hrest ⊢
      rcases hrest with ⟨rfl, hfinal⟩ | ⟨he, -⟩
      · exact .ok rfl hfinal
      · exact .error he trivial

theorem alike_scanString (h : c.Alike v c') (hquote : c.peek.any isQuote) :
    ScannedAlike v (Kind.Alike v) (scanString c) (scanString c') := by
  obtain ⟨hmarks, hline, hnext⟩ := alike_openAt h hquote
  have htext := alike_scanText h.location hnext hline
  rw [hmarks] at htext
  unfold scanString
  simp only [hmarks]
  generalize scanText c.location _ (Quotes.openAt c).2 = scanned at htext ⊢
  generalize scanText c'.location _ (Quotes.openAt c').2 = scanned' at htext ⊢
  cases htext with
  | ok htext hlast => exact .ok (by rw [htext]; rfl) hlast
  | error he _ => exact .error he trivial

/-! ## Gaps and indentation -/

theorem alike_skipComment (h : c.Alike v c') : (skipComment c).Alike v (skipComment c') :=
  (h.run fun d hd => by simpa using hd).2

theorem skipGaps_eq (joined : Bool) (c : Cursor) :
    skipGaps joined c =
      match c.peek with
      | none => c
      | some d =>
        if isGap d then skipGaps joined c.skip
        else if d = '#' then skipGaps joined (skipComment c)
        else if d = '\\' ∧ c.peekSecond.any isNewline then skipGaps joined (c.skipMany 2)
        else if isNewline d ∧ joined then skipGaps joined c.skip
        else c := by
  rw [skipGaps]
  split
  · rename_i hpeek
    rw [hpeek]
  · rename_i d hpeek
    rw [hpeek]

/-- What stands between tokens is skipped alike. -/
theorem alike_skipGaps (joined : Bool) (h : c.Alike v c') :
    (skipGaps joined c).Alike v (skipGaps joined c') := by
  induction hlength : c.rest.length using Nat.strongRecOn generalizing c c' with
  | ind n ih =>
    subst hlength
    rw [skipGaps_eq, skipGaps_eq joined c']
    rcases h.ahead with ⟨hpeek, hpeek'⟩ | ⟨hd, hpeek, hpeek', hskip⟩ |
      ⟨hd, hd', hpeek, hpeek', hskip⟩
    · rw [hpeek, hpeek']
      exact h
    · have hless := Cursor.length_skip_lt hpeek
      rw [hpeek, hpeek', Cursor.peekSecond_eq hpeek hd, Cursor.peekSecond_eq hpeek' hd,
        h.skip.any_peek fun _ he => he]
      dsimp only
      split
      · exact ih _ hless hskip rfl
      · split
        · rename_i hcomment
          subst hcomment
          exact ih _ (length_skipComment_lt hpeek) (alike_skipComment h) rfl
        · split
          · exact ih _ (Nat.lt_of_le_of_lt (Cursor.length_skip_le _) hless) (h.skipMany 2) rfl
          · split
            · exact ih _ hless hskip rfl
            · exact h
    · -- a newline is neither a blank nor the start of a comment, and joins no lines by itself
      have hother {d : Char} (hd : isNewline d) : isGap d = false ∧ d ≠ '#' ∧ d ≠ '\\' := by
        simp only [isNewline, Bool.or_eq_true, beq_iff_eq] at hd
        rcases hd with rfl | rfl <;> decide
      rw [hpeek, hpeek']
      simp only [hother hd, hother hd', hd, hd', Bool.false_eq_true, false_and, true_and, if_false]
      split
      · exact ih _ (Cursor.length_skip_lt hpeek) hskip rfl
      · exact h

theorem measureIndentation_eq (c : Cursor) :
    measureIndentation c =
      let width := (c.run (· == ' ')).1.length
      let next := (c.run (· == ' ')).2
      match next.peek with
      | none => (.ok 0, next)
      | some d =>
        if d = '\t' then (.error ⟨.tabInIndentation, next.location⟩, next)
        else if d = '#' then measureIndentation (skipComment next)
        else if isNewline d then measureIndentation next.skip
        else if width % indentUnit = 0 then (.ok (width / indentUnit), next)
        else (.error ⟨.invalidIndentation width, next.location⟩, next) := by
  rw [measureIndentation]
  dsimp only
  split
  · rename_i hpeek
    rw [hpeek]
  · rename_i d hpeek
    rw [hpeek]

/-- Lines that are alike are indented alike. -/
theorem alike_measureIndentation (h : c.Alike v c') :
    ScannedAlike v Eq (measureIndentation c) (measureIndentation c') := by
  induction hlength : c.rest.length using Nat.strongRecOn generalizing c c' with
  | ind n ih =>
    subst hlength
    obtain ⟨htext, hnext⟩ := h.run (p := (· == ' ')) fun d hd => by rw [beq_iff_eq.mp hd]; decide
    have hle := Cursor.length_run_le (· == ' ') c
    rw [measureIndentation_eq, measureIndentation_eq c', htext]
    generalize (c.run (· == ' ')).2 = next at hnext hle ⊢
    generalize (c'.run (· == ' ')).2 = next' at hnext ⊢
    dsimp only
    rcases hnext.ahead with
      ⟨hpeek, hpeek'⟩ | ⟨hd, hpeek, hpeek', hskip⟩ | ⟨hd, hd', hpeek, hpeek', hskip⟩
    · rw [hpeek, hpeek']
      exact .ok rfl hnext
    · rw [hpeek, hpeek']
      dsimp only
      split
      · exact .error (relocate_error_eq hnext.location _) trivial
      · split
        · rename_i hcomment
          subst hcomment
          exact ih _ (Nat.lt_of_lt_of_le (length_skipComment_lt hpeek) hle)
            (alike_skipComment hnext) rfl
        · rw [hd]
          split
          · rename_i hfalse
            cases hfalse
          · split
            · exact .ok rfl hnext
            · exact .error (relocate_error_eq hnext.location _) trivial
    · have hother {d : Char} (hd : isNewline d) : d ≠ '\t' ∧ d ≠ '#' := by
        simp only [isNewline, Bool.or_eq_true, beq_iff_eq] at hd
        rcases hd with rfl | rfl <;> decide
      rw [hpeek, hpeek']
      simp only [hother hd, hother hd', hd, hd', if_false, if_true]
      exact ih _ (Nat.lt_of_lt_of_le (Cursor.length_skip_lt hpeek) hle) hskip rfl

/-! ## Symbols -/

/-- Both texts start with the same symbol. -/
theorem alike_symbol? {swaps : List Char → List Char → Prop} {text text' : List Char}
    (h : Recast swaps text text') : symbol? text = symbol? text' := by
  unfold symbol?
  refine List.find?_congr fun symbol hsymbol => ?_
  exact h.isPrefixOf_eq (spelling?_of_mem_symbols hsymbol).2.2

end Cursors

end Offside
