import Offside.Proofs.Reader.WellFormedProgram

/-!
# Blocks without statements

A block is opened by an indent and closed by a dedent, and it has no statement exactly if the one
directly follows the other.  A dedent comes at the start of a line, behind another dedent or at the
end of the text.  So an indent has a dedent behind it only in the last line of a text, where nothing
follows but what is skipped: a form feed, a joined line end or a comment behind these.
-/

namespace Offside

open List

namespace Scanner

variable {s s' : Scanner} {t : Token}

/-- Within a line, a block is closed only at the end of the text. -/
theorem separates_of_scan_dedent {depth : Nat} (h : scan depth s = .ok t s')
    (ht : t.kind.isDedent) :
    Separates [] s.cursor.rest := by
  obtain ⟨nested, hnested, hscan⟩ := exists_scanWith depth
  obtain ⟨gap, hpass, hgap⟩ := passes_skipGaps s.joined s.cursor
  rw [hscan, scanWith_eq] at h
  split at h
  · rename_i hpeek
    have hend : (skipGaps s.joined s.cursor).rest = [] := by simpa [Cursor.peek] using hpeek
    rwa [hpass.rest, hend, append_nil, ← hend]
  · rename_i d hpeek
    split at h
    · cases h
      cases ht
    · split at h
      · rename_i kind s₁ hkind
        cases h
        have hlexeme := (reads_scanKind hnested hpeek hkind).lexeme
        cases kind with
        | dedent => cases hlexeme
        | _ => cases ht
      · cases h

theorem Step.eq_mark_of_indent (h : Step s t s') (ht : t.kind = .indent) :
    t = .mark .indent s'.cursor.location := by
  cases h with
  | indent hpass hgap hlong level => rfl
  | @lexeme gap mid hpass hgap measured kind s' hreads =>
    obtain rfl : kind = .indent := ht
    cases hreads.lexeme
  | _ => cases ht

/-- An indent with a dedent behind it stands in front of the last thing that is skipped. -/
theorem Run.separates_of_hasHollow {atLineStart pendingDedent : Bool} {ts : List Token}
    (h : Run s atLineStart pendingDedent ts s') (hollow : Reader.HasHollow (ts.map Token.kind))
    {before : List Char} (hbefore : s.cursor.Follows before) :
    ∃ front gap, s.cursor.rest = front ++ gap ∧ Separates [] gap ∧
      Token.mark .indent (.behind (before ++ front)) ∈ ts := by
  induction h generalizing before with
  | nil => simp [Reader.HasHollow] at hollow
  | @cons s mid s' _ _ t ts hnext hrest ih =>
    obtain ⟨gap, start, text, hpass, -, htext, -⟩ := (step_next hnext).passes
    have hmid := (hpass.trans htext).follows hbefore
    have hwhole : s.cursor.rest = gap ++ text ++ mid.cursor.rest := by
      rw [hpass.rest, htext.rest, append_assoc]
    rcases infix_cons_iff.mp hollow with hhere | hlater
    · obtain ⟨hindent, hdedent⟩ := cons_prefix_cons.mp hhere
      cases hrest with
      | nil => simp at hdedent
      | @cons _ last _ _ _ u us hnext' hrest' =>
        have hu : u.kind.isDedent := by rw [← (cons_prefix_cons.mp hdedent).1]; rfl
        rw [← hindent, next, nextWithin_eq] at hnext'
        refine ⟨gap ++ text, mid.cursor.rest, hwhole, separates_of_scan_dedent hnext' hu, ?_⟩
        rw [← hmid.location]
        exact mem_cons.mpr (.inl ((step_next hnext).eq_mark_of_indent hindent.symm).symm)
    · obtain ⟨front, rest, hfront, hseparates, hmem⟩ := ih hlater hmid
      refine ⟨gap ++ text ++ front,
        rest, by rw [hwhole, hfront, append_assoc (gap ++ text)], hseparates, ?_⟩
      rw [← append_assoc before]
      exact mem_cons_of_mem _ hmem

end Scanner

variable {text : String} {names : NameTable} {p : Program}

theorem TokenStream.toList_ofTokens {ts : List Token} (h : Scanner.EndsInput ts) :
    (ofTokens ts).toList = ts := by
  obtain ⟨init, last, rfl, hlast, -⟩ := h
  cases init <;> simp [ofTokens, toList, hlast]

/-- Where the end of input is reached no further token is left. -/
theorem TokenStream.upcoming_eq_nil {ts passed : List Token} (h : Scanner.EndsInput ts)
    {stream : TokenStream} (hpassed : ts = passed ++ stream.toList) (hpeek : stream.peek.isEnd) :
    stream.upcoming = [] := by
  obtain ⟨init, last, rfl, -, hinit⟩ := h
  obtain ⟨current, upcoming, previous⟩ := stream
  rcases eq_nil_or_concat upcoming with rfl | ⟨more, u, rfl⟩
  · rfl
  · rw [toList, concat_eq_append, ← cons_append, ← append_assoc] at hpassed
    rw [(append_inj' hpassed rfl).1] at hinit
    exact absurd hpeek (by simp [peek, hinit current (by simp)])

/-- A program that is read from a text has a block without statements exactly if an indent of the
text is directly followed by a dedent.  Such an indent stands in front of the last thing that is
skipped in the text. -/
theorem readProgram_anyEmptyBlock_iff (h : (readProgram text names).result = .ok p) :
    ∃ tokens names', tokenize text names = (.ok tokens, names') ∧
      (Statement.anyEmptyBlock p ↔ [Kind.indent, .dedent] <:+: tokens.map Token.kind) ∧
      (Statement.anyEmptyBlock p → ∃ front gap, text.toList = front ++ gap ∧ Separates [] gap ∧
        Token.mark .indent (.behind front) ∈ tokens) := by
  unfold readProgram at h
  split at h
  · rename_i tokens names' hscanned
    obtain ⟨s, hrun, hends, -⟩ := tokenize_eq_ok_iff.mp hscanned
    obtain ⟨mid, hall, -, hlast⟩ := entersAll_of_readTokens (fun hfalse : False => hfalse.elim) h
    have htokens : (Reader.ofTokens tokens names').stream.toList = tokens :=
      TokenStream.toList_ofTokens hends
    obtain ⟨passed, hpassed, -, hhollow⟩ := hall.keeps.passes
    have hdone : ¬mid.IsHollow := by
      have hnone := TokenStream.upcoming_eq_nil hends (htokens.symm.trans hpassed) hlast
      intro hmid
      have hlength := IsInfix.length_le hmid
      simp [TokenStream.toList, hnone] at hlength
    have hiff : Statement.anyEmptyBlock p ↔ Reader.HasHollow (tokens.map Token.kind) := by
      rw [or_iff_left hdone] at hhollow
      rw [← hhollow, Reader.IsHollow, htokens]
    refine ⟨tokens, names', hscanned, hiff, fun hempty => ?_⟩
    exact hrun.separates_of_hasHollow (hiff.mp hempty) (Cursor.follows_ofText text)
  · cases h

theorem exists_emptyBlock_formFeed :
    ∃ p, (readProgram "if x:\n    \x0c").result = .ok p ∧ Statement.anyEmptyBlock p := by
  have hempty : (readProgram "if x:\n    \x0c").result.toOption.map Statement.anyEmptyBlock =
      some true := by
    decide +kernel
  obtain ⟨p, hp, hempty⟩ := Option.map_eq_some_iff.mp hempty
  exact ⟨p, eq_ok_of_toOption hp, hempty⟩

/-- A form feed behind the indentation of the last line leaves the block empty. -/
theorem readProgram_formFeed_emptyBlock :
    ¬∀ text p, (readProgram text).result = .ok p → Statement.anyEmptyBlock p = false := by
  obtain ⟨p, hp, hempty⟩ := exists_emptyBlock_formFeed
  exact fun h => absurd hempty (by simp [h _ p hp])

theorem readProgram_anyEmptyBlock_iff_formFeed :
    ∃ p, (readProgram "if x:\n    \x0c").result = .ok p ∧
    ∃ tokens names', tokenize "if x:\n    \x0c" = (.ok tokens, names') ∧
      (Statement.anyEmptyBlock p ↔ [Kind.indent, .dedent] <:+: tokens.map Token.kind) ∧
      (Statement.anyEmptyBlock p → ∃ front gap, "if x:\n    \x0c".toList = front ++ gap ∧
        Separates [] gap ∧
        Token.mark .indent (.behind front) ∈ tokens) := by
  obtain ⟨p, hp, -⟩ := exists_emptyBlock_formFeed
  exact ⟨p, hp, readProgram_anyEmptyBlock_iff hp⟩

end Offside
