import Offside.Proofs.Token.Variation

/-!
# Formatted strings in texts that are read alike

A formatted string has the same fragments in both texts, up to the locations of the tokens in it, if
the scanners of the embedded expressions agree on the texts that they are given
(`alike_scanFormatted`).  An embedded expression ends before the line does, so those texts are
equal.
-/

namespace Offside

open List

variable {v : Collation} {c c' : Cursor} {start start' : Location}

/-- An embedded expression is split off from both texts or from none, and it is the same. -/
theorem alike_splitEmbedded {swaps : List Char → List Char → Prop} {text text' : List Char}
    (h : Recast swaps text text') (mark : Char) {depth : Nat} {quote : Option Char}
    (hquote : ∀ q ∈ quote, isNewline q = false) :
    splitEmbedded mark depth quote text = none ∧ splitEmbedded mark depth quote text' = none ∨
      ∃ inside after after', splitEmbedded mark depth quote text = some (inside, after) ∧
        splitEmbedded mark depth quote text' = some (inside, after') ∧
          Recast swaps after after' := by
  have hnone : ∀ q ∈ (none : Option Char), isNewline q = false :=
    fun q hq => absurd hq (Option.not_mem_none q)
  induction h generalizing depth quote with
  | nil => exact .inl ⟨rfl, rfl⟩
  | @char d rest rest' hd h ih =>
    -- behind a character that does not end the expression it goes on in the same way
    have hstep {depth : Nat} {quote : Option Char} (hquote : ∀ q ∈ quote, isNewline q = false) :
        (splitEmbedded mark depth quote rest).map (Prod.map (cons d) id) = none ∧
          (splitEmbedded mark depth quote rest').map (Prod.map (cons d) id) = none ∨
        ∃ inside after after',
          (splitEmbedded mark depth quote rest).map (Prod.map (cons d) id) =
            some (inside, after) ∧
          (splitEmbedded mark depth quote rest').map (Prod.map (cons d) id) =
            some (inside, after') ∧
          Recast swaps after after' := by
      rcases @ih depth quote hquote with
        ⟨hsplit, hsplit'⟩ | ⟨inside, after, after', hsplit, hsplit', hafter⟩
      · exact .inl ⟨by rw [hsplit]; rfl, by rw [hsplit']; rfl⟩
      · exact .inr ⟨d :: inside, after, after', by rw [hsplit]; rfl, by rw [hsplit']; rfl, hafter⟩
    cases quote with
    | some q =>
      simp only [splitEmbedded]
      split
      · exact hstep hnone
      · split
        · exact .inl ⟨rfl, rfl⟩
        · exact hstep hquote
    | none =>
      simp only [splitEmbedded]
      split
      · exact .inl ⟨rfl, rfl⟩
      · split
        · exact .inr ⟨[], rest, rest', rfl, rfl, h⟩
        · split
          · exact hstep fun q hq => Option.some.inj hq ▸ hd
          · exact hstep hnone
  | newline hsequence hsequence' hswaps hcut hcut' h ih =>
    have hfirst {sequence : List Char} (hsequence : IsNewlineSequence sequence) (rest : List Char) :
        splitEmbedded mark depth quote (sequence ++ rest) = none := by
      obtain ⟨d, more, rfl, hd⟩ := hsequence.exists_cons
      cases quote with
      | some q =>
        have hne : d ≠ q := by
          rintro rfl
          exact absurd ((hquote d rfl).symm.trans hd) Bool.false_ne_true
        rw [cons_append, splitEmbedded, if_neg hne, if_pos hd]
      | none => rw [cons_append, splitEmbedded, if_pos (.inl hd)]
    exact .inl ⟨hfirst hsequence _, hfirst hsequence' _⟩

/-- The names of two readings. -/
def NamesAlike (v : Collation) (names names' : NameTable) : Prop := names' = v.names names

/-- Two scanners of embedded expressions yield the same tokens from every text that holds no newline
and is shorter than the given bounds. -/
def EmbeddedScanner.Alike (v : Collation) (bound bound' : Nat) (nested nested' : EmbeddedScanner) :
    Prop :=
  ∀ (inside : List Char) (l l' : Location) (names : NameTable),
    (∀ d ∈ inside, isNewline d = false) →
    v.place l = v.place' l' → inside.length < bound → inside.length < bound' →
      Agree v (Token.AreAlike v) (NamesAlike v) (NamesAlike v) (nested ⟨inside, l⟩ names)
        (nested' ⟨inside, l'⟩ (v.names names))

/-- Two readings of formatted strings agree, and so do the names behind them. -/
abbrev FormattedAlike (v : Collation) {α : Type} (R : α → α → Prop) :
    Except LexicalError α × NameTable × Cursor →
      Except LexicalError α × NameTable × Cursor → Prop :=
  Agree v R (fun s s' => NamesAlike v s.1 s'.1 ∧ s.2.Alike v s'.2) fun s s' => NamesAlike v s.1 s'.1

section Fragments

variable (nested : EmbeddedScanner) (start : Location) (q : Quotes) (names : NameTable)
  (literal : List Char) {c : Cursor} {rest : List Char}

/-- Two equal braces stand for one. -/
theorem scanFragments_doubled {d : Char} (hd : d = '\x7b' ∨ d = '\x7d')
    (h : c.rest = d :: d :: rest) :
    scanFragments nested start q names literal c =
      scanFragments nested start q names (literal ++ [d]) ⟨rest, c.location.along [d, d]⟩ := by
  obtain ⟨text, l⟩ := c
  obtain rfl : text = d :: d :: rest := h
  rw [scanFragments]
  rcases hd with rfl | rfl <;> rfl

theorem scanFragments_unmatched (h : c.rest = '\x7d' :: rest) (hrest : rest.head? ≠ some '\x7d') :
    scanFragments nested start q names literal c =
      (.error ⟨.unmatchedBrace, c.location⟩, names, c) := by
  rw [scanFragments]
  split
  · rename_i hmore
    cases (cons.inj (hmore.symm.trans h)).1
  · rename_i hmore
    obtain rfl := (cons.inj (hmore.symm.trans h)).2
    exact absurd rfl hrest
  · rfl
  · rename_i hmore
    cases (cons.inj (hmore.symm.trans h)).1
  · rename_i hother _
    exact absurd h (hother rest)

theorem scanFragments_embedded (h : c.rest = '\x7b' :: rest) (hrest : rest.head? ≠ some '\x7b') :
    scanFragments nested start q names literal c =
      let inner : Cursor := ⟨rest, c.location.along ['\x7b']⟩
      match splitEmbedded q.mark 0 none rest with
      | none => (.error ⟨.unterminatedEmbedded, c.location⟩, names, inner)
      | some (inside, after) =>
        if inside.all Text.isBlank then (.error ⟨.emptyEmbedded, c.location⟩, names, inner)
        else
          match nested ⟨inside, inner.location⟩ names with
          | (.error e, names) => (.error e, names, inner)
          | (.ok tokens, names) =>
            let (result, final) := scanFragments nested start q names []
              ⟨after, inner.location.along (inside ++ ['\x7d'])⟩
            (result.map (literalFragment literal ++ .embedded tokens :: ·), final) := by
  rw [scanFragments]
  split
  · rename_i hmore
    obtain rfl := (cons.inj (hmore.symm.trans h)).2
    exact absurd rfl hrest
  · rename_i hmore
    cases (cons.inj (hmore.symm.trans h)).1
  · rename_i hmore
    cases (cons.inj (hmore.symm.trans h)).1
  · rename_i more _ hmore
    obtain rfl : more = rest := (cons.inj (hmore.symm.trans h)).2
    dsimp only
    rcases splitEmbedded q.mark 0 none more with _ | ⟨inside, after⟩
    · rfl
    · rfl
  · rename_i hother
    exact absurd h (hother rest)

theorem scanFragments_plain (hopen : c.peek ≠ some '\x7b') (hclose : c.peek ≠ some '\x7d') :
    scanFragments nested start q names literal c =
      match scanPiece start q c with
      | .closed next => (.ok (literalFragment literal), names, next)
      | .stuck e next => (.error e, names, next)
      | .text text next _ => scanFragments nested start q names (literal ++ text) next := by
  have hne {d : Char} {more : List Char} (hd : c.peek ≠ some d) : c.rest ≠ d :: more := by
    intro hrest
    rw [Cursor.peek, hrest] at hd
    exact hd rfl
  rw [scanFragments]
  split
  · rename_i hrest
    exact absurd hrest (hne hopen)
  · rename_i hrest
    exact absurd hrest (hne hclose)
  · rename_i hrest
    exact absurd hrest (hne hclose)
  · rename_i hrest
    exact absurd hrest (hne hopen)
  · rfl

end Fragments

/-- The fragments of two formatted strings agree from the given cursors on. -/
def FragmentsAlike (v : Collation) (nested nested' : EmbeddedScanner) (start start' : Location)
    (q : Quotes) (c c' : Cursor) : Prop :=
  ∀ names literal, FormattedAlike v
    (fun fs fs' => Fragment.relocateAll v.place fs = Fragment.relocateAll v.place' fs')
    (scanFragments nested start q names literal c)
    (scanFragments nested' start' q (v.names names) literal c')

section FragmentsAlike

variable {nested nested' : EmbeddedScanner} {q : Quotes} {rest rest' : List Char}

theorem fragmentsAlike_doubled {d : Char} (hd : d = '\x7b' ∨ d = '\x7d')
    (hrest : c.rest = d :: d :: rest)
    (hrest' : c'.rest = d :: d :: rest') (hmore : FragmentsAlike v nested nested' start start' q
      ⟨rest, c.location.along [d, d]⟩ ⟨rest', c'.location.along [d, d]⟩) :
    FragmentsAlike v nested nested' start start' q c c' := by
  intro names literal
  rw [scanFragments_doubled _ _ _ _ _ hd hrest, scanFragments_doubled _ _ _ _ _ hd hrest']
  exact hmore names (literal ++ [d])

theorem relocateAll_literalFragment (place : Location → Location) (literal : List Char)
    (fragments : List Fragment) :
    Fragment.relocateAll place (literalFragment literal ++ fragments) =
      literalFragment literal ++ Fragment.relocateAll place fragments := by
  unfold literalFragment
  split <;> rfl

/-- An embedded expression, and what follows it. -/
theorem fragmentsAlike_embedded {bound bound' : Nat}
    (hnested : EmbeddedScanner.Alike v bound bound' nested nested')
    (h : v.place c.location = v.place' c'.location)
    (hrest : c.rest = '\x7b' :: rest) (hsingle : rest.head? ≠ some '\x7b')
    (hrest' : c'.rest = '\x7b' :: rest') (hsingle' : rest'.head? ≠ some '\x7b')
    (hbound : rest.length ≤ bound) (hbound' : rest'.length ≤ bound')
    (hmore : Recast v.swaps rest rest')
    (hafter : ∀ {next next' : Cursor}, next.Alike v next' → next.rest.length < rest.length →
      next'.rest.length < rest'.length →
        FragmentsAlike v nested nested' start start' q next next') :
    FragmentsAlike v nested nested' start start' q c c' := by
  intro names literal
  rw [scanFragments_embedded _ _ _ _ _ hrest hsingle,
    scanFragments_embedded _ _ _ _ _ hrest' hsingle']
  dsimp only
  have hinner : v.place (c.location.along ['\x7b']) = v.place' (c'.location.along ['\x7b']) :=
    v.place_along _ h
  rcases alike_splitEmbedded hmore q.mark (fun q hq => absurd hq (Option.not_mem_none q)) with
    ⟨hsplit, hsplit'⟩ | ⟨inside, after, after', hsplit, hsplit', htail⟩
  · rw [hsplit, hsplit']
    exact .error (relocate_error_eq h _) rfl
  · rw [hsplit, hsplit']
    have hlength := congrArg length (eq_append_of_splitEmbedded hsplit)
    have hlength' := congrArg length (eq_append_of_splitEmbedded hsplit')
    simp only [length_append, length_cons] at hlength hlength'
    have htokens := hnested inside _ _ names
      (isNewline_of_splitEmbedded (fun q hq => absurd hq (Option.not_mem_none q)) hsplit) hinner
      (by omega) (by omega)
    dsimp only
    generalize nested ⟨inside, c.location.along ['\x7b']⟩ names = outcome at htokens ⊢
    generalize nested' ⟨inside, c'.location.along ['\x7b']⟩ (v.names names) = outcome' at htokens ⊢
    split
    · exact .error (relocate_error_eq h _) rfl
    · rcases htokens with ⟨htokens, hnames⟩ | ⟨he, hnames⟩
      · rename_i tokens tokens' names₁ names₁'
        obtain rfl : names₁' = v.names names₁ := hnames
        have hnext : Cursor.Alike v ⟨after, (c.location.along ['\x7b']).along (inside ++ ['\x7d'])⟩
            ⟨after', (c'.location.along ['\x7b']).along (inside ++ ['\x7d'])⟩ :=
          ⟨htail, v.place_along _ hinner⟩
        have hless : after.length < rest.length := by omega
        have hless' : after'.length < rest'.length := by omega
        have hfragments := hafter hnext hless hless' names₁ []
        dsimp only
        generalize scanFragments nested _ q names₁ [] _ = scanned at hfragments ⊢
        generalize scanFragments nested' _ q (v.names names₁) [] _ = scanned' at hfragments ⊢
        rcases hfragments with ⟨hfound, hfinal⟩ | ⟨he, hfinal⟩
        · refine .ok ?_ hfinal
          rw [relocateAll_literalFragment, relocateAll_literalFragment, Fragment.relocateAll,
            Fragment.relocateAll, hfound, Fragment.relocate, Fragment.relocate,
            Token.relocateAll_eq_map, Token.relocateAll_eq_map, htokens]
        · exact .error he hfinal
      · exact .error he hnames

/-- A piece of literal text, and what follows it. -/
theorem fragmentsAlike_plain (hstart : v.place start = v.place' start')
    (hq : isNewline q.mark = false)
    (h : c.Alike v c') (hopen : c.peek ≠ some '\x7b') (hclose : c.peek ≠ some '\x7d')
    (hafter : ∀ {next next' : Cursor}, next.Alike v next' → next.rest.length < c.rest.length →
      next'.rest.length < c'.rest.length →
        FragmentsAlike v nested nested' start start' q next next') :
    FragmentsAlike v nested nested' start start' q c c' := by
  intro names literal
  have hopen' : c'.peek ≠ some '\x7b' := fun heq => hopen ((h.peek_eq_some_iff (by decide)).mpr heq)
  have hclose' : c'.peek ≠ some '\x7d' :=
    fun heq => hclose ((h.peek_eq_some_iff (by decide)).mpr heq)
  rw [scanFragments_plain _ _ _ _ _ hopen hclose, scanFragments_plain _ _ _ _ _ hopen' hclose']
  have hpiece := alike_scanPiece hstart h hq
  generalize scanPiece start q c = piece at hpiece ⊢
  generalize scanPiece start' q c' = piece' at hpiece ⊢
  cases hpiece with
  | closed hnext =>
    have hliteral (place : Location → Location) := relocateAll_literalFragment place literal []
    simp only [append_nil, Fragment.relocateAll] at hliteral
    exact .ok ((hliteral v.place).trans (hliteral v.place').symm) ⟨rfl, hnext⟩
  | @text found next next' hshorter hshorter' hnext =>
    exact hafter hnext hshorter hshorter' names (literal ++ found)
  | stuck he => exact .error he rfl

end FragmentsAlike

variable {bound bound' : Nat} {nested nested' : EmbeddedScanner}
  (hnested : EmbeddedScanner.Alike v bound bound' nested nested')
  (hstart : v.place start = v.place' start') (h : c.Alike v c') (hbound : c.rest.length ≤ bound)
  (hbound' : c'.rest.length ≤ bound')
include hnested hstart h hbound hbound'

/-- Fragment by fragment, the two readings agree. -/
theorem fragmentsAlike {q : Quotes} (hq : isNewline q.mark = false) :
    FragmentsAlike v nested nested' start start' q c c' := by
  -- a brace that starts what is left of one text starts what is left of the other
  have hhead {text text' : List Char} (htext : Recast v.swaps text text') {d : Char}
      (hd : isNewline d = false) (hne : text.head? ≠ some d) : text'.head? ≠ some d := by
    intro heq
    obtain ⟨rest, rfl⟩ := head?_eq_some_iff.mp heq
    obtain ⟨more, rfl, -⟩ := htext.symm.of_cons hd
    exact hne rfl
  induction hlength : c.rest.length using Nat.strongRecOn generalizing c c' with
  | ind n ih =>
    subst hlength
    have hdoubled {d : Char} (hd : d = '\x7b' ∨ d = '\x7d') {rest : List Char}
        (hrest : c.rest = d :: d :: rest) :
        FragmentsAlike v nested nested' start start' q c c' := by
      have hline : isNewline d = false := by rcases hd with rfl | rfl <;> decide
      obtain ⟨text', hrest', htext⟩ := (hrest ▸ h.rest).of_cons hline
      obtain ⟨rest', rfl, hmore⟩ := htext.of_cons hline
      have hlength := congrArg length hrest
      have hlength' := congrArg length hrest'
      simp only [length_cons] at hlength hlength'
      refine fragmentsAlike_doubled hd hrest hrest' (ih rest.length (by omega) ?_ ?_ ?_ rfl)
      · exact ⟨hmore, v.place_along _ h.location⟩
      · simp only; omega
      · simp only; omega
    by_cases hopen : c.rest.head? = some '\x7b'
    · obtain ⟨rest, hrest⟩ := head?_eq_some_iff.mp hopen
      obtain ⟨rest', hrest', hmore⟩ := (hrest ▸ h.rest).of_cons (by decide)
      by_cases hdouble : rest.head? = some '\x7b'
      · obtain ⟨more, rfl⟩ := head?_eq_some_iff.mp hdouble
        exact hdoubled (.inl rfl) hrest
      · have hlength := congrArg length hrest
        have hlength' := congrArg length hrest'
        simp only [length_cons] at hlength hlength'
        refine fragmentsAlike_embedded hnested h.location hrest hdouble hrest'
          (hhead hmore (by decide) hdouble) (by omega) (by omega) hmore fun hnext hless hless' => ?_
        exact ih _ (by omega) hnext (by omega) (by omega) rfl
    · by_cases hclose : c.rest.head? = some '\x7d'
      · obtain ⟨rest, hrest⟩ := head?_eq_some_iff.mp hclose
        obtain ⟨rest', hrest', hmore⟩ := (hrest ▸ h.rest).of_cons (by decide)
        by_cases hdouble : rest.head? = some '\x7d'
        · obtain ⟨more, rfl⟩ := head?_eq_some_iff.mp hdouble
          exact hdoubled (.inr rfl) hrest
        · intro names literal
          rw [scanFragments_unmatched _ _ _ _ _ hrest hdouble,
            scanFragments_unmatched _ _ _ _ _ hrest' (hhead hmore (by decide) hdouble)]
          exact .error (relocate_error_eq h.location _) rfl
      · rw [head?_eq_getElem?] at hopen hclose
        exact fragmentsAlike_plain hstart hq h hopen hclose fun hnext hless hless' =>
          ih _ hless hnext (by omega) (by omega) rfl

/-- A formatted string is scanned alike. -/
theorem alike_scanFormatted (names : NameTable) (hquote : c.peek.any isQuote) :
    FormattedAlike v (Kind.Alike v) (scanFormatted nested start names c)
      (scanFormatted nested' start' (v.names names) c') := by
  obtain ⟨hmarks, hline, hnext⟩ := alike_openAt h hquote
  have hlength {c : Cursor} : (Quotes.openAt c).2.rest.length ≤ c.rest.length := by
    obtain ⟨text, htext⟩ := reaches_openAt c
    have hpassed := htext.length_le
    have hskip := c.length_skip_le
    omega
  have hfragments := fragmentsAlike hnested hstart hnext (Nat.le_trans hlength hbound)
    (Nat.le_trans hlength hbound') hline names []
  rw [hmarks] at hfragments
  unfold scanFormatted
  simp only [hmarks]
  generalize scanFragments nested _ _ _ _ _ = scanned at hfragments ⊢
  generalize scanFragments nested' _ _ _ _ _ = scanned' at hfragments ⊢
  rcases hfragments with ⟨hfound, hfinal⟩ | ⟨he, hfinal⟩
  · exact .ok (congrArg Kind.formatted hfound) hfinal
  · exact .error he hfinal

end Offside
