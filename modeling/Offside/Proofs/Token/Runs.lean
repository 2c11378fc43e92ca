import Offside.Proofs.Token.Steps
import Offside.Token.Tokenize

/-!
# Runs of a scanner

The tokens of a text are yielded step by step, and each step is told what the token before it was.
The bound on their number is never met: every step but the last takes something from what is left of
the text and its open blocks (`Scanner.remaining`).  So the tokens of a text are those of a run that
ends with the end of input (`tokenize_eq_ok_iff`).
-/

namespace Offside

open List

variable {ts : List Token}

namespace Scanner

/-- Tokens are yielded one after the other.  A step is told whether it follows a newline or the
closing of a block. -/
inductive Run : Scanner → (atLineStart pendingDedent : Bool) → List Token → Scanner → Prop
  | nil (s : Scanner) (atLineStart pendingDedent : Bool) : Run s atLineStart pendingDedent [] s
  | cons {s mid s' : Scanner} {atLineStart pendingDedent : Bool} {t : Token} {ts : List Token}
    (hnext : next atLineStart pendingDedent s = .ok t mid)
    (hrest : Run mid t.kind.isNewline t.kind.isDedent ts s') :
    Run s atLineStart pendingDedent (t :: ts) s'

/-- The last token is the end of input, and no other is. -/
def EndsInput (ts : List Token) : Prop :=
  ∃ init last, ts = init ++ [last] ∧ last.kind.isEnd = true ∧ ∀ t ∈ init, t.kind.isEnd = false

variable {t : Token}

theorem endsInput_singleton (h : t.kind.isEnd) : EndsInput [t] :=
  ⟨[], t, rfl, h, forall_mem_nil _⟩

theorem endsInput_cons (h : t.kind.isEnd = false) (hts : EndsInput ts) : EndsInput (t :: ts) := by
  obtain ⟨init, last, rfl, hlast, hinit⟩ := hts
  exact ⟨t :: init, last, rfl, hlast, forall_mem_cons.mpr ⟨h, hinit⟩⟩

theorem EndsInput.of_cons (h : EndsInput (t :: ts)) :
    t.kind.isEnd ∧ ts = [] ∨ t.kind.isEnd = false ∧ EndsInput ts := by
  obtain ⟨init, last, hts, hlast, hinit⟩ := h
  cases init with
  | nil =>
    cases hts
    exact .inl ⟨hlast, rfl⟩
  | cons u init =>
    cases hts
    obtain ⟨hu, hinit⟩ := forall_mem_cons.mp hinit
    exact .inr ⟨hu, init, last, rfl, hlast, hinit⟩

/-! ## The number of tokens -/

/-- How many tokens can still be yielded: one for each character and for each open block, one for
the end of the last line, and one for the end of input. -/
def remaining (s : Scanner) : Nat :=
  s.cursor.rest.length + s.indentation.opened.length +
    if s.cursor.rest = [] ∧ s.lineHasTokens = false then 1 else 2

theorem remaining_pos (s : Scanner) : 0 < s.remaining := by
  unfold remaining
  split <;> omega

theorem remaining_le (s : Scanner) :
    s.remaining ≤ s.cursor.rest.length + s.indentation.opened.length + 2 := by
  unfold remaining
  split <;> omega

theorem remaining_of_lt {s : Scanner} {n : Nat} (h : n < s.cursor.rest.length) :
    s.remaining = s.cursor.rest.length + s.indentation.opened.length + 2 := by
  have hne : s.cursor.rest ≠ [] := length_pos_iff.mp (Nat.zero_lt_of_lt h)
  rw [remaining, if_neg fun hnil => hne hnil.1]

/-- Every step but the end of input leaves less to yield. -/
theorem Step.remaining_lt {s s' : Scanner} (h : Step s t s') (ht : t.kind.isEnd = false) :
    s'.remaining < s.remaining := by
  -- a step that takes a character pays for a block that it opens or a line that it starts
  have htaken (s' : Scanner) (hopened : s'.indentation.opened = s.indentation.opened)
      (hlength : s'.cursor.rest.length < s.cursor.rest.length) : s'.remaining < s.remaining := by
    have hle := remaining_le s'
    rw [hopened] at hle
    have heq := remaining_of_lt hlength
    omega
  cases h with
  | @indent gap mid hpass hgap hunit level =>
    have hlength := hpass.length_le
    have heq :=
      remaining_of_lt (s := s) (n := mid.rest.length) (by simp only [indentUnit] at hunit; omega)
    have hle := remaining_le { s with
      cursor := mid, indentation := ⟨level :: s.indentation.opened, level⟩ }
    simp only [length_cons, indentUnit] at hle hunit
    omega
  | @dedent gap mid hpass hgap hopened measured =>
    have hlength := hpass.length_le
    have htail : s.indentation.opened.tail.length + 1 = s.indentation.opened.length := by
      have hpos := length_pos_iff.mpr hopened
      rw [length_tail]
      omega
    unfold remaining
    simp only
    split
    · split <;> omega
    · rename_i hmore
      split
      · rename_i hnil
        refine absurd ⟨length_eq_zero_iff.mp ?_, hnil.2⟩ hmore
        rw [hnil.1, length_nil] at hlength
        omega
      · omega
  | lexeme hpass hgap hreads =>
    obtain ⟨text, hne, htext, -, -⟩ := hreads.passes
    have hlength := hpass.length_le
    have hlength' := htext.length_le
    have hpos := length_pos_iff.mpr hne
    refine htaken _ (by rw [hreads.layout.indentation]) ?_
    simp only at hlength' ⊢
    omega
  | @newline gap mid hpass hgap sequence next hsequence hnext measured =>
    have hlength := hpass.length_le
    have hlength' := hnext.length_le
    have hpos : 0 < sequence.length := by rcases hsequence with rfl | rfl | rfl <;> decide
    exact htaken _ rfl (by simp only; omega)
  | @lastNewline gap mid hpass hgap hend hline measured =>
    have hlength := hpass.length_le
    rw [remaining, if_pos ⟨hend, rfl⟩, remaining, if_neg (by simp [hline])]
    simp only
    omega
  | endOfInput hpass hgap hend hclosed measured => cases ht

/-! ## Tokens of a text -/

/-- The tokens of a run are those that the rest of the text yields. -/
theorem Run.yields {s s' : Scanner} {atLineStart pendingDedent : Bool} {ts : List Token}
    (h : Run s atLineStart pendingDedent ts s') :
    Yields s.cursor s.names s.cursor.rest ts s'.names := by
  induction h with
  | nil => exact yields_nil _ _ _
  | cons hnext _ ih => exact (step_next hnext).yields ih

/-- The bounded reading of tokens is a run up to the end of input. -/
theorem tokens_eq_ok_iff {bound : Nat} {s s' : Scanner} {atLineStart pendingDedent : Bool}
    (hbound : s.remaining ≤ bound) : tokens bound atLineStart pendingDedent s = .ok ts s' ↔
      Run s atLineStart pendingDedent ts s' ∧ EndsInput ts := by
  induction bound generalizing s atLineStart pendingDedent ts with
  | zero => exact absurd (remaining_pos s) (by omega)
  | succ bound ih =>
    constructor
    · intro h
      obtain ⟨t, mid, hnext, h⟩ := exists_of_step_bind h
      split at h
      · rename_i hend
        cases h
        exact ⟨.cons hnext (.nil _ _ _), endsInput_singleton hend⟩
      · rename_i hend
        rw [Bool.not_eq_true] at hend
        obtain ⟨more, s₂, hmore, h⟩ := exists_of_step_bind h
        cases h
        have hless := (step_next hnext).remaining_lt hend
        obtain ⟨hrun, hends⟩ := (ih (by omega)).mp hmore
        exact ⟨.cons hnext hrun, endsInput_cons hend hends⟩
    · rintro ⟨hrun, hends⟩
      cases hrun with
      | nil => exact absurd hends (by simp [EndsInput])
      | @cons _ mid _ _ _ t ts hnext hrest =>
        change EStateM.bind (next atLineStart pendingDedent) _ s = _
        unfold EStateM.bind
        rw [hnext]
        rcases hends.of_cons with ⟨hend, rfl⟩ | ⟨hend, hends⟩
        · cases hrest
          simp only [hend, if_true]
          rfl
        · have hless := (step_next hnext).remaining_lt hend
          have hmore := (ih (s := mid) (by omega)).mpr ⟨hrest, hends⟩
          simp only [hend, Bool.false_eq_true, if_false]
          change EStateM.bind (tokens bound _ _) _ mid = _
          unfold EStateM.bind
          rw [hmore]
          rfl

end Scanner

theorem remaining_ofText_le (text : String) (names : NameTable) :
    (Scanner.ofText text names).remaining ≤ text.length + 2 := by
  have hle := Scanner.remaining_le (.ofText text names)
  rwa [Scanner.ofText, Cursor.ofText, String.length_toList] at hle

/-- The tokens of a text are those of a run that ends with the end of input. -/
theorem tokenize_eq_ok_iff {text : String} {names names' : NameTable} :
    tokenize text names = (.ok ts, names') ↔
      ∃ s, Scanner.Run (.ofText text names) true false ts s ∧ Scanner.EndsInput ts ∧
        s.names = names' := by
  have hbound : (Scanner.ofText text names).remaining ≤ 2 * text.length + 3 :=
    Nat.le_trans (remaining_ofText_le text names) (by omega)
  constructor
  · intro h
    unfold tokenize at h
    split at h
    · rename_i tokens s htokens
      obtain ⟨hts, hnames⟩ := Prod.mk.inj h
      obtain ⟨hrun, hends⟩ := (Scanner.tokens_eq_ok_iff hbound).mp htokens
      rw [Except.ok.inj hts] at hrun hends
      exact ⟨s, hrun, hends, hnames⟩
    · cases h
  · rintro ⟨s, hrun, hends, rfl⟩
    rw [tokenize, (Scanner.tokens_eq_ok_iff hbound).mpr ⟨hrun, hends⟩]

/-- The tokens of a text lie in it, the identifiers among them are free for names, and they are
entered and nothing else is. -/
theorem yields_tokenize {text : String} {names names' : NameTable} {tokens : List Token}
    (h : tokenize text names = (.ok tokens, names')) :
    Yields (.ofText text) names text.toList tokens names' := by
  obtain ⟨s, hrun, -, rfl⟩ := tokenize_eq_ok_iff.mp h
  exact hrun.yields

end Offside
