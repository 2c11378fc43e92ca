import Offside.Proofs.Token.Runs

/-!
# Blocks are closed

A block is opened by one mark and closed by one mark, whichever way it is closed: at the start of a
less deep line, while a line owes further closings, or at the end of the text.  So behind every
token the number of blocks that are open is the number of openings without a closing, and at the end
of the input all blocks are closed.
-/

namespace Offside

open List

/-- The number of blocks that are opened in a list of tokens. -/
def openings (ts : List Token) : Nat := ts.countP (·.kind.isIndent)

/-- The number of blocks that are closed in a list of tokens. -/
def closings (ts : List Token) : Nat := ts.countP (·.kind.isDedent)

namespace Scanner

/-- One step opens a block, closes one or keeps the open blocks, and its token says which. -/
theorem Step.depth {s s' : Scanner} {t : Token} (h : Step s t s') :
    openings [t] + s.indentation.depth = closings [t] + s'.indentation.depth := by
  have hkeeps {kind : Kind} (hkind : kind.isLexeme) (span : Span) :
      openings [⟨kind, span⟩] = 0 ∧ closings [⟨kind, span⟩] = 0 := by
    cases kind with
    | indent | dedent => cases hkind
    | _ => exact ⟨rfl, rfl⟩
  cases h with
  | indent hpass hgap hlong level =>
    change 1 + s.indentation.opened.length = 0 + (s.indentation.opened.length + 1)
    omega
  | dedent hpass hgap hopened measured =>
    have hpos := length_pos_iff.mpr hopened
    change 0 + s.indentation.opened.length = 1 + s.indentation.opened.tail.length
    rw [length_tail]
    omega
  | @lexeme gap mid hpass hgap measured kind s' hreads =>
    obtain ⟨hopen, hclose⟩ := hkeeps hreads.lexeme ⟨mid.location, s'.cursor.location⟩
    rw [hopen, hclose, hreads.layout.indentation]
    rfl
  | newline hpass hgap hsequence hnext measured => rfl
  | lastNewline hpass hgap hend hline measured => rfl
  | endOfInput hpass hgap hend hclosed measured => rfl

theorem Step.embedded_eq {s s' : Scanner} {t : Token} (h : Step s t s') :
    s'.embedded = s.embedded := by
  cases h with
  | lexeme hpass hgap hreads => exact hreads.layout.embedded
  | _ => rfl

variable {s s' : Scanner} {atLineStart pendingDedent : Bool} {ts : List Token}

/-- Behind every token of a run, the blocks that were opened and not closed are open. -/
theorem Run.depth (h : Run s atLineStart pendingDedent ts s') :
    openings ts + s.indentation.depth = closings ts + s'.indentation.depth := by
  induction h with
  | nil => rfl
  | @cons s mid s' _ _ t ts hnext _ ih =>
    have hstep := (step_next hnext).depth
    have hopen : openings ([t] ++ ts) = openings [t] + openings ts := countP_append
    have hclose : closings ([t] ++ ts) = closings [t] + closings ts := countP_append
    change openings ([t] ++ ts) + s.indentation.depth = closings ([t] ++ ts) + s'.indentation.depth
    omega

/-- A run goes through the states behind all its beginnings. -/
theorem Run.of_append {before after : List Token}
    (h : Run s atLineStart pendingDedent (before ++ after) s') :
    ∃ mid, Run s atLineStart pendingDedent before mid := by
  induction before generalizing s atLineStart pendingDedent with
  | nil => exact ⟨s, .nil _ _ _⟩
  | cons t before ih =>
    cases h with
    | cons hnext hrest =>
      obtain ⟨mid, hmid⟩ := ih hrest
      exact ⟨mid, .cons hnext hmid⟩

/-- At the end of a run up to the end of the input no block is open. -/
theorem Run.depth_eq_zero (h : Run s atLineStart pendingDedent ts s') (hends : EndsInput ts)
    (hembedded : s.embedded = false) : s'.indentation.depth = 0 := by
  induction h with
  | nil => exact absurd hends (by simp [EndsInput])
  | cons hnext hrest ih =>
    have hstep := step_next hnext
    rcases hends.of_cons with ⟨hend, rfl⟩ | ⟨-, hends⟩
    · cases hrest
      rcases (hstep.of_isEnd hend).2 with htrue | hclosed
      · exact absurd (htrue.symm.trans hembedded) Bool.noConfusion
      · exact congrArg length hclosed
    · exact ih hends (hstep.embedded_eq.trans hembedded)

end Scanner

/-- The end of input is the last of the tokens of a text and no other.  All blocks are closed in the
end, no more are closed than were opened before, and behind each token the difference is the number
of blocks that are open. -/
theorem tokenize_balanced {text : String} {names names' : NameTable} {tokens : List Token}
    (h : tokenize text names = (.ok tokens, names')) :
    (∃ init last, tokens = init ++ [last] ∧ last.kind.isEnd = true ∧
      ∀ t ∈ init, t.kind.isEnd = false) ∧
    openings tokens = closings tokens ∧
    ∀ before, before <+: tokens →
      closings before ≤ openings before ∧
      (∃ s, Scanner.Run (.ofText text names) true false before s) ∧
      ∀ s, Scanner.Run (.ofText text names) true false before s →
        openings before - closings before = s.indentation.depth := by
  obtain ⟨last, hrun, hends, -⟩ := tokenize_eq_ok_iff.mp h
  have hdepth {ts : List Token} {s : Scanner}
    (hrun : Scanner.Run (.ofText text names) true false ts s) :
      openings ts = closings ts + s.indentation.depth := hrun.depth
  refine ⟨hends, ?_, ?_⟩
  · rw [hdepth hrun, hrun.depth_eq_zero hends rfl, Nat.add_zero]
  · rintro before ⟨after, rfl⟩
    obtain ⟨mid, hmid⟩ := hrun.of_append
    refine ⟨hdepth hmid ▸ Nat.le_add_right _ _, ⟨mid, hmid⟩, fun s hs => ?_⟩
    rw [hdepth hs, Nat.add_sub_cancel_left]

/-- Two blocks end in one line, behind a comment, and the last line is not ended. -/
theorem tokenize_balanced_nested :
    ∃ tokens names, tokenize "if a:\n    if b:\n            c\n# d\ne" {} = (.ok tokens, names) ∧
      openings tokens = 2 ∧ closings tokens = 2 := by
  have hopened : (tokenize "if a:\n    if b:\n            c\n# d\ne" {}).1.toOption.map
      openings = some 2 := by
    decide +kernel
  cases h : tokenize "if a:\n    if b:\n            c\n# d\ne" {} with
  | mk result names =>
    rw [h] at hopened
    obtain ⟨tokens, htokens, hopen⟩ := Option.map_eq_some_iff.mp hopened
    obtain rfl : result = .ok tokens := eq_ok_of_toOption htokens
    exact ⟨tokens, names, rfl, hopen, (tokenize_balanced h).2.1 ▸ hopen⟩

end Offside
