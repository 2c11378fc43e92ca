import Offside.Proofs.Source.Place
import Offside.Token.Layout

/-!
# What stands between tokens

Blanks, newline sequences, comments and joined line ends separate tokens.  What is skipped in front
of a token, at the start of a line or within it, is made of these alone.
-/

namespace Offside

open List

/-- A text that may stand between tokens, in front of `rest`.  A comment reaches to the end of its
line. -/
inductive Separates (rest : List Char) : List Char → Prop
  | nil : Separates rest []
  | blank {d : Char} {text : List Char} (hd : isGap d = true) (h : Separates rest text) :
    Separates rest (d :: text)
  | newline {sequence text : List Char} (hsequence : IsNewlineSequence sequence)
    (h : Separates rest text) : Separates rest (sequence ++ text)
  | comment {comment text : List Char} (hcomment : ∀ d ∈ comment, isNewline d = false)
    (hend : ∀ d ∈ (text ++ rest).head?, isNewline d = true) (h : Separates rest text) :
    Separates rest ('#' :: comment ++ text)
  | joined {sequence text : List Char} (hsequence : IsNewlineSequence sequence)
    (h : Separates rest text) : Separates rest ('\\' :: sequence ++ text)

theorem Separates.blanks {rest text more : List Char} (htext : ∀ d ∈ text, isGap d)
    (h : Separates rest more) : Separates rest (text ++ more) := by
  induction text with
  | nil => exact h
  | cons d text ih =>
    obtain ⟨hd, htext⟩ := forall_mem_cons.mp htext
    exact .blank hd (ih htext)

theorem isNewline_of_isGap {d : Char} (h : isGap d) : isNewline d = false := by
  simp only [isGap, Bool.or_eq_true, beq_iff_eq] at h
  rcases h with (rfl | rfl) | rfl <;> decide

/-- A comment is passed up to the end of its line. -/
theorem passes_skipComment {c : Cursor} (h : c.peek = some '#') :
    ∃ comment, c.Passes ('#' :: comment) (skipComment c) ∧ (∀ d ∈ comment, isNewline d = false) ∧
      ∀ d ∈ (skipComment c).rest.head?, isNewline d := by
  have hpass : c.Passes (c.run (!isNewline ·)).1 (skipComment c) :=
    Cursor.passes_run (fun d hd => by simpa using hd) c
  obtain ⟨rest, hrest⟩ : ∃ rest, c.rest = '#' :: rest := by
    cases hc : c.rest with
    | nil => simp [Cursor.peek, hc] at h
    | cons e rest =>
      obtain rfl : e = '#' := by simpa [Cursor.peek, hc] using h
      exact ⟨rest, rfl⟩
  have htext : (c.run (!isNewline ·)).1 = '#' :: rest.takeWhile (!isNewline ·) := by
    have hhash : (!isNewline '#') := by decide
    rw [Cursor.run, hrest]
    exact takeWhile_cons_of_pos (p := (!isNewline ·)) hhash
  refine ⟨rest.takeWhile (!isNewline ·), htext ▸ hpass, fun d hd => ?_, fun d hd => ?_⟩
  · simpa using all_eq_true.mp all_takeWhile d hd
  · have hstop := head?_dropWhile_not (!isNewline ·) c.rest
    rw [skipComment, Cursor.run] at hd
    simp only [Option.mem_def] at hd
    rw [hd] at hstop
    simpa using hstop

/-- What is skipped within a line separates tokens. -/
theorem passes_skipGaps (joined : Bool) (c : Cursor) :
    ∃ text, c.Passes text (skipGaps joined c) ∧ Separates (skipGaps joined c).rest text := by
  fun_induction skipGaps joined c with
  | case1 c hpeek => exact ⟨[], .refl c, .nil⟩
  | case2 c d hpeek hgap ih =>
    obtain ⟨text, hpass, htext⟩ := ih
    have hstep := Cursor.passes_skip_of_not_newline hpeek (isNewline_of_isGap hgap)
    exact ⟨d :: text, hstep.trans hpass, .blank hgap htext⟩
  | case3 c hpeek hgap ih =>
    obtain ⟨text, hpass, htext⟩ := ih
    obtain ⟨comment, hcomment, hinner, hend⟩ := passes_skipComment hpeek
    refine ⟨'#' :: comment ++ text, hcomment.trans hpass, .comment hinner ?_ htext⟩
    rwa [← hpass.rest]
  | case4 c d hpeek hgap hcomment hjoined ih =>
    obtain ⟨text, hpass, htext⟩ := ih
    obtain ⟨rfl, hnewline⟩ := hjoined
    have hstep := Cursor.passes_skip_of_not_newline hpeek (by decide)
    obtain ⟨e, hsecond, he⟩ := (Option.any_eq_true isNewline _).mp hnewline
    have hnext : c.skip.peek = some e := by
      rw [Cursor.peekSecond, hstep.rest] at hsecond
      exact hsecond
    obtain ⟨sequence, hsequence, hline⟩ := Cursor.passes_skip_of_newline hnext he
    exact ⟨'\\' :: sequence ++ text, (hstep.trans hline).trans hpass, .joined hsequence htext⟩
  | case5 c d hpeek hgap hcomment hjoined hnewline ih =>
    obtain ⟨text, hpass, htext⟩ := ih
    obtain ⟨sequence, hsequence, hline⟩ := Cursor.passes_skip_of_newline hpeek hnewline.1
    exact ⟨sequence ++ text, hline.trans hpass, .newline hsequence htext⟩
  | case6 c d hpeek hgap hcomment hjoined hnewline => exact ⟨[], .refl c, .nil⟩

/-- What is skipped at the start of a line separates tokens, and it is at least as long as the
indentation that was measured. -/
theorem passes_measureIndentation (c : Cursor) :
    ∃ text, c.Passes text (measureIndentation c).2 ∧ Separates (measureIndentation c).2.rest text ∧
      ∀ level, (measureIndentation c).1 = .ok level → indentUnit * level ≤ text.length := by
  have hblanks (c : Cursor) : ∀ d ∈ (c.run (· == ' ')).1, isGap d := fun d hd => by
    have hspace := all_eq_true.mp all_takeWhile d hd
    simp [isGap, hspace]
  have hrun (c : Cursor) : c.Passes (c.run (· == ' ')).1 (c.run (· == ' ')).2 :=
    Cursor.passes_run (fun d hd => by rw [beq_iff_eq.mp hd]; decide) c
  -- the spaces of the last line are followed by nothing that is skipped
  have hstop (c : Cursor) {outcome : Except LexicalError Nat}
      (hlevel : ∀ level, outcome = .ok level → indentUnit * level ≤ (c.run (· == ' ')).1.length) :
      ∃ text, c.Passes text (outcome, (c.run (· == ' ')).2).2 ∧
        Separates (outcome, (c.run (· == ' ')).2).2.rest text ∧
        ∀ level, (outcome, (c.run (· == ' ')).2).1 = .ok level → indentUnit * level ≤ text.length :=
    ⟨(c.run (· == ' ')).1, hrun c, by simpa using Separates.blanks (hblanks c) .nil, hlevel⟩
  fun_induction measureIndentation c with
  | case1 c next hpeek =>
    refine hstop c fun level hlevel => ?_
    rw [← Except.ok.inj hlevel]
    exact Nat.zero_le _
  | case2 c next hpeek => exact hstop c nofun
  | case3 c next hpeek htab ih =>
    obtain ⟨text, hpass, htext, hlevel⟩ := ih
    obtain ⟨comment, hcomment, hinner, hend⟩ := passes_skipComment hpeek
    refine ⟨(c.run (· == ' ')).1 ++ ('#' :: comment ++ text), (hrun c).trans (hcomment.trans hpass),
      .blanks (hblanks c) (.comment hinner (by rwa [← hpass.rest]) htext), fun level h => ?_⟩
    have := hlevel level h
    simp only [length_append]
    omega
  | case4 c next d hpeek htab hcomment hnewline ih =>
    obtain ⟨text, hpass, htext, hlevel⟩ := ih
    obtain ⟨sequence, hsequence, hline⟩ := Cursor.passes_skip_of_newline hpeek hnewline
    refine ⟨(c.run (· == ' ')).1 ++ (sequence ++ text), (hrun c).trans (hline.trans hpass),
      .blanks (hblanks c) (.newline hsequence htext), fun level h => ?_⟩
    have := hlevel level h
    simp only [length_append]
    omega
  | case5 c width next d hpeek htab hcomment hnewline hunit =>
    refine hstop c fun level hlevel => ?_
    rw [← Except.ok.inj hlevel]
    exact Nat.mul_div_le width indentUnit
  | case6 c width next d hpeek htab hcomment hnewline hunit => exact hstop c nofun

end Offside
