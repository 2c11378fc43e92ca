import Offside.Proofs.Token.ScannerVariation

/-!
# Scanning ends

The tokens of a text are read up to a bound on their number, and formatted strings are scanned up to
a bound on their depth.  No bound decides a result: all bounds that are large enough give the same
one (`Scanner.tokens_eq_of_le`, `Scanner.outcome_nextWithin`), and the tokens of an embedded
expression are read up to its end (`Scanner.endsInput_of_embeddedScanner`).  So the unbounded loops
end.
-/

namespace Offside

open List

namespace Scanner

variable {s s' : Scanner} {t : Token} {ts : List Token}

/-! ## Bounds on the number of tokens -/

/-- Two bounds that cover what remains give the same tokens, or the same failure. -/
theorem tokens_eq_of_le {bound bound' : Nat} (atLineStart pendingDedent : Bool)
    (hbound : s.remaining ≤ bound) (hbound' : s.remaining ≤ bound') :
    tokens bound atLineStart pendingDedent s = tokens bound' atLineStart pendingDedent s := by
  induction bound generalizing bound' atLineStart pendingDedent s with
  | zero => exact absurd (remaining_pos s) (by omega)
  | succ bound ih =>
    cases bound' with
    | zero => exact absurd (remaining_pos s) (by omega)
    | succ bound' =>
      change EStateM.bind (next atLineStart pendingDedent) _ s =
        EStateM.bind (next atLineStart pendingDedent) _ s
      unfold EStateM.bind
      cases hnext : next atLineStart pendingDedent s with
      | error e s' => rfl
      | ok t mid =>
        cases hend : t.kind.isEnd with
        | true => simp only [hend, if_true]
        | false =>
          have hless := (step_next hnext).remaining_lt hend
          simp only [hend, Bool.false_eq_true, if_false]
          change EStateM.bind (tokens bound _ _) _ mid = EStateM.bind (tokens bound' _ _) _ mid
          unfold EStateM.bind
          rw [ih _ _ (Nat.le_of_lt_succ (Nat.lt_of_lt_of_le hless hbound))
            (Nat.le_of_lt_succ (Nat.lt_of_lt_of_le hless hbound'))]

/-! ## Bounds on the depth -/

/-- What is seen of a step: what it yields and the state behind it, or why it fails and which names
it has entered. -/
def outcome {α : Type} :
    EStateM.Result LexicalError Scanner α → Except LexicalError (α × Scanner) × NameTable
  | .ok a s => (.ok (a, s), s.names)
  | .error e s => (.error e, s.names)

/-- A step has the same outcome at every depth that is as large as the text is long. -/
theorem outcome_nextWithin (atLineStart pendingDedent : Bool) {depth : Nat}
    (hdepth : s.cursor.rest.length ≤ depth) :
    outcome (nextWithin depth atLineStart pendingDedent s) =
      outcome (next atLineStart pendingDedent s) := by
  have hsame : s.cursor.Alike Variation.same.collation s.cursor := ⟨.refl (fun _ => rfl) _, rfl⟩
  have hstep := alike_nextWithin atLineStart pendingDedent hsame hdepth (Nat.le_refl _)
  change StepAlike _ _ (nextWithin depth atLineStart pendingDedent s)
    (next atLineStart pendingDedent s) at hstep
  generalize nextWithin depth atLineStart pendingDedent s = result at hstep ⊢
  generalize next atLineStart pendingDedent s = result' at hstep ⊢
  rcases hstep with ⟨ht, hlast⟩ | ⟨he, hnames⟩
  · rename_i t t' last last'
    rcases hlast with @⟨⟨rest', location'⟩, hcursor⟩
    have hkind : t = t' := (Token.relocate_id t).symm.trans (ht.trans (Token.relocate_id t'))
    obtain rfl : rest' = last.cursor.rest := hcursor.rest.eq_of_eq
    obtain rfl : last.cursor.location = location' := hcursor.location
    rw [hkind]
    rfl
  · rename_i e e' last last'
    have hcause : e = e' := by
      have hread : ReadError.relocate id (.lexical e) = .relocate id (.lexical e') :=
        congrArg ReadError.lexical he
      rw [ReadError.relocate_id, ReadError.relocate_id] at hread
      exact ReadError.lexical.inj hread
    obtain hnames : last'.names = last.names := hnames
    rw [outcome, outcome, hcause, hnames]

/-! ## Embedded expressions -/

/-- A step within an embedded expression takes a character, except at the end. -/
theorem length_lt_of_scan {depth : Nat} (hembedded : s.embedded) (h : scan depth s = .ok t s')
    (ht : t.kind.isEnd = false) : s'.embedded ∧ s'.cursor.rest.length < s.cursor.rest.length := by
  obtain ⟨nested, hnested, hscan⟩ := exists_scanWith depth
  obtain ⟨gap, hgap, -⟩ := passes_skipGaps s.joined s.cursor
  have hskipped := hgap.length_le
  rw [hscan, scanWith_eq] at h
  split at h
  · rw [finish, if_pos hembedded] at h
    cases h
    cases ht
  · rename_i d hpeek
    split at h
    · rename_i hnewline
      obtain ⟨sequence, hsequence, hnext⟩ := Cursor.passes_skip_of_newline hpeek hnewline
      have hlength := hnext.length_le
      have hpos : 0 < sequence.length := by rcases hsequence with rfl | rfl | rfl <;> decide
      cases h
      exact ⟨hembedded, by dsimp only; omega⟩
    · split at h
      · rename_i kind last hkind
        cases h
        have hreads := reads_scanKind hnested hpeek hkind
        obtain ⟨text, hne, htext, -, -⟩ := hreads.passes
        have hlength := htext.length_le
        have hpos := length_pos_iff.mpr hne
        exact ⟨hreads.layout.embedded.trans hembedded, by dsimp only at hlength ⊢; omega⟩
      · cases h

theorem endsInput_of_scanToEnd {depth bound : Nat} (hembedded : s.embedded)
    (hbound : s.cursor.rest.length < bound) (h : scanToEnd (scan depth) bound s = .ok ts s') :
    EndsInput ts := by
  induction bound generalizing s ts with
  | zero => exact absurd hbound (Nat.not_lt_zero _)
  | succ bound ih =>
    obtain ⟨t, mid, hscan, h⟩ := exists_of_step_bind h
    split at h
    · rename_i hend
      cases h
      exact endsInput_singleton hend
    · rename_i hend
      rw [Bool.not_eq_true] at hend
      obtain ⟨more, last, hmore, h⟩ := exists_of_step_bind h
      cases h
      obtain ⟨hmid, hless⟩ := length_lt_of_scan hembedded hscan hend
      exact endsInput_cons hend (ih hmid (by omega) hmore)

/-- The tokens of an embedded expression are read up to its end. -/
theorem endsInput_of_embeddedScanner {depth : Nat} {inside : Cursor} {names names' : NameTable}
    (h : embeddedScanner (depth + 1) inside names = (.ok ts, names')) : EndsInput ts := by
  unfold embeddedScanner at h
  dsimp only at h
  split at h
  · rename_i hscan
    cases h
    exact endsInput_of_scanToEnd (by rfl) (Nat.lt_succ_self _) hscan
  · cases h

/-- A run yields no more tokens than remain. -/
theorem Run.length_le {atLineStart pendingDedent : Bool} (h : Run s atLineStart pendingDedent ts s')
    (hts : EndsInput ts) : ts.length ≤ s.remaining := by
  induction h with
  | nil => exact Nat.zero_le _
  | @cons s mid _ _ _ t ts hnext _ ih =>
    rcases hts.of_cons with ⟨-, rfl⟩ | ⟨hend, hts⟩
    · exact remaining_pos s
    · have hless := (step_next hnext).remaining_lt hend
      have hle := ih hts
      rw [length_cons]
      omega

end Scanner

/-- No bound on the number of tokens or on the depth of formatted strings decides how a text is
read, the tokens of embedded expressions are read up to their ends, and so are those of the text.
These are at most two more than the text has bytes. -/
theorem tokenize_ends (text : String) (names : NameTable) :
    (∀ bound, text.length + 2 ≤ bound → Scanner.tokens bound true false (.ofText text names) =
      Scanner.tokens (2 * text.length + 3) true false (.ofText text names)) ∧
    (∀ (s : Scanner) (atLineStart pendingDedent : Bool) (depth : Nat),
      s.cursor.rest.length ≤ depth →
      Scanner.outcome (Scanner.nextWithin depth atLineStart pendingDedent s) =
        Scanner.outcome (Scanner.next atLineStart pendingDedent s)) ∧
    (∀ depth inside earlier ts later, Scanner.embeddedScanner (depth + 1) inside earlier =
      (.ok ts, later) →
      Scanner.EndsInput ts) ∧
    ∀ ts later, tokenize text names = (.ok ts, later) →
      Scanner.EndsInput ts ∧ ts.length ≤ byteLength text.toList + 2 := by
  have hremaining := remaining_ofText_le text names
  refine ⟨fun bound hbound => ?_, fun _ atLineStart pendingDedent _ => ?_, fun _ _ _ _ _ =>
    ?_, fun ts later h => ?_⟩
  · exact Scanner.tokens_eq_of_le true false (Nat.le_trans hremaining hbound) (by omega)
  · exact Scanner.outcome_nextWithin atLineStart pendingDedent
  · exact Scanner.endsInput_of_embeddedScanner
  · obtain ⟨s, hrun, hends, -⟩ := tokenize_eq_ok_iff.mp h
    have hlength := hrun.length_le hends
    have hbytes := length_le_byteLength text.toList
    rw [String.length_toList] at hbytes
    exact ⟨hends, by omega⟩

end Offside
