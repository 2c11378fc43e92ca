import Offside.Proofs.Source.Variation
import Offside.Token.Number

/-!
# Number literals

What is read where a run of digits stands is said by rules (`NumberOutcome`): there is one for
integers, one for floats and one for each way in which a number is refused.  A rule for a later part
asks that the parts before it are in order.  Every text has a rule, and what the rule says is read
(`scanNumber_eq_iff`).
-/

namespace Offside

open List

/-- A run of digits. -/
def IsDigitRun (digits : List Char) : Prop := digits ≠ [] ∧ ∀ d ∈ digits, d.isDigit = true

/-- The text does not start with a character of the given class. -/
abbrev NoneAhead (p : Char → Bool) (text : List Char) : Prop := text[0]?.any p = false

/-- Several digits, the first of which is a zero. -/
abbrev HasLeadingZero (digits : List Char) : Prop := 1 < digits.length ∧ digits.head? = some '0'

/-- A text starts with a fraction or not: the digits of the fraction, and the text behind it. -/
inductive FractionAt : List Char → Option (List Char) → List Char → Prop
  | absent {rest : List Char} (hrest : NoneAhead (· == '.') rest) : FractionAt rest none rest
  | digits {run rest : List Char} (hrun : IsDigitRun run) (hrest : NoneAhead Char.isDigit rest) :
    FractionAt ('.' :: (run ++ rest)) (some run) rest

/-- Whether an exponent is written behind the letter. -/
def isExponentMark (d : Char) : Bool := d == 'e' || d == 'E'

/-- The signs that may stand in an exponent; it may have none. -/
def exponentSigns : List (List Char) := [[], ['+'], ['-']]

/-- A text starts with an exponent or not: the value of the exponent, and the text behind it. -/
inductive ExponentAt : List Char → Option Int → List Char → Prop
  | absent {rest : List Char} (hrest : NoneAhead isExponentMark rest) : ExponentAt rest none rest
  | digits {mark : Char} {sign run rest : List Char} (hmark : isExponentMark mark = true)
    (hsign : sign ∈ exponentSigns) (hrun : IsDigitRun run) (hrest : NoneAhead Char.isDigit rest) :
    ExponentAt (mark :: (sign ++ (run ++ rest)))
      (some (if sign = ['-'] then -(digitsValue run : Int) else digitsValue run)) rest

/-- What is read at a run of digits, by the text behind it. -/
inductive NumberOutcome (digits : List Char) : List Char → Except LexicalCause Kind → Prop
  | leadingZero {text : List Char} (hzero : HasLeadingZero digits) :
    NumberOutcome digits text (.error .leadingZero)
  | missingFractionDigits {rest : List Char} (hzero : ¬HasLeadingZero digits)
    (hrest : NoneAhead Char.isDigit rest) :
    NumberOutcome digits ('.' :: rest) (.error .missingFractionDigits)
  | missingExponentDigits {text rest : List Char} {fraction : Option (List Char)} {mark : Char}
    (hzero : ¬HasLeadingZero digits) (hfraction : FractionAt text fraction (mark :: rest))
    (hmark : isExponentMark mark = true)
    (hrest : ∀ sign ∈ exponentSigns, ∀ more, rest = sign ++ more → NoneAhead Char.isDigit more) :
    NumberOutcome digits text (.error .missingExponentDigits)
  | invalidSuffix {text text' rest : List Char} {fraction : Option (List Char)}
    {exponent : Option Int} {d : Char}
    (hzero : ¬HasLeadingZero digits) (hfraction : FractionAt text fraction text')
    (hexponent : ExponentAt text' exponent (d :: rest)) (hd : Text.isWordPart d = true) :
    NumberOutcome digits text (.error (.invalidNumberSuffix d))
  | outOfRange {rest : List Char} (hzero : ¬HasLeadingZero digits)
    (hpoint : NoneAhead (· == '.') rest)
    (hrest : NoneAhead Text.isWordPart rest) (hbound : Nat.pow 2 63 ≤ digitsValue digits) :
    NumberOutcome digits rest (.error (.integerOutOfRange (String.ofList digits)))
  | integer {rest : List Char} (hzero : ¬HasLeadingZero digits) (hpoint : NoneAhead (· == '.') rest)
    (hrest : NoneAhead Text.isWordPart rest) (hbound : digitsValue digits < Nat.pow 2 63) :
    NumberOutcome digits rest (.ok (.integer (digitsValue digits)))
  | float {text text' rest : List Char} {fraction : Option (List Char)} {exponent : Option Int}
    (hzero : ¬HasLeadingZero digits) (hfraction : FractionAt text fraction text')
    (hexponent : ExponentAt text' exponent rest) (hsome : fraction ≠ none ∨ exponent ≠ none)
    (hrest : NoneAhead Text.isWordPart rest) :
    NumberOutcome digits text (.ok (.float
      (.ofDecimal (digitsValue (digits ++ fraction.getD []))
        (exponent.getD 0 - (fraction.getD []).length))))

/-! ## Parts of a number -/

section Parts

variable {text rest : List Char} {l : Location} {mark : Char}

/-- A run ends where the property ends. -/
theorem Cursor.run_eq {c : Cursor} {p : Char → Bool} (hc : c.rest = text ++ rest)
    (htext : ∀ d ∈ text, p d) (hrest : NoneAhead p rest) :
    c.run p = (text, ⟨rest, c.location.along text⟩) := by
  have hend : rest.takeWhile p = [] ∧ rest.dropWhile p = rest := by
    cases rest with
    | nil => exact ⟨rfl, rfl⟩
    | cons d rest =>
      have hd : ¬p d := Bool.eq_false_iff.mp hrest
      exact ⟨takeWhile_cons_of_neg hd, dropWhile_cons_of_neg hd⟩
  rw [run, hc, takeWhile_append_of_pos htext, dropWhile_append_of_pos htext, hend.1,
    hend.2, append_nil]

theorem IsDigitRun.any_append (h : IsDigitRun text) (rest : List Char) :
    (text ++ rest)[0]?.any Char.isDigit := by
  obtain ⟨hne, hall⟩ := h
  cases text with
  | nil => exact absurd rfl hne
  | cons d text => exact hall d mem_cons_self

theorem exists_cons_of_any {p : Char → Bool} (h : text[0]?.any p) :
    ∃ d rest, text = d :: rest ∧ p d := by
  cases text with
  | nil => cases h
  | cons d rest => exact ⟨d, rest, rfl, h⟩

/-- Where a digit stands, a run of digits stands that no further digit follows. -/
theorem exists_digitRun (h : ¬NoneAhead Char.isDigit text) :
    ∃ run rest, text = run ++ rest ∧ IsDigitRun run ∧ NoneAhead Char.isDigit rest := by
  refine ⟨text.takeWhile Char.isDigit, text.dropWhile Char.isDigit, takeWhile_append_dropWhile.symm,
    ⟨?_, all_eq_true.mp all_takeWhile⟩, ?_⟩
  · obtain ⟨d, rest, rfl, hd⟩ := exists_cons_of_any (eq_true_of_ne_false h)
    rw [takeWhile_cons_of_pos hd]
    exact cons_ne_nil d _
  · have hhead := head?_dropWhile_not Char.isDigit text
    rw [head?_eq_getElem?] at hhead
    rw [NoneAhead]
    cases hrest : (text.dropWhile Char.isDigit)[0]? with
    | none => rfl
    | some d => simpa [hrest] using hhead

theorem FractionAt.scanFraction_eq {fraction : Option (List Char)}
    (h : FractionAt text fraction rest) :
    ∃ l', scanFraction ⟨text, l⟩ = (.ok fraction, ⟨rest, l'⟩) := by
  cases h with
  | absent hrest =>
    have hpeek : ¬(⟨text, l⟩ : Cursor).peek = some '.' := fun hpeek =>
      absurd hrest (by rw [NoneAhead, show text[0]? = some '.' from hpeek]; decide)
    exact ⟨l, if_neg hpeek⟩
  | @digits run _ hrun hrest =>
    have hsecond := hrun.any_append rest
    refine ⟨(l.along ['.']).along run, (if_pos rfl).trans ((if_pos hsecond).trans ?_)⟩
    rw [Cursor.skip_char (by decide), Cursor.run_eq rfl hrun.2 hrest]

theorem scanFraction_missing (hrest : NoneAhead Char.isDigit rest) :
    scanFraction ⟨'.' :: rest, l⟩ = (.error ⟨.missingFractionDigits, l⟩, ⟨'.' :: rest, l⟩) :=
  (if_pos rfl).trans (if_neg (Bool.eq_false_iff.mp hrest))

theorem exists_fractionAt (text : List Char) : (∃ fraction rest, FractionAt text fraction rest) ∨
    ∃ rest, text = '.' :: rest ∧ NoneAhead Char.isDigit rest := by
  by_cases hpoint : NoneAhead (· == '.') text
  · exact .inl ⟨none, text, .absent hpoint⟩
  · obtain ⟨d, rest, rfl, hd⟩ := exists_cons_of_any (eq_true_of_ne_false hpoint)
    obtain rfl := beq_iff_eq.mp hd
    by_cases hrest : NoneAhead Char.isDigit rest
    · exact .inr ⟨rest, rfl, hrest⟩
    · obtain ⟨run, rest, rfl, hrun, hend⟩ := exists_digitRun hrest
      exact .inl ⟨some run, rest, .digits hrun hend⟩

theorem eq_or_eq_of_isExponentMark (h : isExponentMark mark) : mark = 'e' ∨ mark = 'E' := by
  simpa [isExponentMark] using h

theorem ExponentAt.scanExponent_eq {exponent : Option Int} (h : ExponentAt text exponent rest) :
    ∃ l', scanExponent ⟨text, l⟩ = (.ok exponent, ⟨rest, l'⟩) := by
  cases h with
  | absent hrest =>
    have hpeek (d : Char) (hd : isExponentMark d) : ¬(⟨text, l⟩ : Cursor).peek = some d :=
      fun hpeek =>
      absurd hrest
        (by rw [NoneAhead, show text[0]? = some d from hpeek, Option.any_some, hd]; decide)
    exact ⟨l, if_neg (not_or.mpr ⟨hpeek 'e' rfl, hpeek 'E' rfl⟩)⟩
  | @digits mark sign run _ hmark hsign hrun hrest =>
    have hpeek := (eq_or_eq_of_isExponentMark hmark).imp (congrArg some) (congrArg some)
    have hnewline : isNewline mark = false := by
      rcases eq_or_eq_of_isExponentMark hmark with rfl | rfl <;> rfl
    have hfirst := hrun.any_append rest
    have hsigns : sign = [] ∨ ∃ d, sign = [d] ∧ isSign d ∧ d.isDigit = false ∧
        isNewline d = false := by
      simp only [exponentSigns, mem_cons, not_mem_nil, or_false] at hsign
      rcases hsign with rfl | rfl | rfl
      · exact .inl rfl
      · exact .inr ⟨'+', by decide⟩
      · exact .inr ⟨'-', by decide⟩
    rcases hsigns with rfl | ⟨d, rfl, hd, hdigit, hline⟩
    · refine ⟨(l.along [mark]).along run, (if_pos hpeek).trans ((if_pos hfirst).trans ?_)⟩
      rw [nil_append, Cursor.skip_char hnewline, Cursor.run_eq rfl hrun.2 hrest]
      rfl
    · refine ⟨((l.along [mark]).along [d]).along run, (if_pos hpeek).trans ((if_neg ?_).trans
        ((if_pos ⟨hd, hfirst⟩).trans ?_))⟩
      · exact Bool.eq_false_iff.mp hdigit
      · rw [Cursor.skipMany, Cursor.skip_char hnewline, Cursor.skipMany, singleton_append,
          Cursor.skip_char hline, Cursor.skipMany, Cursor.run_eq rfl hrun.2 hrest]
        simp [Cursor.peekSecond]

theorem exists_exponentAt (text : List Char) : (∃ exponent rest, ExponentAt text exponent rest) ∨
    ∃ mark rest, text = mark :: rest ∧ isExponentMark mark ∧
      ∀ sign ∈ exponentSigns, ∀ more, rest = sign ++ more → NoneAhead Char.isDigit more := by
  by_cases habsent : NoneAhead isExponentMark text
  · exact .inl ⟨none, text, .absent habsent⟩
  · obtain ⟨mark, rest, rfl, hmark⟩ := exists_cons_of_any (eq_true_of_ne_false habsent)
    by_cases hmissing : ∀ sign ∈ exponentSigns, ∀ more, rest = sign ++ more →
      NoneAhead Char.isDigit more
    · exact .inr ⟨mark, rest, rfl, hmark, hmissing⟩
    · simp only [Classical.not_forall] at hmissing
      obtain ⟨sign, hsign, more, rfl, hmore⟩ := hmissing
      obtain ⟨run, rest, rfl, hrun, hend⟩ := exists_digitRun hmore
      exact .inl ⟨_, rest, .digits hmark hsign hrun hend⟩

theorem scanExponent_missing (hmark : isExponentMark mark)
    (hrest : ∀ sign ∈ exponentSigns, ∀ more, rest = sign ++ more → NoneAhead Char.isDigit more) :
    scanExponent ⟨mark :: rest, l⟩ = (.error ⟨.missingExponentDigits, l⟩, ⟨mark :: rest, l⟩) := by
  have hpeek := (eq_or_eq_of_isExponentMark hmark).imp (congrArg some) (congrArg some)
  have hfirst : ¬rest[0]?.any Char.isDigit := Bool.eq_false_iff.mp (hrest [] (by decide) rest rfl)
  have hsigned : ¬(rest[0]?.any isSign ∧ rest[1]?.any Char.isDigit) := by
    rintro ⟨hsign, hdigit⟩
    obtain ⟨d, more, rfl, hd⟩ := exists_cons_of_any hsign
    have hmem : [d] ∈ exponentSigns := by simpa [isSign, exponentSigns] using hd
    exact absurd hdigit (Bool.eq_false_iff.mp (hrest [d] hmem more rfl))
  exact (if_pos hpeek).trans ((if_neg hfirst).trans (if_neg hsigned))

end Parts

/-! ## Numbers -/

section Numbers

variable {c : Cursor} {digits text text' rest : List Char} {fraction : Option (List Char)}
  {exponent : Option Int}

theorem NoneAhead.filter_eq_none {p : Char → Bool} (h : NoneAhead p text) :
    text[0]?.filter p = none := by
  cases text with
  | nil => rfl
  | cons d text => exact if_neg (Bool.eq_false_iff.mp h)

/-- A word would go on with the letter of an exponent. -/
theorem NoneAhead.exponentAt (h : NoneAhead Text.isWordPart text) : ExponentAt text none text := by
  refine .absent (Bool.eq_false_iff.mpr fun hmark => ?_)
  obtain ⟨d, rest, rfl, hd⟩ := exists_cons_of_any hmark
  have hpart : Text.isWordPart d := by
    rcases eq_or_eq_of_isExponentMark hd with rfl | rfl <;> decide
  exact absurd hpart (Bool.eq_false_iff.mp h)

variable (hc : c.rest = digits ++ text) (hdigits : IsDigitRun digits)
  (hmax : NoneAhead Char.isDigit text)

include hc hdigits hmax

/-- A number whose parts are in order is not refused for one of them. -/
theorem scanNumber_of_parts (hzero : ¬HasLeadingZero digits)
    (hfraction : FractionAt text fraction text') (hexponent : ExponentAt text' exponent rest) :
    ∃ l, scanNumber c =
      ((rest[0]?.filter Text.isWordPart).elim (numberKind c.location digits fraction exponent)
      fun d => .error ⟨.invalidNumberSuffix d, l⟩, ⟨rest, l⟩) := by
  obtain ⟨l', hfirst⟩ := hfraction.scanFraction_eq (l := c.location.along digits)
  obtain ⟨l, hsecond⟩ := hexponent.scanExponent_eq (l := l')
  refine ⟨l, ?_⟩
  rw [scanNumber, Cursor.run_eq hc hdigits.2 hmax]
  dsimp only
  rw [if_neg hzero, hfirst]
  dsimp only
  rw [hsecond]
  dsimp only
  rw [Cursor.peek]
  cases rest[0]?.filter Text.isWordPart <;> rfl

/-- The outcome of a number is what the scanner gives. -/
theorem NumberOutcome.scanNumber_eq {outcome : Except LexicalCause Kind}
    (h : NumberOutcome digits text outcome) :
    (scanNumber c).1.mapError LexicalError.cause = outcome := by
  have hrun := Cursor.run_eq hc hdigits.2 hmax
  cases h with
  | leadingZero hzero =>
    rw [scanNumber, hrun]
    dsimp only
    rw [if_pos hzero]
    rfl
  | @missingFractionDigits rest hzero hrest =>
    rw [scanNumber, hrun]
    dsimp only
    rw [if_neg hzero, scanFraction_missing hrest]
    rfl
  | missingExponentDigits hzero hfraction hmark hrest =>
    obtain ⟨l, hfirst⟩ := hfraction.scanFraction_eq (l := c.location.along digits)
    rw [scanNumber, hrun]
    dsimp only
    rw [if_neg hzero, hfirst]
    dsimp only
    rw [scanExponent_missing hmark hrest]
    rfl
  | invalidSuffix hzero hfraction hexponent hd =>
    obtain ⟨l, hscan⟩ := scanNumber_of_parts hc hdigits hmax hzero hfraction hexponent
    rw [hscan, getElem?_cons_zero, Option.filter_some, if_pos hd]
    rfl
  | outOfRange hzero hpoint hrest hbound =>
    obtain ⟨l, hscan⟩ := scanNumber_of_parts hc hdigits hmax hzero (.absent hpoint) hrest.exponentAt
    rw [hscan, hrest.filter_eq_none]
    exact congrArg (Except.mapError LexicalError.cause) (if_neg (Nat.not_lt.mpr hbound))
  | integer hzero hpoint hrest hbound =>
    obtain ⟨l, hscan⟩ := scanNumber_of_parts hc hdigits hmax hzero (.absent hpoint) hrest.exponentAt
    rw [hscan, hrest.filter_eq_none]
    exact congrArg (Except.mapError LexicalError.cause) (if_pos hbound)
  | float hzero hfraction hexponent hsome hrest =>
    obtain ⟨l, hscan⟩ := scanNumber_of_parts hc hdigits hmax hzero hfraction hexponent
    rw [hscan, hrest.filter_eq_none]
    refine congrArg (Except.mapError LexicalError.cause) (if_neg ?_)
    simpa [Decidable.imp_iff_not_or] using hsome

omit hc hdigits hmax in
/-- Every text has a rule. -/
theorem exists_numberOutcome (digits text : List Char) :
    ∃ outcome, NumberOutcome digits text outcome := by
  by_cases hzero : HasLeadingZero digits
  · exact ⟨_, .leadingZero hzero⟩
  rcases exists_fractionAt text with ⟨fraction, text', hfraction⟩ | ⟨rest, rfl, hrest⟩
  · rcases exists_exponentAt text' with ⟨exponent, rest, hexponent⟩ |
      ⟨mark, rest, rfl, hmark, hrest⟩
    · by_cases hword : NoneAhead Text.isWordPart rest
      · by_cases hsome : fraction ≠ none ∨ exponent ≠ none
        · exact ⟨_, .float hzero hfraction hexponent hsome hword⟩
        · obtain ⟨rfl, rfl⟩ : fraction = none ∧ exponent = none := by simpa using hsome
          cases hfraction with
          | absent hpoint =>
            cases hexponent
            rcases Nat.lt_or_ge (digitsValue digits) (Nat.pow 2 63) with hbound | hbound
            · exact ⟨_, .integer hzero hpoint hword hbound⟩
            · exact ⟨_, .outOfRange hzero hpoint hword hbound⟩
      · obtain ⟨d, rest, rfl, hd⟩ := exists_cons_of_any (eq_true_of_ne_false hword)
        exact ⟨_, .invalidSuffix hzero hfraction hexponent hd⟩
    · exact ⟨_, .missingExponentDigits hzero hfraction hmark hrest⟩
  · exact ⟨_, .missingFractionDigits hzero hrest⟩

end Numbers

/-- At a run of digits that no further digit follows, what is read is what the rule for the text
behind the digits says, and nothing else. -/
theorem scanNumber_eq_iff {c : Cursor} {digits text : List Char} (hc : c.rest = digits ++ text)
    (hdigits : IsDigitRun digits) (hmax : NoneAhead Char.isDigit text)
    (outcome : Except LexicalCause Kind) :
    (scanNumber c).1.mapError LexicalError.cause = outcome ↔ NumberOutcome digits text outcome := by
  constructor
  · rintro rfl
    obtain ⟨outcome, h⟩ := exists_numberOutcome digits text
    rwa [h.scanNumber_eq hc hdigits hmax]
  · exact fun h => h.scanNumber_eq hc hdigits hmax

/-- A float with both parts, and a comma behind it. -/
theorem scanNumber_eq_iff_float :
    (scanNumber (.ofText "12.50E-3,")).1.mapError LexicalError.cause =
      .ok (.float (.ofDecimal 1250 (-5))) := by
  have hrun (digits : List Char) (h : (!digits.isEmpty && digits.all Char.isDigit) = true) :
      IsDigitRun digits := by
    simpa [IsDigitRun] using h
  have hfraction : FractionAt ['.', '5', '0', 'E', '-', '3', ','] (some ['5', '0'])
      ['E', '-', '3', ','] :=
    .digits (hrun ['5', '0'] rfl) (by decide)
  have hexponent : ExponentAt ['E', '-', '3', ','] (some (-3)) [','] := by
    have hminus : ['-'] ∈ exponentSigns := by decide
    exact .digits rfl hminus (hrun ['3'] rfl) (by decide)
  have hrest : (Cursor.ofText "12.50E-3,").rest = ['1', '2'] ++
      ['.', '5', '0', 'E', '-', '3', ','] := by decide
  exact (scanNumber_eq_iff hrest (hrun _ rfl) (by decide) _).mpr
    (.float (by decide) hfraction hexponent (.inl (by decide)) (by decide))

end Offside
