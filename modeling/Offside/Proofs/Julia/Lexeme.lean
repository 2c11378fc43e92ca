import Offside.Target.Code
import Offside.Text.Word

/-!
# Words, numbers and marks of the emitted language

Outside strings, a text of the emitted language is a sequence of names, numbers and marks, which are
told apart by their first characters.  A name or a number goes on as far as it can; so it is read
back whole from a text that goes on with something else.
-/

namespace Offside.Julia

open Target Text List

/-- The characters a name can go on with. -/
def isNamePart (c : Char) : Bool := isWordPart c || c == '!'

/-- A word, a number or a mark outside strings. -/
inductive Lexeme
  | word (text : String)
  | number (text : String)
  | operator (op : Operator)
  | bang | colon | comma | dot | quote
  | parenOpen | parenClose
  | bracketOpen | bracketClose
deriving DecidableEq, Repr, Inhabited

/-- The fraction that a text starts with, and the rest of the text. -/
def fraction : List Char → List Char × List Char
  | '.' :: d :: cs =>
    if d.isDigit then ('.' :: d :: cs.takeWhile Char.isDigit, cs.dropWhile Char.isDigit)
    else ([], '.' :: d :: cs)
  | cs => ([], cs)

/-- The power of ten that a text starts with, and the rest of the text. -/
def exponent : List Char → List Char × List Char
  | 'e' :: '-' :: d :: cs =>
    if d.isDigit then ('e' :: '-' :: d :: cs.takeWhile Char.isDigit, cs.dropWhile Char.isDigit)
    else ([], 'e' :: '-' :: d :: cs)
  | 'e' :: d :: cs =>
    if d.isDigit then ('e' :: d :: cs.takeWhile Char.isDigit, cs.dropWhile Char.isDigit)
    else ([], 'e' :: d :: cs)
  | cs => ([], cs)

/-- The number that a text starts with, and the rest of the text. -/
def number (cs : List Char) : List Char × List Char :=
  let whole := cs.takeWhile Char.isDigit
  let (part, rest) := fraction (cs.dropWhile Char.isDigit)
  let (scale, rest) := exponent rest
  (whole ++ part ++ scale, rest)

/-- The mark that a text starts with, and the rest of the text.  Two equal signs in a row are no
mark. -/
def mark? : List Char → Option (Lexeme × List Char)
  | '|' :: '|' :: cs => some (.operator .or, cs)
  | '&' :: '&' :: cs => some (.operator .and, cs)
  | '.' :: '=' :: '=' :: cs => some (.operator (.comparison .equal), cs)
  | '.' :: '!' :: '=' :: cs => some (.operator (.comparison .notEqual), cs)
  | '.' :: '<' :: '=' :: cs => some (.operator (.comparison .lessEqual), cs)
  | '.' :: '>' :: '=' :: cs => some (.operator (.comparison .greaterEqual), cs)
  | '.' :: '<' :: cs => some (.operator (.comparison .less), cs)
  | '.' :: '>' :: cs => some (.operator (.comparison .greater), cs)
  | '.' :: '+' :: cs => some (.operator (.sum .add), cs)
  | '.' :: '-' :: cs => some (.operator (.sum .sub), cs)
  | '.' :: '*' :: cs => some (.operator (.product .mul), cs)
  | '.' :: '/' :: cs => some (.operator (.product .div), cs)
  | '.' :: '÷' :: cs => some (.operator (.product .floorDiv), cs)
  | '.' :: '%' :: cs => some (.operator (.product .mod), cs)
  | '.' :: '^' :: cs => some (.operator .power, cs)
  | '.' :: cs => some (.dot, cs)
  | '+' :: '+' :: _ | '-' :: '-' :: _ => none
  | '+' :: cs => some (.operator .plus, cs)
  | '-' :: cs => some (.operator .minus, cs)
  | '*' :: cs => some (.operator .times, cs)
  | '!' :: cs => some (.bang, cs)
  | ':' :: cs => some (.colon, cs)
  | ',' :: cs => some (.comma, cs)
  | '"' :: cs => some (.quote, cs)
  | '(' :: cs => some (.parenOpen, cs)
  | ')' :: cs => some (.parenClose, cs)
  | '[' :: cs => some (.bracketOpen, cs)
  | ']' :: cs => some (.bracketClose, cs)
  | _ => none

/-- The word, number or mark that a text starts with, and the rest of the text. -/
def lexeme? : List Char → Option (Lexeme × List Char)
  | [] => none
  | c :: cs =>
    if isWordStart c then
      some (.word (String.ofList (c :: cs.takeWhile isNamePart)), cs.dropWhile isNamePart)
    else if c.isDigit then
      some (.number (String.ofList (number (c :: cs)).1), (number (c :: cs)).2)
    else mark? (c :: cs)

variable {c : Char} {rest : List Char}

/-- A word, a number or a mark takes at least one character. -/
theorem length_lexeme?_lt {cs : List Char} {x : Lexeme} (h : lexeme? cs = some (x, rest)) :
    rest.length < cs.length := by
  have hdrop : ∀ (p : Char → Bool) (l : List Char), (l.dropWhile p).length ≤ l.length :=
    fun p l => (dropWhile_suffix p).length_le
  have hfraction : ∀ l : List Char, (fraction l).2.length ≤ l.length := by
    intro l
    fun_cases fraction l with
    | case1 d l hd => exact Nat.le_trans (hdrop _ _) (by simp; omega)
    | case2 d l hd => exact Nat.le_refl _
    | case3 l => exact Nat.le_refl _
  have hexponent : ∀ l : List Char, (exponent l).2.length ≤ l.length := by
    intro l
    fun_cases exponent l with
    | case1 d l hd => exact Nat.le_trans (hdrop _ _) (by simp; omega)
    | case2 d l hd => exact Nat.le_refl _
    | case3 d l hd => exact Nat.le_trans (hdrop _ _) (by simp; omega)
    | case4 d l hd => exact Nat.le_refl _
    | case5 l => exact Nat.le_refl _
  revert h
  fun_cases lexeme? cs with
  | case1 => simp
  | case2 c cs hc =>
    intro h
    obtain ⟨-, rfl⟩ := Prod.mk.inj (Option.some.inj h)
    exact Nat.lt_succ_of_le (hdrop _ _)
  | case3 c cs hc hd =>
    intro h
    obtain ⟨-, rfl⟩ := Prod.mk.inj (Option.some.inj h)
    have hdigits : ((c :: cs).dropWhile Char.isDigit).length ≤ cs.length := by
      rw [dropWhile_cons_of_pos hd]
      exact hdrop _ _
    exact Nat.lt_succ_of_le (Nat.le_trans (hexponent _) (Nat.le_trans (hfraction _) hdigits))
  | case4 c cs hc hd =>
    fun_cases mark? (c :: cs) <;> simp +contextual <;> omega

/-! ## Where a name or a number ends -/

/-- Whether a text is a name of the emitted language. -/
def isName (text : String) : Bool :=
  match text.toList with
  | [] => false
  | c :: cs => isWordStart c && cs.all isNamePart

theorem exists_of_isName {text : String} (h : isName text) :
    ∃ c cs, text.toList = c :: cs ∧ isWordStart c := by
  unfold isName at h
  split at h
  · cases h
  · rename_i c cs hcs
    exact ⟨c, cs, hcs, (Bool.and_eq_true_iff.mp h).1⟩

/-- What is written behind a name or a number does not continue it. -/
def Stops (rest : List Char) : Prop :=
  (∀ c ∈ rest.head?, isNamePart c = false) ∧ ∀ d cs, rest = '.' :: d :: cs → d.isDigit = false

theorem stops_nil : Stops [] := ⟨by simp, by simp⟩

theorem stops_cons (hc : isNamePart c = false) (hdot : c ≠ '.') (cs : List Char) :
    Stops (c :: cs) :=
  ⟨by simpa using hc, fun d ds h => absurd (cons.inj h).1 hdot⟩

theorem stops_dot {d : Char} (hd : d.isDigit = false) (cs : List Char) :
    Stops ('.' :: d :: cs) := by
  refine ⟨by simpa using (by decide : isNamePart '.' = false), fun d' ds h => ?_⟩
  obtain ⟨rfl, -⟩ := cons.inj (cons.inj h).2
  exact hd

/-- A digit starts no word. -/
theorem isWordStart_eq_false_of_isDigit (h : c.isDigit) : isWordStart c = false := by
  have hdigit : 48 ≤ c.toNat ∧ c.toNat ≤ 57 := Char.isDigit_iff_toNat.mp h
  have hlow : c.toNat < 0x80 := by omega
  have halpha : c.isAlpha = false := by
    have hupper : c.isUpper = false := by
      refine decide_eq_false ?_
      change ¬(65 ≤ c.toNat ∧ c.toNat ≤ 90)
      omega
    have hlower : c.isLower = false := by
      refine Bool.and_eq_false_iff.mpr ?_
      rw [decide_eq_false_iff_not, decide_eq_false_iff_not]
      change ¬97 ≤ c.toNat ∨ ¬c.toNat ≤ 122
      omega
    exact Bool.or_eq_false_iff.mpr ⟨hupper, hlower⟩
  have hunderscore : c ≠ '_' := by
    rintro rfl
    cases h
  simp [isWordStart, isLetter, hlow, halpha, hunderscore]

theorem isDigit_eq_false_of_isWordStart (h : isWordStart c) : c.isDigit = false := by
  cases hd : c.isDigit with
  | false => rfl
  | true => exact absurd h (by simp [isWordStart_eq_false_of_isDigit hd])

theorem isNamePart_of_isDigit (h : c.isDigit) : isNamePart c := by
  have hlow : c.toNat < 0x80 := by
    have hdigit : 48 ≤ c.toNat ∧ c.toNat ≤ 57 := Char.isDigit_iff_toNat.mp h
    omega
  simp [isNamePart, isWordPart, isAlphanumeric, isNumeric, hlow, h]

/-- A name is read back from a text that does not continue it. -/
theorem lexeme?_name {text : String} (h : isName text) (hrest : Stops rest) :
    lexeme? (text.toList ++ rest) = some (.word text, rest) := by
  unfold isName at h
  cases htext : text.toList with
  | nil => simp [htext] at h
  | cons c cs =>
    rw [htext] at h
    obtain ⟨hc, hcs⟩ := Bool.and_eq_true_iff.mp h
    have hall : ∀ d ∈ cs, isNamePart d := all_eq_true.mp hcs
    have htake : (cs ++ rest).takeWhile isNamePart = cs := by
      rw [takeWhile_append_of_pos hall]
      cases rest with
      | nil => simp
      | cons d ds =>
        have hd : isNamePart d = false := hrest.1 d rfl
        rw [takeWhile_cons_of_neg (by simp [hd]), append_nil]
    have hdrop : (cs ++ rest).dropWhile isNamePart = rest := by
      rw [dropWhile_append_of_pos hall]
      cases rest with
      | nil => rfl
      | cons d ds =>
        have hd : isNamePart d = false := hrest.1 d rfl
        rw [dropWhile_cons_of_neg (by simp [hd])]
    have hword : String.ofList (c :: cs) = text := by
      rw [← htext, String.ofList_toList]
    rw [cons_append, lexeme?, if_pos hc, htake, hdrop, hword]

/-- A mark is read where neither a word nor a number starts. -/
theorem lexeme?_eq_mark? (hword : isWordStart c = false) (hdigit : c.isDigit = false)
    (cs : List Char) :
    lexeme? (c :: cs) = mark? (c :: cs) := by
  rw [lexeme?, if_neg (by simp [hword]), if_neg (by simp [hdigit])]

/-- An operator is read back with the blanks around it. -/
theorem lexeme?_spelling (op : Operator) (rest : List Char) :
    lexeme? (op.spelling.toList ++ ' ' :: rest) = some (.operator op, ' ' :: rest) := by
  cases op with
  | comparison op => cases op <;> rfl
  | sum op => cases op <;> rfl
  | product op => cases op <;> rfl
  | _ => rfl

/-- The operator that is spelled like a sign. -/
def signOperator : SumOp → Operator
  | .add => .plus
  | .sub => .minus

/-- A sign is read where no further sign follows. -/
theorem lexeme?_sign (op : SumOp) (hc : c ∉ ['+', '-']) (cs : List Char) :
    lexeme? (op.spelling.toList ++ c :: cs) = some (.operator (signOperator op), c :: cs) := by
  have hne : c ≠ '+' ∧ c ≠ '-' := by simpa using hc
  cases op with
  | add =>
    change lexeme? ('+' :: c :: cs) = _
    rw [lexeme?_eq_mark? (by decide) (by decide)]
    simp [mark?, hne, signOperator]
  | sub =>
    change lexeme? ('-' :: c :: cs) = _
    rw [lexeme?_eq_mark? (by decide) (by decide)]
    simp [mark?, hne, signOperator]

/-- A dot before a name is a mark of its own. -/
theorem lexeme?_dot {d : Char} (h : isWordStart d) (rest : List Char) :
    lexeme? ('.' :: d :: rest) = some (.dot, d :: rest) := by
  have hstart : ∀ c ∈ ['=', '!', '<', '>', '+', '-', '*', '/', '÷', '%', '^'],
      (!isWordStart c) := all_eq_true.mp (by decide +kernel)
  have hne : ∀ c ∈ ['=', '!', '<', '>', '+', '-', '*', '/', '÷', '%', '^'], d ≠ c := by
    rintro c hc rfl
    exact absurd h (by simpa using hstart d hc)
  simp only [forall_mem_cons] at hne
  rw [lexeme?_eq_mark? (by decide) (by decide), mark?]
  all_goals simp [hne]

/-! ## Numbers -/

/-- Some digits, at least one. -/
def AreDigits (cs : List Char) : Prop := cs ≠ [] ∧ ∀ c ∈ cs, c.isDigit = true

/-- Nothing, or a point and digits. -/
def IsFraction (cs : List Char) : Prop := cs = [] ∨ ∃ ds, AreDigits ds ∧ cs = '.' :: ds

/-- Nothing, or a power of ten. -/
def IsScale (cs : List Char) : Prop :=
  cs = [] ∨ ∃ ds, AreDigits ds ∧ (cs = 'e' :: ds ∨ cs = 'e' :: '-' :: ds)

/-- Digits, with or without a fraction and a power of ten. -/
def IsNumber (cs : List Char) : Prop :=
  ∃ whole part scale, AreDigits whole ∧ IsFraction part ∧ IsScale scale ∧
    cs = whole ++ (part ++ scale)

/-- The digits before a text that starts with no digit. -/
theorem takeWhile_digits {ds : List Char} (hds : ∀ c ∈ ds, c.isDigit)
    (hrest : ∀ c ∈ rest.head?, c.isDigit = false) :
    (ds ++ rest).takeWhile Char.isDigit = ds ∧ (ds ++ rest).dropWhile Char.isDigit = rest := by
  rw [takeWhile_append_of_pos hds, dropWhile_append_of_pos hds]
  cases rest with
  | nil => simp
  | cons c cs =>
    have hc : c.isDigit = false := hrest c rfl
    rw [takeWhile_cons_of_neg (by simp [hc]), dropWhile_cons_of_neg (by simp [hc])]
    simp

theorem Stops.isDigit_head (h : Stops rest) : ∀ c ∈ rest.head?, c.isDigit = false := by
  intro c hc
  cases hd : c.isDigit with
  | false => rfl
  | true => exact absurd (h.1 c hc) (by simp [isNamePart_of_isDigit hd])

/-- An exponent is cut off whole. -/
theorem exponent_append {scale : List Char} (h : IsScale scale) (hrest : Stops rest) :
    exponent (scale ++ rest) = (scale, rest) := by
  rcases h with rfl | ⟨ds, ⟨hne, hds⟩, rfl | rfl⟩
  · have he : ∀ cs, rest ≠ 'e' :: cs := by
      rintro cs rfl
      cases hrest.1 'e' rfl
    rw [nil_append, exponent]
    · exact fun d cs h => he _ h
    · exact fun d cs h => he _ h
  · obtain ⟨d, ds, rfl⟩ := exists_cons_of_ne_nil hne
    obtain ⟨hd, hds⟩ := forall_mem_cons.mp hds
    obtain ⟨htake, hdrop⟩ := takeWhile_digits hds hrest.isDigit_head
    have hminus : d ≠ '-' := by
      rintro rfl
      cases hd
    rw [cons_append, cons_append, exponent, if_pos hd, htake, hdrop]
    exact fun _ _ h _ => hminus h
  · obtain ⟨d, ds, rfl⟩ := exists_cons_of_ne_nil hne
    obtain ⟨hd, hds⟩ := forall_mem_cons.mp hds
    obtain ⟨htake, hdrop⟩ := takeWhile_digits hds hrest.isDigit_head
    rw [cons_append, cons_append, cons_append, exponent, if_pos hd, htake, hdrop]

theorem IsScale.isDigit_head {scale rest : List Char} (h : IsScale scale) (hrest : Stops rest) :
    ∀ c ∈ (scale ++ rest).head?, c.isDigit = false := by
  rcases h with rfl | ⟨ds, -, rfl | rfl⟩
  · exact hrest.isDigit_head
  · intro c hc
    obtain rfl : 'e' = c := by simpa using hc
    rfl
  · intro c hc
    obtain rfl : 'e' = c := by simpa using hc
    rfl

theorem fraction_append {part scale : List Char} (h : IsFraction part) (hscale : IsScale scale)
    (hrest : Stops rest) : fraction (part ++ (scale ++ rest)) = (part, scale ++ rest) := by
  rcases h with rfl | ⟨ds, ⟨hne, hds⟩, rfl⟩
  · rw [nil_append]
    rcases hscale with rfl | ⟨es, -, rfl | rfl⟩
    · rw [nil_append]
      fun_cases fraction rest with
      | case1 d cs hd => exact absurd hd (by simp [hrest.2 d cs rfl])
      | case2 d cs hd => rfl
      | case3 => rfl
    · rfl
    · rfl
  · obtain ⟨d, ds, rfl⟩ := exists_cons_of_ne_nil hne
    obtain ⟨hd, hds⟩ := forall_mem_cons.mp hds
    obtain ⟨htake, hdrop⟩ := takeWhile_digits hds (hscale.isDigit_head hrest)
    rw [cons_append, cons_append, fraction, if_pos hd, htake, hdrop]

/-- A number is read back from a text that does not continue it. -/
theorem lexeme?_number {cs : List Char} (h : IsNumber cs) (hrest : Stops rest) :
    lexeme? (cs ++ rest) = some (.number (String.ofList cs), rest) := by
  obtain ⟨whole, part, scale, ⟨hne, hwhole⟩, hpart, hscale, rfl⟩ := h
  have hhead : ∀ c ∈ (part ++ (scale ++ rest)).head?, c.isDigit = false := by
    rcases hpart with rfl | ⟨ds, -, rfl⟩
    · exact hscale.isDigit_head hrest
    · intro c hc
      obtain rfl : '.' = c := by simpa using hc
      rfl
  obtain ⟨htake, hdrop⟩ := takeWhile_digits hwhole hhead
  have hnumber : number (whole ++ (part ++ (scale ++ rest))) = (whole ++ part ++ scale, rest) := by
    rw [number, htake, hdrop, fraction_append hpart hscale hrest]
    dsimp only
    rw [exponent_append hscale hrest]
  obtain ⟨d, ds, rfl⟩ := exists_cons_of_ne_nil hne
  have hd : d.isDigit := hwhole d (by simp)
  have hassoc : d :: ds ++ (part ++ scale) ++ rest = d :: ds ++ (part ++ (scale ++ rest)) := by
    simp
  rw [hassoc, cons_append, lexeme?, if_neg (by simp [isWordStart_eq_false_of_isDigit hd]),
    if_pos hd, ← cons_append, hnumber]
  simp

end Offside.Julia
