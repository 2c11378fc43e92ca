import Mathlib.Data.List.Infix
import Offside.Proofs.DispatchTargets

/-!
# String literals

In a literal, a backslash stands for a character together with what is behind it, and how much
belongs to it depends on the digits there: up to three octal digits, or up to four hexadecimal ones
behind a `u`, are taken as far as they go.  The emitted escapes are made for one character at a
time.  Those with hexadecimal digits have four of them, so nothing behind them is taken; but the
escape of the null character has one octal digit, and takes up to two more from the text behind it
(`readLiteral_escape`).  So a text is read back exactly if no null character in it stands in front
of an octal digit (`readLiteral_escapeText_iff`).
-/

namespace Offside.Julia

open Target List

/-! ## Reading literals -/

/-- Whether a character is an octal digit. -/
def isOctal (c : Char) : Bool := 48 ≤ c.toNat && c.toNat ≤ 55

/-- Whether a character is a hexadecimal digit. -/
def isHex (c : Char) : Bool :=
  c.isDigit || 97 ≤ c.toNat && c.toNat ≤ 102 || 65 ≤ c.toNat && c.toNat ≤ 70

/-- The value of a digit. -/
def digitValue (c : Char) : Nat :=
  if c.isDigit then c.toNat - 48 else if 97 ≤ c.toNat then c.toNat - 87 else c.toNat - 55

/-- The number that some digits stand for. -/
def numeral (base : Nat) (digits : List Char) : Nat :=
  digits.foldl (fun n d => base * n + digitValue d) 0

/-- The digits that a text starts with, as far as they go but at most the given number of them. -/
def leading (isDigit : Char → Bool) (most : Nat) (cs : List Char) : List Char :=
  (cs.takeWhile isDigit).take most

/-- The character with the given code. -/
def character? (code : Nat) : Option Char :=
  if code.isValidChar then some (Char.ofNat code) else none

/-- The character whose code stands in front of a text, and the rest of the text. -/
def coded? (base : Nat) (isDigit : Char → Bool) (most : Nat) (cs : List Char) :
    Option (Char × List Char) :=
  let digits := leading isDigit most cs
  if digits.isEmpty then none
  else (character? (numeral base digits)).map fun c => (c, cs.drop digits.length)

/-- The characters that stand for one character behind a backslash. -/
def marks : List (Char × Char) :=
  [('\\', '\\'), ('"', '"'), ('$', '$'), ('n', '\n'), ('t', '\t'), ('r', '\r')]

/-- The character that a backslash in front of a text stands for, and the rest of the text. -/
def escaped? : List Char → Option (Char × List Char)
  | [] => none
  | c :: cs =>
    match marks.lookup c with
    | some d => some (d, cs)
    | none => if c = 'u' then coded? 16 isHex 4 cs else coded? 8 isOctal 3 (c :: cs)

variable {c : Char} {cs rest : List Char}

theorem length_lt_of_coded? {base : Nat} {isDigit : Char → Bool} {most : Nat}
    (h : coded? base isDigit most cs = some (c, rest)) : rest.length < cs.length := by
  have hlength : (leading isDigit most cs).length ≤ cs.length :=
    Nat.le_trans (take_sublist _ _).length_le (takeWhile_sublist _).length_le
  unfold coded? at h
  dsimp only at h
  split at h
  · cases h
  · rename_i hdigits
    have hpos := length_pos_iff.mpr (mt isEmpty_iff.mpr hdigits)
    obtain ⟨d, -, heq⟩ := Option.map_eq_some_iff.mp h
    cases heq
    rw [length_drop]
    omega

theorem length_lt_of_escaped? (h : escaped? cs = some (c, rest)) : rest.length < cs.length := by
  cases cs with
  | nil => cases h
  | cons d cs =>
    dsimp only [escaped?] at h
    split at h
    · cases h
      exact Nat.lt_succ_self _
    · split at h
      · exact Nat.lt_succ_of_lt (length_lt_of_coded? h)
      · exact length_lt_of_coded? h

/-- The text that the body of a literal stands for.  There is none if a backslash has no meaning, or
if a quote, a dollar sign or a line break stands without a backslash. -/
def readLiteral : List Char → Option (List Char)
  | [] => some []
  | c :: cs =>
    if c = '\\' then
      match h : escaped? cs with
      | none => none
      | some (d, rest) =>
        have := length_lt_of_escaped? h
        (readLiteral rest).map (d :: ·)
    else if c ∈ ['"', '$', '\n', '\r'] then none
    else (readLiteral cs).map (c :: ·)
termination_by cs => cs.length
decreasing_by
  · exact Nat.lt_succ_of_lt this
  · exact Nat.lt_succ_self _

theorem readLiteral_nil : readLiteral [] = some [] := by rw [readLiteral]

theorem readLiteral_backslash (h : escaped? cs = some (c, rest)) :
    readLiteral ('\\' :: cs) = (readLiteral rest).map (c :: ·) := by
  rw [readLiteral, if_pos rfl]
  split
  · rename_i hnone
    cases hnone.symm.trans h
  · rename_i d rest' hsome
    cases hsome.symm.trans h
    rfl

theorem readLiteral_plain (hbackslash : c ≠ '\\') (h : c ∉ ['"', '$', '\n', '\r'])
    (cs : List Char) :
    readLiteral (c :: cs) = (readLiteral cs).map (c :: ·) := by
  rw [readLiteral, if_neg hbackslash, if_neg h]

/-! ## Digits -/

theorem numeral_append (base : Nat) (digits : List Char) (d : Char) :
    numeral base (digits ++ [d]) = base * numeral base digits + digitValue d := by
  rw [numeral, foldl_append]
  rfl

/-- A zero in front of digits does not count. -/
theorem numeral_zero_cons (base : Nat) (digits : List Char) :
    numeral base ('0' :: digits) = numeral base digits := by
  have hzero : base * 0 + digitValue '0' = 0 := by
    rw [Nat.mul_zero]
    decide
  rw [numeral, foldl_cons, hzero]
  rfl

theorem numeral_toDigits (n : Nat) : numeral 16 (Nat.toDigits 16 n) = n := by
  have hdigit : ∀ m < 16, digitValue m.digitChar = m := by decide
  induction n using Nat.strongRecOn with
  | _ n ih =>
    rw [Nat.toDigits_eq_if (by decide)]
    split
    · rename_i hn
      rw [numeral, foldl_cons, hdigit n hn, foldl_nil]
      omega
    · rw [numeral_append, ih (n / 16) (by omega), hdigit _ (Nat.mod_lt _ (by decide))]
      omega

theorem numeral_fourDigits (n : Nat) : numeral 16 (fourDigits n) = n := by
  unfold fourDigits
  dsimp only
  generalize 4 - (Nat.toDigits 16 n).length = zeros
  induction zeros with
  | zero => exact numeral_toDigits n
  | succ zeros ih =>
    rw [replicate_succ, cons_append, numeral_zero_cons]
    exact ih

theorem length_fourDigits {n : Nat} (h : n < 65536) : (fourDigits n).length = 4 := by
  have hlength : (Nat.toDigits 16 n).length ≤ 4 :=
    (Nat.length_toDigits_le_iff (by decide) (by decide)).mpr h
  unfold fourDigits
  rw [length_append, length_replicate]
  omega

theorem leading_fourDigits {n : Nat} (h : n < 65536) (cs : List Char) :
    leading isHex 4 (fourDigits n ++ cs) = fourDigits n := by
  have hdigit : ∀ m < 16, isHex m.digitChar := by decide
  have hall : ∀ c ∈ fourDigits n, isHex c := by
    intro c hc
    obtain ⟨m, hm, rfl⟩ := exists_of_mem_fourDigits hc
    exact hdigit m hm
  have hlength := length_fourDigits h
  rw [leading, takeWhile_append_of_pos hall, take_append_of_le_length (by omega),
    take_of_length_le (by omega)]

/-! ## Escapes -/

/-- The escape with hexadecimal digits takes nothing behind it. -/
theorem escaped?_fourDigits (h : isControl c) (cs : List Char) :
    escaped? ('u' :: (fourDigits c.toNat ++ cs)) = some (c, cs) := by
  have hsmall : c.toNat < 65536 := by
    simp only [isControl, Bool.or_eq_true, Bool.and_eq_true, decide_eq_true_eq] at h
    omega
  have hcharacter : character? c.toNat = some c := by
    have hvalid : c.toNat.isValidChar := c.valid
    rw [character?, if_pos hvalid, Char.ofNat_toNat]
  have hsome : (fourDigits c.toNat).isEmpty = false := by
    rw [isEmpty_eq_false_iff, ← length_pos_iff, length_fourDigits hsmall]
    decide
  have hcoded : coded? 16 isHex 4 (fourDigits c.toNat ++ cs) = some (c, cs) := by
    unfold coded?
    dsimp only
    rw [leading_fourDigits hsmall, hsome, numeral_fourDigits, hcharacter]
    simp
  exact hcoded

/-- Every character but the null character is read back from its escape, whatever is behind it. -/
theorem readLiteral_escapeChar (h : c ≠ '\x00') (cs : List Char) :
    readLiteral (escapeChar c ++ cs) = (readLiteral cs).map (c :: ·) := by
  unfold escapeChar
  split
  case h_7 => exact absurd rfl h
  case h_8 hbackslash hquote hdollar hnewline _ hreturn _ =>
    split
    · rename_i hcontrol
      exact readLiteral_backslash (escaped?_fourDigits hcontrol cs)
    · refine readLiteral_plain hbackslash ?_ cs
      simp only [mem_cons, not_mem_nil, or_false, not_or]
      exact ⟨hquote, hdollar, hnewline, hreturn⟩
  all_goals exact readLiteral_backslash rfl

theorem escapeChar_of_isOctal (h : isOctal c) : escapeChar c = [c] := by
  have hcontrol : isControl c = false := by
    simp only [isOctal, Bool.and_eq_true, decide_eq_true_eq] at h
    simp only [isControl, Bool.or_eq_false_iff, Bool.and_eq_false_iff, decide_eq_false_iff_not]
    omega
  unfold escapeChar
  split
  case h_8 => simp [hcontrol]
  all_goals cases h

/-- The escape of another character does not start with an octal digit. -/
theorem takeWhile_escapeChar (h : isOctal c = false) (cs : List Char) :
    (escapeChar c ++ cs).takeWhile isOctal = [] := by
  have hbackslash : isOctal '\\' = false := by decide
  unfold escapeChar
  split
  case h_8 =>
    split
    · simp [hbackslash]
    · simp [h]
  all_goals simp [hbackslash]

/-- The octal digits in front of a text stay in front of its escaped form. -/
theorem takeWhile_flatMap_escapeChar (cs : List Char) :
    (cs.flatMap escapeChar).takeWhile isOctal = cs.takeWhile isOctal := by
  induction cs with
  | nil => rfl
  | cons c cs ih =>
    rw [flatMap_cons]
    cases hc : isOctal c with
    | true => simp [escapeChar_of_isOctal hc, hc, ih]
    | false =>
      rw [takeWhile_escapeChar hc]
      simp [hc]

theorem drop_flatMap_escapeChar {count : Nat} (h : count ≤ (cs.takeWhile isOctal).length) :
    (cs.flatMap escapeChar).drop count = (cs.drop count).flatMap escapeChar := by
  induction cs generalizing count with
  | nil => simp
  | cons c cs ih =>
    cases count with
    | zero => rfl
    | succ count =>
      cases hc : isOctal c with
      | true =>
        rw [takeWhile_cons_of_pos hc] at h
        rw [flatMap_cons, escapeChar_of_isOctal hc, singleton_append, drop_succ_cons,
          drop_succ_cons]
        exact ih (Nat.le_of_succ_le_succ h)
      | false =>
        rw [takeWhile_cons_of_neg (by simp [hc])] at h
        exact absurd h (Nat.not_succ_le_zero count)

/-! ## Null characters -/

/-- A text whose null characters take the octal digits behind them, at most two each. -/
def absorbed : List Char → List Char
  | [] => []
  | c :: cs =>
    if c = '\x00' then
      Char.ofNat (numeral 8 (leading isOctal 2 cs)) :: absorbed
        (cs.drop (leading isOctal 2 cs).length)
    else c :: absorbed cs
termination_by cs => cs.length
decreasing_by
  · rw [length_drop, length_cons]
    omega
  · exact Nat.lt_succ_self _

theorem isValidChar_numeral (cs : List Char) : (numeral 8 (leading isOctal 2 cs)).isValidChar := by
  have hdigit {c : Char} (h : isOctal c) : digitValue c ≤ 7 := by
    simp only [isOctal, Bool.and_eq_true, decide_eq_true_eq] at h
    unfold digitValue
    split
    · omega
    · split <;> omega
  have hsmall : numeral 8 (leading isOctal 2 cs) < 64 := by
    have hall : ∀ c ∈ leading isOctal 2 cs, isOctal c := fun c hc =>
      all_eq_true.mp all_takeWhile c (mem_of_mem_take hc)
    have hlength : (leading isOctal 2 cs).length ≤ 2 := length_take_le _ _
    match leading isOctal 2 cs, hall, hlength with
    | [], _, _ => decide
    | [c], hall, _ =>
      have hc := hdigit (hall c (by simp))
      simp only [numeral, foldl_cons, foldl_nil]
      omega
    | [c, d], hall, _ =>
      have hc := hdigit (hall c (by simp))
      have hd := hdigit (hall d (by simp))
      simp only [numeral, foldl_cons, foldl_nil]
      omega
  exact .inl (by omega)

/-- The escape of a null character takes the octal digits of the text behind it. -/
theorem escaped?_zero (cs : List Char) :
    escaped? ('0' :: cs.flatMap escapeChar) = some (Char.ofNat (numeral 8 (leading isOctal 2 cs)),
      (cs.drop (leading isOctal 2 cs).length).flatMap escapeChar) := by
  have hdigits : leading isOctal 3 ('0' :: cs.flatMap escapeChar) =
      '0' :: leading isOctal 2 cs := by
    rw [leading, takeWhile_cons_of_pos (by decide), takeWhile_flatMap_escapeChar]
    rfl
  have hdrop := drop_flatMap_escapeChar (length_take_le' 2 (cs.takeWhile isOctal))
  have hcoded : coded? 8 isOctal 3 ('0' :: cs.flatMap escapeChar) =
      some (Char.ofNat (numeral 8 (leading isOctal 2 cs)),
        (cs.drop (leading isOctal 2 cs).length).flatMap escapeChar) := by
    unfold coded?
    dsimp only
    rw [hdigits, numeral_zero_cons, character?, if_pos (isValidChar_numeral cs), length_cons,
      drop_succ_cons, leading, hdrop]
    rfl
  exact hcoded

/-- The escaped form of a text is always read, with the digits behind null characters taken by
these. -/
theorem readLiteral_escape (cs : List Char) :
    readLiteral (cs.flatMap escapeChar) = some (absorbed cs) := by
  fun_induction absorbed cs with
  | case1 => exact readLiteral_nil
  | case2 cs ih =>
    rw [flatMap_cons]
    have hread : readLiteral ('\\' :: '0' :: cs.flatMap escapeChar) = _ :=
      readLiteral_backslash (escaped?_zero cs)
    refine hread.trans ?_
    rw [ih]
    rfl
  | case3 c cs hc ih =>
    rw [flatMap_cons, readLiteral_escapeChar hc, ih]
    rfl

theorem length_absorbed_le (cs : List Char) : (absorbed cs).length ≤ cs.length := by
  fun_induction absorbed cs with
  | case1 => exact Nat.le_refl _
  | case2 cs ih =>
    rw [length_drop] at ih
    simp only [length_cons]
    omega
  | case3 c cs hc ih => exact Nat.succ_le_succ ih

/-- Nothing is taken from a text exactly if no null character in it stands in front of an octal
digit. -/
theorem absorbed_eq_self_iff (cs : List Char) :
    absorbed cs = cs ↔ ∀ d, isOctal d → ¬['\x00', d] <:+: cs := by
  fun_induction absorbed cs with
  | case1 => simp
  | case2 cs ih =>
    cases cs with
    | nil =>
      simp [leading, numeral, absorbed, infix_cons_iff]
    | cons d cs =>
      cases hd : isOctal d with
      | true =>
        -- the digit is taken, so what is read is shorter
        have hlength : (leading isOctal 2 (d :: cs)).length ≠ 0 := by
          rw [leading, takeWhile_cons_of_pos hd]
          simp
        refine iff_of_false ?_ fun h => h d hd ?_
        · intro heq
          have hle := length_absorbed_le ((d :: cs).drop (leading isOctal 2 (d :: cs)).length)
          have heq := congrArg length heq
          rw [length_drop] at hle
          simp only [length_cons] at heq hle
          omega
        · exact infix_cons_iff.mpr (.inl (by simp))
      | false =>
        have hnone : leading isOctal 2 (d :: cs) = [] := by
          rw [leading, takeWhile_cons_of_neg (by simp [hd])]
          rfl
        have hfirst : ∀ e, isOctal e → ¬['\x00', e] <+: '\x00' :: d :: cs := by
          intro e he hsame
          simp only [cons_prefix_cons, nil_prefix, and_true, true_and] at hsame
          rw [hsame, hd] at he
          cases he
        rw [hnone] at ih ⊢
        rw [cons.injEq]
        refine (and_iff_right (by decide)).trans (ih.trans ?_)
        refine forall_congr' fun e => forall_congr' fun he => ?_
        rw [infix_cons_iff, not_or]
        exact (and_iff_right (hfirst e he)).symm
  | case3 c cs hc ih =>
    have hfirst (d : Char) : ¬['\x00', d] <+: c :: cs := by
      intro hsame
      exact hc (cons_prefix_cons.mp hsame).1.symm
    rw [cons.injEq, and_iff_right rfl, ih]
    refine forall_congr' fun d => forall_congr' fun hd => ?_
    rw [infix_cons_iff, not_or]
    exact (and_iff_right (hfirst d)).symm

/-- The escaped form of every text is the body of a literal: no quote, dollar sign or line break in
it stands without a backslash, and every backslash has a meaning.  The literal stands for the text
itself exactly if no null character in the text stands in front of an octal digit. -/
theorem readLiteral_escapeText_iff (text : String) :
    readLiteral (escapeText text).toList = some (absorbed text.toList) ∧
      (readLiteral (escapeText text).toList = some text.toList ↔
        ∀ d, isOctal d = true → ¬['\x00', d] <:+: text.toList) := by
  have hread : readLiteral (escapeText text).toList = some (absorbed text.toList) := by
    rw [escapeText, String.toList_ofList, readLiteral_escape]
  refine ⟨hread, ?_⟩
  rw [hread, Option.some.injEq]
  exact absorbed_eq_self_iff text.toList

/-- A literal of a null character and a digit is emitted as one that stands for a single other
character. -/
theorem compile_null_digit :
    compile "x = \"\\01\"\n" = .ok "x = \"\\01\"\n" ∧ escapeText "\x001" = "\\01" ∧
      readLiteral (escapeText "\x001").toList = some ['\x01'] := by
  refine ⟨by decide +kernel, by decide +kernel, ?_⟩
  rw [escapeText, String.toList_ofList, readLiteral_escape]
  simp [absorbed, leading, isOctal, numeral, digitValue]

end Offside.Julia
