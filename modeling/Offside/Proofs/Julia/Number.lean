import Offside.Proofs.Julia.Lexeme

/-!
# Emitted numbers

Every number that is emitted is read back as one number.  An integer is written in digits.  A finite
binary64 number is written in digits with a fraction or a power of ten or both; that there always is
a digit before them rests on its shortest decimal not being zero.
-/

namespace Offside.Julia

/-! ## Integers -/

theorem areDigits_toDigits (n : Nat) : AreDigits (Nat.toDigits 10 n) :=
  ⟨Nat.toDigits_ne_nil, fun _ hc => Nat.isDigit_of_mem_toDigits (by decide) (by decide) hc⟩

theorem isNumber_of_areDigits {cs : List Char} (h : AreDigits cs) : IsNumber cs :=
  ⟨cs, [], [], h, .inl rfl, .inl rfl, by simp⟩

/-- A number at or above zero is written in digits. -/
theorem toList_toString_of_nonneg {value : Int} (h : 0 ≤ value) :
    (toString value).toList = Nat.toDigits 10 value.toNat := by
  rw [Int.toString_eq_repr, Int.repr_eq_if, if_pos h, Nat.toList_repr]

/-- A number below zero is written with a minus sign. -/
theorem toList_toString_of_neg {value : Int} (h : value < 0) :
    (toString value).toList = '-' :: Nat.toDigits 10 value.natAbs := by
  have habs : (-value).toNat = value.natAbs := by omega
  rw [Int.toString_eq_repr, Int.repr_eq_if, if_neg (by omega), habs, String.toList_append,
    Nat.toList_repr]
  rfl

/-- A positive number has a digit other than zero. -/
theorem exists_mem_toDigits_ne_zero {n : Nat} (h : 0 < n) : ∃ c ∈ Nat.toDigits 10 n, c ≠ '0' := by
  induction n using Nat.strongRecOn with
  | _ n ih =>
    by_cases hlt : n < 10
    · rw [Nat.toDigits_of_lt_base hlt]
      exact ⟨n.digitChar, by simp, by simp; omega⟩
    · rw [Nat.toDigits_of_base_le (by decide) (by omega)]
      obtain ⟨c, hc, hne⟩ := ih (n / 10) (by omega) (by omega)
      exact ⟨c, by simp [hc], hne⟩

end Offside.Julia

namespace Offside.Binary64

open Julia

/-! ## Shortest decimals -/

theorem scaled_fst_pos {num : Nat} (h : 0 < num) (den : Nat) {base : Nat} (hbase : 0 < base)
    (exponent : Int) : 0 < (scaled num den base exponent).1 := by
  unfold scaled
  split
  · exact h
  · exact Nat.mul_pos h (Nat.pow_pos hbase)

variable {exponent : Int} {significand : Nat}

/-- Zero denotes no positive number. -/
theorem denotes_zero (h : significand ≠ 0) (exponent power : Int) :
    denotes significand exponent 0 power = false := by
  have hunit : 0 < (quarterUnit exponent).1 := scaled_fst_pos Nat.one_pos 1 (by decide) _
  have hbelow : ∀ count : Nat, 0 < count → ∀ even : Bool,
      quartersBelow even (quarterUnit exponent) count 0 power = false := by
    intro count hcount even
    have hpos :=
      scaled_fst_pos (Nat.mul_pos hcount hunit) (quarterUnit exponent).2 (by decide : 0 < 10) power
    simp only [quartersBelow, Nat.zero_mul, Nat.not_lt_zero, decide_false, Bool.false_or,
      Bool.and_eq_false_iff, beq_eq_false_iff_ne]
    exact .inr (by omega)
  simp only [denotes, Bool.and_eq_false_iff]
  left
  apply hbelow
  split <;> omega

/-- The decimal found on a grid is not zero. -/
theorem fst_ne_zero_of_onGrid? (h : significand ≠ 0) {point : Int} {count : Nat} {found : Nat × Int}
    (hfound : onGrid? significand exponent point count = some found) : found.1 ≠ 0 := by
  simp only [onGrid?] at hfound
  split at hfound
  · rename_i hlower
    cases hfound
    intro hzero
    dsimp only at hzero
    rw [hzero, denotes_zero h] at hlower
    simp at hlower
  · split at hfound
    · cases hfound
      simp
    · simp at hfound

/-- The shortest decimal has digits only. -/
theorem isDigit_of_mem_shortest {c : Char} (hc : c ∈ (shortest significand exponent).digits) :
    c.isDigit := by
  simp only [shortest, List.mem_reverse] at hc
  have hmem := (List.dropWhile_suffix (· == '0')).subset hc
  exact (areDigits_toDigits _).2 c (List.mem_reverse.mp hmem)

/-- A shortest decimal without digits stands for none that was found, and is written as zero. -/
theorem point_eq_one_of_shortest (h : significand ≠ 0)
    (hnil : (shortest significand exponent).digits = []) :
    (shortest significand exponent).point = 1 := by
  simp only [shortest] at hnil ⊢
  generalize hsearch : (List.range' 1 17).findSome?
    (onGrid? significand exponent (decimalPoint significand exponent)) = search at hnil ⊢
  cases search with
  | none => simp
  | some found =>
    obtain ⟨count, -, hcount⟩ := List.exists_of_findSome?_eq_some hsearch
    have hpos : 0 < found.1 := Nat.pos_of_ne_zero (fst_ne_zero_of_onGrid? h hcount)
    obtain ⟨c, hc, hne⟩ := exists_mem_toDigits_ne_zero hpos
    rw [List.reverse_eq_nil_iff] at hnil
    have hall : (Nat.toDigits 10 found.1).reverse.all (· == '0') := by
      have hany := List.any_dropWhile (p := (· == '0')) (l := (Nat.toDigits 10 found.1).reverse)
      rw [Option.getD_some] at hnil
      rw [hnil] at hany
      simpa using hany
    have hzero := List.all_eq_true.mp hall c (List.mem_reverse.mpr hc)
    exact absurd (by simpa using hzero) hne

end Offside.Binary64

namespace Offside.ShortDecimal

open Julia

/-! ## The text of decimals -/

variable {d : ShortDecimal} (hdigits : ∀ c ∈ d.digits, c.isDigit = true)
  (hpoint : d.digits = [] → d.point = 1)

include hdigits hpoint

/-- A decimal that is written out is a whole number and a fraction. -/
theorem isNumber_positional : IsNumber d.positional := by
  have hzeros : ∀ n, ∀ c ∈ List.replicate n '0', c.isDigit := by
    intro n c hc
    rw [(List.mem_replicate.mp hc).2]
    rfl
  unfold positional
  split
  · rename_i hle
    have hne : d.digits ≠ [] := fun hnil => by
      have := hpoint hnil
      omega
    refine ⟨['0'], '.' :: (List.replicate (-d.point).toNat '0' ++ d.digits), [],
      ⟨by simp, by simp⟩, .inr ⟨_, ⟨by simp [hne], ?_⟩, rfl⟩, .inl rfl, by simp⟩
    intro c hc
    exact (List.mem_append.mp hc).elim (hzeros _ c) (hdigits c)
  · rename_i hpos
    have hwhole : 0 < d.point.toNat := by omega
    dsimp only
    split
    · refine ⟨d.digits ++ List.replicate (d.point.toNat - d.digits.length) '0', ['.', '0'], [],
        ⟨?_, ?_⟩, .inr ⟨['0'], ⟨by simp, by simp⟩, rfl⟩, .inl rfl, by simp⟩
      · intro hnil
        have hlength := congrArg List.length hnil
        simp only [List.length_append, List.length_replicate, List.length_nil] at hlength
        omega
      · intro c hc
        exact (List.mem_append.mp hc).elim (hdigits c) (hzeros _ c)
    · rename_i hlength
      refine ⟨d.digits.take d.point.toNat, '.' :: d.digits.drop d.point.toNat, [],
        ⟨?_, fun c hc => hdigits c (List.mem_of_mem_take hc)⟩,
        .inr ⟨_, ⟨?_, fun c hc => hdigits c (List.mem_of_mem_drop hc)⟩, rfl⟩, .inl rfl, by simp⟩
      · intro hnil
        have := congrArg List.length hnil
        simp only [List.length_take, List.length_nil] at this
        omega
      · intro hnil
        have := congrArg List.length hnil
        simp only [List.length_drop, List.length_nil] at this
        omega

/-- A decimal with a power of ten is one digit, further digits behind a point, and the power. -/
theorem isNumber_scientific (hne : d.point ≠ 1) : IsNumber d.scientific := by
  have hne : d.digits ≠ [] := fun hnil => hne (hpoint hnil)
  have hscale : IsScale ('e' :: (toString (d.point - 1)).toList) := by
    refine .inr ?_
    by_cases hneg : d.point - 1 < 0
    · rw [toList_toString_of_neg hneg]
      exact ⟨_, areDigits_toDigits _, .inr rfl⟩
    · rw [toList_toString_of_nonneg (by omega)]
      exact ⟨_, areDigits_toDigits _, .inl rfl⟩
  simp only [scientific]
  split
  · exact ⟨d.digits, [], _, ⟨hne, hdigits⟩, .inl rfl, hscale, by simp⟩
  · rename_i hfraction
    obtain ⟨c, cs, hcs⟩ := List.exists_cons_of_ne_nil hne
    have hrest : cs ≠ [] := by
      intro hnil
      simp [hcs, hnil] at hfraction
    rw [hcs] at hdigits ⊢
    obtain ⟨hc, hcs⟩ := List.forall_mem_cons.mp hdigits
    exact ⟨[c], '.' :: cs, _, ⟨by simp, by simpa using hc⟩, .inr ⟨cs, ⟨hrest, hcs⟩, rfl⟩,
      hscale, by simp⟩

theorem isNumber_text : IsNumber d.text.toList := by
  rw [text, String.toList_ofList]
  split
  · exact isNumber_positional hdigits hpoint
  · rename_i hsmall
    refine isNumber_scientific hdigits hpoint fun hone => ?_
    simp [isPositional, hone] at hsmall

end Offside.ShortDecimal

namespace Offside.Binary64

open Julia

/-- The text of a finite number is one number of the emitted language. -/
theorem isNumber_textWith (infinity : String) (significand : Nat) (exponent : Int) :
    IsNumber ((finite significand exponent).textWith infinity).toList := by
  cases significand with
  | zero =>
    have hzero : IsNumber "0.0".toList :=
      ⟨['0'], ['.', '0'], [], ⟨by simp, by simp⟩, .inr ⟨['0'], ⟨by simp, by simp⟩, rfl⟩,
        .inl rfl, by decide⟩
    exact hzero
  | succ n =>
    exact ShortDecimal.isNumber_text (fun c hc => isDigit_of_mem_shortest hc)
      (point_eq_one_of_shortest (Nat.succ_ne_zero n))

end Offside.Binary64
