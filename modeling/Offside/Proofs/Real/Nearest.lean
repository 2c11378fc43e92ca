import Mathlib.Algebra.Order.Field.Power
import Mathlib.Data.Rat.Cast.Order
import Mathlib.Tactic.FieldSimp
import Mathlib.Tactic.Linarith
import Offside.Real.Binary64

/-!
# The nearest number

The number that a decimal literal denotes is the nearest one of the format, and of two equally near
ones the one with the even significand (`rounds_ofDecimal`).
-/

namespace Offside.Binary64

/-- The value of a significand and an exponent. -/
def value (significand : Nat) (exponent : Int) : ℚ := significand * 2 ^ exponent

/-- A number of the format, were there no greatest exponent.  Its significand is full unless its
exponent is the least. -/
structure IsNormal (significand : Nat) (exponent : Int) : Prop where
  lt : significand < 2 ^ 53
  le : minExponent ≤ exponent
  full : exponent = minExponent ∨ 2 ^ 52 ≤ significand

/-- A number of the format to which no other one is nearer.  If another one is as near, the
significand is even. -/
structure IsNearest (x : ℚ) (significand : Nat) (exponent : Int) : Prop
    extends IsNormal significand exponent where
  nearest {s : Nat} {e : Int} (h : IsNormal s e) :
    |x - value significand exponent| ≤ |x - value s e| ∧
      (value s e ≠ value significand exponent →
        |x - value significand exponent| = |x - value s e| → significand % 2 = 0)

/-- What `x` is rounded to: the nearest number, or the infinity if its exponent is too great. -/
def Rounds (x : ℚ) : Binary64 → Prop
  | finite significand exponent => exponent ≤ maxExponent ∧ IsNearest x significand exponent
  | infinite => ∃ significand exponent, maxExponent < exponent ∧ IsNearest x significand exponent

/-! ## Integral quotients -/

/-- A quotient is rounded by a half at most, and by a half to even numbers only. -/
theorem roundHalfEven_near (num : Nat) {den : Nat} (hden : 0 < den) :
    |(num / den : ℚ) - roundHalfEven num den| ≤ 1 / 2 ∧
      (|(num / den : ℚ) - roundHalfEven num den| = 1 / 2 → roundHalfEven num den % 2 = 0) := by
  have hd : (0 : ℚ) < den := Nat.cast_pos.mpr hden
  obtain ⟨r, hr⟩ : ∃ r : ℚ, r = (num % den : Nat) / den := ⟨_, rfl⟩
  have hsum : (num / den : ℚ) = (num / den : Nat) + r := by
    rw [hr]
    field_simp
    exact_mod_cast (Nat.div_add_mod num den).symm
  have hlow : r < 1 / 2 ↔ 2 * (num % den) < den := by
    rw [hr, div_lt_div_iff₀ hd two_pos, one_mul, mul_comm]
    exact_mod_cast Iff.rfl
  have hhigh : 1 / 2 < r ↔ den < 2 * (num % den) := by
    rw [hr, div_lt_div_iff₀ two_pos hd, one_mul, mul_comm]
    exact_mod_cast Iff.rfl
  have hnonneg : 0 ≤ r := hr ▸ div_nonneg (Nat.cast_nonneg _) hd.le
  have hless : r < 1 := by
    rw [hr, div_lt_one₀ hd]
    exact_mod_cast Nat.mod_lt num hden
  rw [hsum, roundHalfEven]
  split
  · have hhalf := hlow.mpr ‹_›
    rw [add_sub_cancel_left, abs_of_nonneg hnonneg]
    exact ⟨hhalf.le, fun h => absurd h hhalf.ne⟩
  · split
    · have hhalf := hhigh.mpr ‹_›
      rw [Nat.cast_succ, add_sub_add_left_eq_sub, abs_of_neg (sub_neg.mpr hless)]
      exact ⟨by linarith, fun h => by linarith⟩
    · have hhalf : r = 1 / 2 :=
        le_antisymm (not_lt.mp (mt hhigh.mp ‹_›)) (not_lt.mp (mt hlow.mp ‹_›))
      rw [Nat.cast_add, add_sub_add_left_eq_sub, hhalf]
      refine ⟨?_, fun _ => by omega⟩
      rcases Nat.mod_two_eq_zero_or_one (num / den) with h | h <;> rw [h] <;> norm_num

/-- No integer is nearer than one that is a half away at most. -/
theorem near_of_half {t : ℚ} {q : Nat} (hq : |t - q| ≤ 1 / 2) (m : Nat) :
    |t - q| ≤ |t - m| ∧ (m ≠ q → |t - q| = |t - m| → |t - q| = 1 / 2) := by
  by_cases hm : m = q
  · rw [hm]
    exact ⟨le_rfl, fun h => absurd rfl h⟩
  have hone : (1 : ℚ) ≤ |(q : ℚ) - m| := by
    exact_mod_cast Int.one_le_abs (sub_ne_zero.mpr fun h : (q : Int) = m => hm (by omega))
  have htri := abs_sub_le (q : ℚ) t m
  rw [abs_sub_comm (q : ℚ) t] at htri
  exact ⟨by linarith, fun _ h => by linarith⟩

/-! ## Powers -/

/-- A scaled fraction is divided by the power. -/
theorem scaled_spec (num : Nat) {den base : Nat} (hden : 0 < den) (hbase : 0 < base) (e : Int) :
    0 < (scaled num den base e).2 ∧
      ((scaled num den base e).1 / (scaled num den base e).2 : ℚ) = num / den / base ^ e := by
  unfold scaled
  split
  · obtain ⟨n, rfl⟩ := Int.eq_ofNat_of_zero_le ‹0 ≤ e›
    exact ⟨Nat.mul_pos hden (Nat.pow_pos hbase), by simp [div_div]⟩
  · obtain ⟨n, rfl⟩ : ∃ n : Nat, e = -n := ⟨(-e).toNat, by omega⟩
    exact ⟨hden, by simp [div_mul_eq_mul_div]⟩

/-- A fraction lies between two powers of two. -/
theorem floorLog2_spec {num den : Nat} (hnum : num ≠ 0) (hden : 0 < den) :
    (2 : ℚ) ^ floorLog2 num den ≤ num / den ∧ (num / den : ℚ) < 2 ^ (floorLog2 num den + 1) := by
  have hlow {n : Nat} (h : n ≠ 0) : (2 : ℚ) ^ (n.log2 : Int) ≤ n := by
    exact_mod_cast Nat.log2_self_le h
  have hhigh (n : Nat) : (n : ℚ) < 2 ^ (n.log2 + 1 : Int) := by exact_mod_cast Nat.lt_log2_self
  have hd : (0 : ℚ) < den := Nat.cast_pos.mpr hden
  have hbelow := div_lt_div₀' (hlow hnum) (hhigh den) (by positivity) hd
  have habove := div_lt_div₀ (hhigh num) (hlow hden.ne') (by positivity) (by positivity)
  rw [← zpow_sub₀ two_ne_zero] at hbelow habove
  obtain ⟨hpos, hscaled⟩ := scaled_spec num hden two_pos (num.log2 - den.log2)
  have hiff : (scaled num den 2 (num.log2 - den.log2)).1 <
      (scaled num den 2 (num.log2 - den.log2)).2 ↔
      (num / den : ℚ) < 2 ^ ((num.log2 : Int) - den.log2) := by
    rw [← Nat.cast_lt (α := ℚ), ← div_lt_one₀ (Nat.cast_pos.mpr hpos), hscaled, Nat.cast_two,
      div_lt_one₀ (by positivity)]
  unfold floorLog2
  dsimp only
  split
  · rw [sub_add_cancel]
    rw [← sub_sub] at hbelow
    exact ⟨hbelow.le, hiff.mp ‹_›⟩
  · rw [add_sub_right_comm] at habove
    exact ⟨not_lt.mp (mt hiff.mpr ‹_›), habove⟩

/-! ## Numbers of the format -/

theorem value_eq_of_le (s : Nat) {e e' : Int} (h : e ≤ e') :
    value s e' = value (s * 2 ^ (e' - e).toNat) e := by
  rw [value, value, Nat.cast_mul, Nat.cast_pow, mul_assoc, Nat.cast_two, ← zpow_natCast,
    ← zpow_add₀ two_ne_zero]
  congr 2
  omega

theorem IsNormal.value_lt {s : Nat} {e e' : Int} (h : IsNormal s e) (he : e < e') :
    value s e < value (2 ^ 52) e' := by
  have hpow : 2 ^ 1 ≤ 2 ^ (e' - e).toNat := Nat.pow_le_pow_right (by decide) (by omega)
  have hless : s < 2 ^ 52 * 2 ^ (e' - e).toNat := by
    have := h.lt
    omega
  rw [value_eq_of_le _ he.le, value, value]
  gcongr

section

variable {t : ℚ} {e : Int} {q : Nat} (hlow : e = minExponent ∨ ((2 ^ 52 : Nat) : ℚ) ≤ t)
  (hq : |t - q| ≤ 1 / 2) (heven : |t - q| = 1 / 2 → q % 2 = 0)
include hlow hq heven

/-- Rounding to a multiple of `2 ^ e` is rounding to the format if `e` is the least exponent or a
full significand is rounded. -/
theorem nearest_of_half {s : Nat} {e' : Int} (h : IsNormal s e') :
    |t * 2 ^ e - value q e| ≤ |t * 2 ^ e - value s e'| ∧
      (value s e' ≠ value q e →
        |t * 2 ^ e - value q e| = |t * 2 ^ e - value s e'| → q % 2 = 0) := by
  have hpos : (0 : ℚ) < 2 ^ e := by positivity
  have hscale (m : Nat) : |t * 2 ^ e - value m e| = |t - m| * 2 ^ e := by
    rw [value, ← sub_mul, abs_mul, abs_of_pos hpos]
  by_cases he : e ≤ e'
  · obtain ⟨hle, htie⟩ := near_of_half hq (s * 2 ^ (e' - e).toNat)
    rw [value_eq_of_le s he, hscale, hscale]
    refine ⟨by gcongr, fun hne hsame => heven (htie ?_ (mul_right_cancel₀ hpos.ne' hsame))⟩
    exact fun hm => hne (by rw [hm])
  · -- the other number is below the least full significand, which is no nearer
    have hfull := hlow.resolve_left fun hmin => he (hmin ▸ h.le)
    have hnear := mul_le_mul_of_nonneg_right (near_of_half hq (2 ^ 52)).1 hpos.le
    rw [← hscale, abs_of_nonneg (sub_nonneg.mpr hfull), sub_mul, ← value] at hnear
    have hlt : |t * 2 ^ e - value q e| < |t * 2 ^ e - value s e'| := by
      have hless := h.value_lt (not_le.mp he)
      have hself := le_abs_self (t * 2 ^ e - value s e')
      linarith
    exact ⟨hlt.le, fun _ hsame => absurd hsame hlt.ne⟩

/-- A significand that is rounded up to one bit more is carried into the exponent. -/
theorem isNearest_of_half (hmin : minExponent ≤ e) (hhigh : t < (2 ^ 53 : Nat))
    (result : Nat × Int)
    (h : (if q = Nat.pow 2 precision then (Nat.pow 2 (precision - 1), e + 1) else (q, e)) =
      result) : IsNearest (t * 2 ^ e) result.1 result.2 := by
  have hnearest {s : Nat} {e' : Int} (h : IsNormal s e') := nearest_of_half hlow hq heven h
  obtain ⟨hbelow, habove⟩ := abs_le.mp hq
  by_cases htop : q = Nat.pow 2 precision
  · rw [if_pos htop] at h
    subst h htop
    have hsame : value (Nat.pow 2 (precision - 1)) (e + 1) = value (Nat.pow 2 precision) e := by
      rw [value_eq_of_le _ (Int.le_add_one le_rfl), add_sub_cancel_left]
      rfl
    refine ⟨⟨Nat.pow_lt_pow_right (by decide) (by decide), by omega, .inr le_rfl⟩, fun h => ?_⟩
    rw [hsame]
    exact ⟨(hnearest h).1, fun _ _ => Nat.pow_mod 2 52 2⟩
  · rw [if_neg htop] at h
    subst h
    have hless : (q : ℚ) < (2 ^ 53 : Nat) + 1 := by linarith
    have hle : q ≤ 2 ^ 53 := Nat.lt_succ_iff.mp (by exact_mod_cast hless)
    refine ⟨⟨lt_of_le_of_ne hle htop, hmin, hlow.imp_right fun h => ?_⟩, hnearest⟩
    have hmore : ((2 ^ 52 : Nat) : ℚ) < q + 1 := by linarith
    exact Nat.lt_succ_iff.mp (by exact_mod_cast hmore)

end

variable {x : ℚ}

/-- Half of the smallest positive number and less is rounded to zero. -/
theorem rounds_zero (h0 : 0 ≤ x) (hx : x ≤ 2 ^ (minExponent - 1)) : Rounds x zero := by
  have hhalf : x / 2 ^ minExponent ≤ 1 / 2 := by
    rw [zpow_sub_one₀ two_ne_zero] at hx
    rw [div_le_iff₀ (by positivity)]
    linarith
  have hq : |x / 2 ^ minExponent - (0 : Nat)| ≤ 1 / 2 := by
    rwa [Nat.cast_zero, sub_zero, abs_of_nonneg (div_nonneg h0 (by positivity))]
  have hnearest {s : Nat} {e : Int} (h : IsNormal s e) :=
    nearest_of_half (.inl rfl) hq (fun _ => rfl) h
  rw [div_mul_cancel₀ _ (by positivity)] at hnearest
  exact ⟨by decide, ⟨by decide, le_rfl, .inl rfl⟩, hnearest⟩

/-- The first power of two beyond the format and more is rounded to the infinity. -/
theorem Rounds.infinite {b : Binary64} (h : Rounds x b) (hx : 2 ^ (maxExponent + 53) ≤ x) :
    Rounds x .infinite := by
  cases b with
  | infinite => exact h
  | finite s e =>
    have hvalue : value (2 ^ 52) (maxExponent + 1) = 2 ^ (maxExponent + 53) := by
      rw [value, Nat.cast_pow, Nat.cast_two, ← zpow_natCast, ← zpow_add₀ two_ne_zero]
      rfl
    have hless := h.2.value_lt (Int.lt_add_one_of_le h.1)
    have hle := (h.2.nearest (s := 2 ^ 52) (e := maxExponent + 1)
      ⟨by decide, by decide, .inr le_rfl⟩).1
    rw [hvalue] at hless hle
    rw [abs_of_nonneg (sub_nonneg.mpr hx), abs_of_nonneg (by linarith)] at hle
    linarith

/-- A fraction is rounded to the nearest number. -/
theorem rounds_nearest (num : Nat) {den : Nat} (hden : 0 < den) :
    Rounds (num / den) (nearest num den) := by
  unfold nearest
  by_cases hnum : num = 0
  · rw [if_pos hnum, hnum]
    exact rounds_zero (by simp) (by simp; positivity)
  rw [if_neg hnum]
  obtain ⟨hfloor, hceil⟩ := floorLog2_spec hnum hden
  generalize hexponent : max (floorLog2 num den - ((precision : Int) - 1)) minExponent = e
  simp only [precision] at hexponent
  have hlow : e = minExponent ∨ ((2 ^ 52 : Nat) : ℚ) ≤ num / den / 2 ^ e := by
    refine (le_or_gt e minExponent).imp (fun h => by omega) fun h => ?_
    rw [(by omega : floorLog2 num den = 52 + e), zpow_add₀ two_ne_zero] at hfloor
    exact (le_div_iff₀ (by positivity)).mpr (by exact_mod_cast hfloor)
  have hhigh : (num / den / 2 ^ e : ℚ) < (2 ^ 53 : Nat) := by
    have hless := hceil.trans_le
      (zpow_le_zpow_right₀ one_le_two (by omega : floorLog2 num den + 1 ≤ 53 + e))
    rw [zpow_add₀ two_ne_zero] at hless
    exact (div_lt_iff₀ (by positivity)).mpr (by exact_mod_cast hless)
  obtain ⟨hpos, hscaled⟩ := scaled_spec num hden two_pos e
  obtain ⟨hq, heven⟩ := roundHalfEven_near (scaled num den 2 e).1 hpos
  rw [hscaled, Nat.cast_two] at hq heven
  have hnearest := isNearest_of_half hlow hq heven (by omega) hhigh
  rw [div_mul_cancel₀ _ (by positivity)] at hnearest
  dsimp only
  generalize hresult : (if roundHalfEven _ _ = _ then _ else _) = result
  split
  · exact ⟨_, _, ‹_›, hnearest _ hresult⟩
  · exact ⟨not_lt.mp ‹_›, hnearest _ hresult⟩

theorem two_zpow_le {m n : Nat} (h : 2 ^ m ≤ 10 ^ n) : (2 : ℚ) ^ (m : Int) ≤ 10 ^ (n : Int) := by
  exact_mod_cast h

/-- The digits of a number tell between which powers of ten it lies. -/
theorem decimalLength_spec {n : Nat} (h : n ≠ 0) :
    (10 : ℚ) ^ ((decimalLength n : Int) - 1) ≤ n ∧ (n : ℚ) < 10 ^ (decimalLength n : Int) := by
  have hiff {k : Nat} (hk : 0 < k) : decimalLength n ≤ k ↔ n < 10 ^ k :=
    Nat.length_toDigits_le_iff (by decide) hk
  obtain ⟨k, hk⟩ : ∃ k, decimalLength n = k + 1 :=
    Nat.exists_eq_succ_of_ne_zero Nat.length_toDigits_pos.ne'
  have hle : 10 ^ k ≤ n := by
    rcases Nat.eq_zero_or_pos k with rfl | hpos
    · exact Nat.pos_of_ne_zero h
    · exact not_lt.mp fun hless => absurd ((hiff hpos).mpr hless) (by omega)
  rw [hk, Nat.cast_succ, add_sub_cancel_right]
  exact ⟨by exact_mod_cast hle, by exact_mod_cast (hiff k.succ_pos).mp hk.le⟩

/-- A decimal literal denotes the nearest number. -/
theorem rounds_ofDecimal (digits : Nat) (exponent : Int) :
    Rounds (digits * 10 ^ exponent) (ofDecimal digits exponent) := by
  obtain ⟨hpos, hscaled⟩ := scaled_spec digits one_pos (by decide : 0 < 10) (-exponent)
  have hrounds := rounds_nearest (scaled digits 1 10 (-exponent)).1 hpos
  rw [hscaled, Nat.cast_one, div_one, zpow_neg, div_inv_eq_mul, Nat.cast_ofNat] at hrounds
  unfold ofDecimal
  by_cases hdigits : digits = 0
  · rw [if_pos hdigits, hdigits]
    exact rounds_zero (by simp) (by simp; positivity)
  rw [if_neg hdigits]
  obtain ⟨hlow, hhigh⟩ := decimalLength_spec hdigits
  have hten {m n : Int} (h : m ≤ n) : (10 : ℚ) ^ m ≤ 10 ^ n := zpow_le_zpow_right₀ (by norm_num) h
  have hpos : (0 : ℚ) < 10 ^ exponent := by positivity
  dsimp only
  split
  · have hlow := mul_le_mul_of_nonneg_right hlow hpos.le
    rw [← zpow_add₀ (by norm_num)] at hlow
    have hle : (2 : ℚ) ^ ((1024 : Nat) : Int) ≤ 10 ^ ((310 : Nat) : Int) :=
      two_zpow_le (by decide +kernel)
    exact hrounds.infinite (hle.trans ((hten (by omega)).trans hlow))
  split
  · have hhigh := mul_lt_mul_of_pos_right hhigh hpos
    rw [← zpow_add₀ (by norm_num)] at hhigh
    have hle : (10 : ℚ) ^ (-((331 : Nat) : Int)) ≤ 2 ^ (-((1075 : Nat) : Int)) := by
      rw [zpow_neg, zpow_neg]
      exact inv_anti₀ (by positivity) (two_zpow_le (by decide +kernel))
    exact rounds_zero (by positivity) (hhigh.le.trans ((hten (by omega)).trans hle))
  · exact hrounds

end Offside.Binary64
