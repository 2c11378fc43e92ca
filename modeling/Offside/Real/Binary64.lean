/-!
# Binary64 numbers

The non-negative numbers of the 64-bit binary format, as exact values: a significand of at most 53
bits times a power of two, and the infinity above the largest of them.  A decimal literal denotes
the number nearest to it, and of two equally near ones the one with the even significand.
-/

namespace Offside

/-- A non-negative number of the 64-bit binary format. -/
inductive Binary64
  /-- The number `significand * 2 ^ exponent`. -/
  | finite (significand : Nat) (exponent : Int)
  /-- What every literal beyond the largest finite number denotes. -/
  | infinite
deriving DecidableEq, Repr, Inhabited

namespace Binary64

/-- The number of bits of a full significand. -/
def precision : Nat := 53

/-- The exponent of the smallest positive number. -/
def minExponent : Int := -1074

/-- The exponent of the largest finite number. -/
def maxExponent : Int := 971

/-- The number zero. -/
def zero : Binary64 := finite 0 minExponent

/-- The natural number nearest to `num / den`; a half goes to the even neighbour. -/
def roundHalfEven (num den : Nat) : Nat :=
  let quotient := num / den
  let remainder := num % den
  if 2 * remainder < den then quotient
  else if den < 2 * remainder then quotient + 1
  else quotient + quotient % 2

/-- The fraction `num / den / base ^ exponent`, as a numerator and a denominator. -/
def scaled (num den base : Nat) (exponent : Int) : Nat × Nat :=
  if 0 ≤ exponent then (num, den * Nat.pow base exponent.toNat)
  else (num * Nat.pow base (-exponent).toNat, den)

/-- The greatest `e` with `2 ^ e ≤ num / den`, for positive `num` and `den`. -/
def floorLog2 (num den : Nat) : Int :=
  let estimate : Int := (num.log2 : Int) - (den.log2 : Int)
  let (n, d) := scaled num den 2 estimate
  if n < d then estimate - 1 else estimate

/-- The number nearest to `num / den`. -/
def nearest (num den : Nat) : Binary64 :=
  if num = 0 then zero
  else
    let exponent := max (floorLog2 num den - ((precision : Int) - 1)) minExponent
    let (n, d) := scaled num den 2 exponent
    let significand := roundHalfEven n d
    let (significand, exponent) :=
      if significand = Nat.pow 2 precision then (Nat.pow 2 (precision - 1), exponent + 1)
      else (significand, exponent)
    if maxExponent < exponent then infinite else finite significand exponent

/-- The number of digits of `n` in base ten. -/
def decimalLength (n : Nat) : Nat :=
  (Nat.toDigits 10 n).length

/-- The number nearest to `digits * 10 ^ exponent`.  A value of `10 ^ 310` or more is infinite and
one below `10 ^ -330` is zero, so that no larger power of ten is ever formed. -/
def ofDecimal (digits : Nat) (exponent : Int) : Binary64 :=
  let magnitude := (decimalLength digits : Int) + exponent
  if digits = 0 then zero
  else if 310 < magnitude then infinite
  else if magnitude < -330 then zero
  else
    let (num, den) := scaled digits 1 10 (-exponent)
    nearest num den

end Binary64

end Offside
