import Offside.Real.Binary64

/-!
# Shortest decimals

A binary64 number is written with the fewest decimal digits that denote it.  The decimals that
denote a number fill an interval around it, and for each count of digits only its two neighbours on
the grid of decimals with that many digits can lie nearest to it.  The first grid with a neighbour
in the interval gives the digits; of two neighbours there the nearer is taken, and the upper one
when both are equally near.
-/

namespace Offside

/-- The decimal `0.d₁d₂… * 10 ^ point`, whose first and last digits are not zero. -/
structure ShortDecimal where
  digits : List Char
  point : Int
deriving DecidableEq, Repr, Inhabited

namespace Binary64

/-- A quarter unit in the last place of a number with the given exponent, as a fraction. -/
def quarterUnit (exponent : Int) : Nat × Nat :=
  scaled 1 1 2 (2 - exponent)

/-- Whether `count` quarter units, compared with `decimal * 10 ^ power`, are below it, or equal to
it if `orEqual` is set. -/
def quartersBelow (orEqual : Bool) (unit : Nat × Nat) (count decimal : Nat) (power : Int) : Bool :=
  let (num, den) := scaled (count * unit.1) unit.2 10 power
  num < decimal * den || orEqual && num == decimal * den

/-- Whether `decimal * 10 ^ power`, compared with `count` quarter units, is below them, or equal to
them if `orEqual` is set. -/
def quartersAbove (orEqual : Bool) (unit : Nat × Nat) (count decimal : Nat) (power : Int) : Bool :=
  let (num, den) := scaled (count * unit.1) unit.2 10 power
  decimal * den < num || orEqual && num == decimal * den

/-- Whether `decimal * 10 ^ power` denotes the number `significand * 2 ^ exponent`.  The interval
reaches halfway to the two neighbours of the number, of which the lower one is nearer below a power
of two; its ends belong to it when the significand is even. -/
def denotes (significand : Nat) (exponent : Int) (decimal : Nat) (power : Int) : Bool :=
  let unit := quarterUnit exponent
  let even := significand % 2 == 0
  let below := if significand = Nat.pow 2 (precision - 1) ∧ minExponent < exponent then 1 else 2
  quartersBelow even unit (4 * significand - below) decimal power &&
    quartersAbove even unit (4 * significand + 2) decimal power

/-- The exponent `p` with `10 ^ (p - 1) ≤ significand * 2 ^ exponent < 10 ^ p`.  Every positive
number is at least `10 ^ -340`. -/
def decimalPoint (significand : Nat) (exponent : Int) : Int :=
  let (num, den) := scaled (significand * Nat.pow 10 340) 1 2 (-exponent)
  (decimalLength (num / den) : Int) - 340

/-- The decimal of at most `count` digits nearest to the number, if one of them denotes it. -/
def onGrid? (significand : Nat) (exponent point : Int) (count : Nat) : Option (Nat × Int) :=
  let power := point - count
  let (n, d) := scaled significand 1 2 (-exponent)
  let (num, den) := scaled n d 10 power
  let lower := num / den
  let lowerDenotes := denotes significand exponent lower power
  let upperDenotes := denotes significand exponent (lower + 1) power
  if lowerDenotes && (!upperDenotes || 2 * (num % den) < den) then some (lower, power)
  else if upperDenotes then some (lower + 1, power)
  else none

/-- The shortest decimal that denotes the positive number `significand * 2 ^ exponent`.  Seventeen
digits always suffice. -/
def shortest (significand : Nat) (exponent : Int) : ShortDecimal :=
  let point := decimalPoint significand exponent
  let (decimal, power) :=
    ((List.range' 1 17).findSome? (onGrid? significand exponent point)).getD (0, 0)
  let digits := Nat.toDigits 10 decimal
  ⟨(digits.reverse.dropWhile (· == '0')).reverse, (digits.length : Int) + power⟩

end Binary64

end Offside
