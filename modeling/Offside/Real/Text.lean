import Offside.Real.Shortest

/-!
# The text of a number

A number is written with its shortest digits.  From `10 ^ -4` up to `10 ^ 16` it is written out with
at least one digit behind the point; any other number is written as one digit, the further digits
behind a point if there are any, and a power of ten.
-/

namespace Offside

namespace ShortDecimal

/-- The decimal written out, with at least one digit behind the point. -/
def positional (d : ShortDecimal) : List Char :=
  if d.point ≤ 0 then
    ['0', '.'] ++ List.replicate (-d.point).toNat '0' ++ d.digits
  else
    let whole := d.point.toNat
    if d.digits.length ≤ whole then
      d.digits ++ List.replicate (whole - d.digits.length) '0' ++ ['.', '0']
    else d.digits.take whole ++ ['.'] ++ d.digits.drop whole

/-- The decimal as a number with one digit before the point and a power of ten. -/
def scientific (d : ShortDecimal) : List Char :=
  let fraction := d.digits.drop 1
  let mantissa := if fraction.isEmpty then d.digits else d.digits.take 1 ++ ['.'] ++ fraction
  mantissa ++ ['e'] ++ (toString (d.point - 1)).toList

/-- Whether the decimal is written out: it is at least `10 ^ -4` and below `10 ^ 16`. -/
def isPositional (d : ShortDecimal) : Bool :=
  -3 ≤ d.point && d.point ≤ 16

/-- The text of the decimal. -/
def text (d : ShortDecimal) : String :=
  String.ofList (if d.isPositional then d.positional else d.scientific)

end ShortDecimal

namespace Binary64

/-- The text of a number, with `infinity` for the infinite one. -/
def textWith (infinity : String) : Binary64 → String
  | infinite => infinity
  | finite 0 _ => "0.0"
  | finite significand exponent => (shortest significand exponent).text

/-- The text of a number in messages. -/
def text : Binary64 → String := textWith "inf"

end Binary64

end Offside
