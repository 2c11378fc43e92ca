import Offside.Target.Code
import Offside.Token.Number

/-!
# Bounds

Indices of the source count from 0 and ranges of the source leave out their end; in the emitted code
indices count from 1 and ranges hold their end.  A literal bound is converted at once, as long as
the result fits in 64 bits.
-/

namespace Offside.Emit

open Target

/-- What a bound is the bound of. -/
inductive Bound
  /-- An index, or the lower bound of a slice. -/
  | index
  /-- The upper bound of a slice. -/
  | upper
  /-- The upper bound of a slice that runs downwards. -/
  | descendingUpper
deriving DecidableEq, Repr, Inhabited

/-- The literal of a number that fits in 64 bits. -/
def literal64? (value : Int) : Option Code :=
  if -(integerBound : Int) ≤ value ∧ value < integerBound then some (.integer value) else none

/-- The index `distance` places before the last one. -/
def fromLast (distance : Nat) : Code :=
  if distance = 0 then .lastIndex else .chain .lastIndex [(.minus, .integer distance)]

/-- A literal bound in the emitted code. -/
def Bound.fold? (value : Int) : Bound → Option Code
  | index => if 0 ≤ value then literal64? (value + 1) else some (fromLast (value + 1).natAbs)
  | upper => if 0 ≤ value then some (.integer (value - 1)) else some (fromLast value.natAbs)
  | descendingUpper =>
    if 0 ≤ value then literal64? (value + 2)
    else if value = -1 then some (.chain .lastIndex [(.plus, .integer 1)])
    else some (fromLast (value.natAbs - 2))

/-- A bound that is not a literal, in the emitted code. -/
def Bound.shift (operand : Code) : Bound → Code
  | index => .chain operand [(.plus, .integer 1)]
  | upper => .chain operand [(.minus, .integer 1)]
  | descendingUpper => .chain operand [(.plus, .integer 2)]

/-- The last value before a literal end of a range that runs upwards or downwards. -/
def foldLast? (descending : Bool) (stop : Int) : Option Code :=
  literal64? (if descending then stop + 1 else stop - 1)

/-- The last value before the end of a range that runs upwards or downwards. -/
def shiftLast (descending : Bool) (operand : Code) : Code :=
  .group (.chain operand [(if descending then .plus else .minus, .integer 1)])

end Offside.Emit
