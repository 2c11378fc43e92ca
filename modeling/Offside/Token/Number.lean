import Offside.Error
import Offside.Source.Cursor
import Offside.Text.Word
import Offside.Token.Basic

/-!
# Number literals

A number starts with a run of digits, which has no superfluous leading zero.  A fraction and an
exponent may follow; with either of them the number is a float, and an integer below `2 ^ 63`
otherwise.  No part of a word may stand directly behind it.
-/

namespace Offside

/-- The outcome of reading at a cursor, and the cursor where the reading stopped. -/
abbrev Scanned (α : Type) := Except LexicalError α × Cursor

/-- The value of a run of decimal digits. -/
def digitsValue (digits : List Char) : Nat :=
  digits.foldl (fun value d => 10 * value + (d.toNat - '0'.toNat)) 0

/-- The integers of the language lie below this bound. -/
def integerBound : Nat := Nat.pow 2 63

/-- Reads the digits behind a point, if a point follows. -/
def scanFraction (c : Cursor) : Scanned (Option (List Char)) :=
  if c.peek = some '.' then
    if c.peekSecond.any Char.isDigit then
      let (digits, next) := c.skip.run Char.isDigit
      (.ok (some digits), next)
    else (.error ⟨.missingFractionDigits, c.location⟩, c)
  else (.ok none, c)

/-- Whether a character is a sign. -/
def isSign (d : Char) : Bool := d == '+' || d == '-'

/-- Reads a power of ten, if one follows. -/
def scanExponent (c : Cursor) : Scanned (Option Int) :=
  if c.peek = some 'e' ∨ c.peek = some 'E' then
    if c.peekSecond.any Char.isDigit then
      let (digits, next) := c.skip.run Char.isDigit
      (.ok (some (digitsValue digits)), next)
    else if c.peekSecond.any isSign ∧ c.peekThird.any Char.isDigit then
      let (digits, next) := (c.skipMany 2).run Char.isDigit
      let value : Int := digitsValue digits
      (.ok (some (if c.peekSecond = some '-' then -value else value)), next)
    else (.error ⟨.missingExponentDigits, c.location⟩, c)
  else (.ok none, c)

/-- The kind of a number that is spelled by its parts. -/
def numberKind (start : Location) (whole : List Char) (fraction : Option (List Char))
    (exponent : Option Int) : Except LexicalError Kind :=
  if fraction.isNone && exponent.isNone then
    if digitsValue whole < integerBound then .ok (.integer (digitsValue whole))
    else .error ⟨.integerOutOfRange (String.ofList whole), start⟩
  else
    let decimals := fraction.getD []
    .ok (.float (.ofDecimal (digitsValue (whole ++ decimals))
      (exponent.getD 0 - decimals.length)))

/-- Reads a number at a digit. -/
def scanNumber (c : Cursor) : Scanned Kind :=
  let (whole, afterWhole) := c.run Char.isDigit
  if 1 < whole.length ∧ whole.head? = some '0' then (.error ⟨.leadingZero, c.location⟩, afterWhole)
  else
    match scanFraction afterWhole with
    | (.error e, next) => (.error e, next)
    | (.ok fraction, afterFraction) =>
      match scanExponent afterFraction with
      | (.error e, next) => (.error e, next)
      | (.ok exponent, next) =>
        match next.peek.filter Text.isWordPart with
        | some d => (.error ⟨.invalidNumberSuffix d, next.location⟩, next)
        | none => (numberKind c.location whole fraction exponent, next)

end Offside
