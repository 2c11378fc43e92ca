import Offside.Text.Quoted

/-!
# String literals of the emitted code

Inside a literal, the backslash, the quote and the dollar sign are written behind a backslash, and
control characters are written as escapes.
-/

namespace Offside.Target

/-- Whether a character is a control character. -/
def isControl (c : Char) : Bool :=
  c.toNat < 0x20 || 0x7f ≤ c.toNat && c.toNat < 0xa0

/-- A number below `16 ^ 4` in four hexadecimal digits. -/
def fourDigits (n : Nat) : List Char :=
  let digits := Nat.toDigits 16 n
  List.replicate (4 - digits.length) '0' ++ digits

/-- A character inside a literal. -/
def escapeChar (c : Char) : List Char :=
  match c with
  | '\\' => ['\\', '\\']
  | '"' => ['\\', '"']
  | '$' => ['\\', '$']
  | '\n' => ['\\', 'n']
  | '\t' => ['\\', 't']
  | '\r' => ['\\', 'r']
  | '\x00' => ['\\', '0']
  | c => if isControl c then '\\' :: 'u' :: fourDigits c.toNat else [c]

/-- A text inside a literal. -/
def escapeText (text : String) : String := String.ofList (text.toList.flatMap escapeChar)

end Offside.Target
