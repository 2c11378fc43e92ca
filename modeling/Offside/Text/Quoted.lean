import Offside.Text.Extending
import Offside.Text.Hidden

/-!
# Quoted characters and words

How a character or a word is shown inside a message: between quotes, with an escape for whatever
would not be seen or would end the quotes.
-/

namespace Offside.Text

/-- The digits of a code point in base sixteen, without leading zeros. -/
def hexDigits (n : Nat) : String :=
  String.ofList (Nat.toDigits 16 n)

/-- The text that shows `c` between two `quote` characters. -/
def shown (quote c : Char) : String :=
  if c = '\x00' then "\\0"
  else if c = '\t' then "\\t"
  else if c = '\r' then "\\r"
  else if c = '\n' then "\\n"
  else if c = '\\' || c = quote then "\\" ++ c.toString
  else if isExtending c || isHidden c then "\\u\x7b" ++ hexDigits c.toNat ++ "\x7d"
  else c.toString

/-- A single character between single quotes. -/
def quotedChar (c : Char) : String :=
  "'" ++ shown '\'' c ++ "'"

/-- A text between double quotes. -/
def quotedText (text : String) : String :=
  "\"" ++ String.join (text.toList.map (shown '"')) ++ "\""

end Offside.Text
