import Offside.Event
import Offside.Text.Quoted

/-!
# The log

An entry of the log has a level, a message, and fields behind it.  How much is shown is chosen by a
least level.  A message is shown without the controls that a terminal would obey; fields are shown
as they are.
-/

namespace Offside

namespace Log

/-- The levels of the entries, the gravest first. -/
inductive Level
  | error
  | warn
  | info
  | debug
deriving DecidableEq, Repr, Inhabited

namespace Level

/-- The rank of a level: graver levels have lower ranks. -/
def rank : Level → Nat
  | error => 1
  | warn => 2
  | info => 3
  | debug => 4

/-- The name of a level. -/
def name : Level → String
  | error => "ERROR"
  | warn => "WARN"
  | info => "INFO"
  | debug => "DEBUG"

end Level

/-- An entry of the log. -/
structure Entry where
  level : Level
  message : String
  fields : List (String × String) := []
deriving DecidableEq, Repr, Inhabited

/-- The low controls that a terminal obeys: bell, backspace, form feed, escape and delete. -/
def terminalControls : List Char := ['\x07', '\x08', '\x0c', '\x1b', '\x7f']

/-- A character of a message.  A control that a terminal obeys is shown by its code point: a low one
with two digits, one of the high block from `0x80` to `0x9F` between braces. -/
def plainChar (c : Char) : String :=
  if terminalControls.contains c then
    "\\x" ++ (if c.toNat < 16 then "0" else "") ++ Text.hexDigits c.toNat
  else if 0x80 ≤ c.toNat ∧ c.toNat ≤ 0x9F then "\\u\x7b" ++ Text.hexDigits c.toNat ++ "\x7d"
  else c.toString

/-- A message as it is shown. -/
def plainText (message : String) : String := String.join (message.toList.map plainChar)

/-- The text of an entry. -/
def Entry.text (e : Entry) : String :=
  " ".intercalate
    (e.level.name :: plainText e.message :: e.fields.map fun field => field.1 ++ "=" ++ field.2)

/-- An optional name as a field. -/
def optionText : Option String → String
  | none => "None"
  | some name => "Some(" ++ Text.quotedText name ++ ")"

/-- The entry that reports an event. -/
def Entry.ofEvent : Event → Entry
  | .tokenized count => ⟨.debug, "tokenized source", [("count", toString count)]⟩
  | .registering name superclass attributes =>
    ⟨.debug, "registered class", [("class", Text.quotedText name),
      ("superclass", optionText superclass), ("attributes", toString attributes)]⟩
  | .parsed statements classes =>
    ⟨.debug, "parsed program",
      [("statements", toString statements), ("classes", toString classes)]⟩
  | .lowering name fields methods =>
    ⟨.debug, "lowering class",
      [("class", name), ("fields", toString fields), ("methods", toString methods)]⟩

/-- The texts of the entries that are shown when the least level shown has the given rank. -/
def shown (rank : Nat) (entries : List Entry) : List String :=
  (entries.filter fun e => e.level.rank ≤ rank).map Entry.text

end Log

end Offside
