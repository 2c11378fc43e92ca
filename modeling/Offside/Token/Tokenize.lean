import Offside.Token.Scanner

/-!
# The tokens of a text
-/

namespace Offside

/-- Reads tokens up to the end of input, and at most `bound` of them. -/
def Scanner.tokens : (bound : Nat) → (atLineStart pendingDedent : Bool) → Scan (List Token)
  | 0, _, _ => pure []
  | bound + 1, atLineStart, pendingDedent => do
    let token ← next atLineStart pendingDedent
    if token.kind.isEnd then return [token]
    return token :: (← tokens bound token.kind.isNewline token.kind.isDedent)

/-- The tokens of a text, with the end of input as the last of them, and the names met.  The names
met before an error are kept.  A character yields at most one token, a line two more for its start
and its end, and each of them takes something from the text. -/
def tokenize (text : String) (names : NameTable := {}) :
    Except LexicalError (List Token) × NameTable :=
  match Scanner.tokens (2 * text.length + 3) true false (.ofText text names) with
  | .ok tokens s => (.ok tokens, s.names)
  | .error e s => (.error e, s.names)

end Offside
