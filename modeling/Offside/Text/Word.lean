import Offside.Text.Letter
import Offside.Text.Numeric

/-!
# Words

A word starts with a letter or an underscore and goes on with letters, numeric characters and
underscores.
-/

namespace Offside.Text

/-- A letter or a numeric character. -/
def isAlphanumeric (c : Char) : Bool :=
  isLetter c || isNumeric c

/-- The characters a word can start with. -/
def isWordStart (c : Char) : Bool :=
  isLetter c || c == '_'

/-- The characters a word can go on with. -/
def isWordPart (c : Char) : Bool :=
  isAlphanumeric c || c == '_'

theorem isWordPart_of_isWordStart {c : Char} (h : isWordStart c = true) : isWordPart c = true := by
  simp only [isWordStart, isWordPart, isAlphanumeric, Bool.or_eq_true] at h ⊢
  exact h.imp_left Or.inl

end Offside.Text
