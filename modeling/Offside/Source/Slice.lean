import Offside.Source.Location

/-!
# Slices by byte offsets

A text can be cut at the offsets where a character starts.  A cut anywhere else is refused.
-/

namespace Offside

/-- `text` without its first `n` bytes, when they end between two characters. -/
def dropBytes? : Nat → List Char → Option (List Char)
  | 0, text => some text
  | _ + 1, [] => none
  | n + 1, c :: text => if c.utf8Size ≤ n + 1 then dropBytes? (n + 1 - c.utf8Size) text else none

/-- The first `n` bytes of `text`, when they end between two characters. -/
def takeBytes? : Nat → List Char → Option (List Char)
  | 0, _ => some []
  | _ + 1, [] => none
  | n + 1, c :: text =>
    if c.utf8Size ≤ n + 1 then (takeBytes? (n + 1 - c.utf8Size) text).map (c :: ·) else none

/-- The bytes of `text` from offset `start` up to `stop`, when both fall between two characters. -/
def slice? (text : List Char) (start stop : Nat) : Option (List Char) :=
  if start ≤ stop then (dropBytes? start text).bind (takeBytes? (stop - start)) else none

/-- Dropping the bytes of an initial part leaves what follows it. -/
theorem dropBytes?_append (text more : List Char) :
    dropBytes? (byteLength text) (text ++ more) = some more := by
  induction text with
  | nil => simp [dropBytes?]
  | cons c text ih =>
    have hc := c.utf8Size_pos
    obtain ⟨n, hn⟩ : ∃ n, byteLength (c :: text) = n + 1 :=
      ⟨c.utf8Size + byteLength text - 1, by simp; omega⟩
    rw [hn, List.cons_append, dropBytes?, ← hn]
    simp [ih]

/-- Taking the bytes of an initial part gives that part. -/
theorem takeBytes?_append (text more : List Char) :
    takeBytes? (byteLength text) (text ++ more) = some text := by
  induction text with
  | nil => simp [takeBytes?]
  | cons c text ih =>
    have hc := c.utf8Size_pos
    obtain ⟨n, hn⟩ : ∃ n, byteLength (c :: text) = n + 1 :=
      ⟨c.utf8Size + byteLength text - 1, by simp; omega⟩
    rw [hn, List.cons_append, takeBytes?, ← hn]
    simp [ih]

/-- The slice between two offsets of a text is the part that lies there. -/
theorem slice?_append (before text after : List Char) :
    slice? (before ++ text ++ after) (byteLength before) (byteLength before + byteLength text) =
      some text := by
  simp [slice?, List.append_assoc, dropBytes?_append, takeBytes?_append]

end Offside
