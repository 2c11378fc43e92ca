import Offside.Source.Slice

/-!
# Cursors

A cursor is a place in a source text: what is left to read, and the location it starts at.  Moving
a cursor forward keeps the two in step.  A newline sequence is passed in one step and is reported as
a line feed, whichever of the three it is.
-/

namespace Offside

/-- The text that is left to read and its location. -/
structure Cursor where
  rest : List Char
  location : Location := {}
deriving DecidableEq, Repr, Inhabited

namespace Cursor

/-- A cursor at the beginning of a text. -/
def ofText (text : String) : Cursor where
  rest := text.toList

/-- A cursor at a given location of a text.  Nothing is left to read at an offset past the end or
inside a character. -/
def startingAt (text : String) (location : Location) : Cursor where
  rest := (dropBytes? location.offset.toNat text.toList).getD []
  location := location

/-- The next character. -/
def peek (c : Cursor) : Option Char := c.rest[0]?

/-- The character after the next. -/
def peekSecond (c : Cursor) : Option Char := c.rest[1]?

/-- The character after those two. -/
def peekThird (c : Cursor) : Option Char := c.rest[2]?

/-- Whether the cursor stands before a newline sequence. -/
def atNewline (c : Cursor) : Bool := c.peek.any isNewline

/-- One step: the character passed, and the cursor behind it. -/
def advance (c : Cursor) : Option (Char × Cursor) :=
  match c.rest with
  | [] => none
  | '\r' :: '\n' :: rest => some ('\n', ⟨rest, c.location.nextLine 2⟩)
  | d :: rest =>
    if isNewline d then some ('\n', ⟨rest, c.location.nextLine 1⟩)
    else some (d, ⟨rest, c.location.along [d]⟩)

/-- The cursor one step on; at the end of the text it stays. -/
def skip (c : Cursor) : Cursor :=
  (c.advance.map Prod.snd).getD c

/-- The cursor some steps on. -/
def skipMany : Nat → Cursor → Cursor
  | 0, c => c
  | n + 1, c => skipMany n c.skip

/-- Passes the next character if it is `d`. -/
def eat (c : Cursor) (d : Char) : Bool × Cursor :=
  if c.peek = some d then (true, c.skip) else (false, c)

/-- The longest run of characters with the property `p`, which no newline has, and the cursor behind
it. -/
def run (p : Char → Bool) (c : Cursor) : List Char × Cursor :=
  let text := c.rest.takeWhile p
  (text, ⟨c.rest.dropWhile p, c.location.along text⟩)

/-- The text between the offset `start` of a source and the cursor, or nothing when that is no slice
of the source. -/
def textFrom (c : Cursor) (source : String) (start : Nat) : String :=
  String.ofList ((slice? source.toList start c.location.offset.toNat).getD [])

theorem advance_eq_none_iff (c : Cursor) : c.advance = none ↔ c.rest = [] := by
  rw [advance]
  split
  · simp_all
  · simp_all
  · split <;> simp_all

/-- A step leaves less to read. -/
theorem length_lt_of_advance {c next : Cursor} {d : Char} (h : c.advance = some (d, next)) :
    next.rest.length < c.rest.length := by
  rw [advance] at h
  split at h
  · simp at h
  · rename_i hr
    obtain ⟨-, rfl⟩ := by simpa using h
    simp only [hr, List.length_cons]
    omega
  · rename_i hr
    split at h
    · obtain ⟨-, rfl⟩ := by simpa using h
      simp [hr]
    · obtain ⟨-, rfl⟩ := by simpa using h
      simp [hr]

/-- A step away from the end leaves less to read. -/
theorem length_skip_lt {c : Cursor} {d : Char} (h : c.peek = some d) :
    c.skip.rest.length < c.rest.length := by
  rw [skip]
  cases ha : c.advance with
  | none =>
    rw [advance_eq_none_iff] at ha
    simp [peek, ha] at h
  | some p => exact length_lt_of_advance ha

theorem length_skip_le (c : Cursor) : c.skip.rest.length ≤ c.rest.length := by
  cases h : c.peek with
  | none =>
    have hr : c.rest = [] := by simpa [peek] using h
    simp [skip, (advance_eq_none_iff c).2 hr]
  | some d => exact Nat.le_of_lt (length_skip_lt h)

theorem length_run_le (p : Char → Bool) (c : Cursor) :
    (c.run p).2.rest.length ≤ c.rest.length :=
  (List.dropWhile_suffix p).length_le

/-- A run that takes the next character leaves less to read. -/
theorem length_run_lt {p : Char → Bool} {c : Cursor} {d : Char} (h : c.peek = some d)
    (hp : p d = true) : (c.run p).2.rest.length < c.rest.length := by
  cases hr : c.rest with
  | nil => simp [peek, hr] at h
  | cons e rest =>
    obtain rfl : e = d := by simpa [peek, hr] using h
    simp only [run, hr, List.dropWhile_cons, hp, if_true, List.length_cons]
    exact Nat.lt_succ_of_le (List.dropWhile_suffix p).length_le

theorem run_fst_append_rest (p : Char → Bool) (c : Cursor) :
    (c.run p).1 ++ (c.run p).2.rest = c.rest := by
  simp [run]

end Cursor

end Offside
