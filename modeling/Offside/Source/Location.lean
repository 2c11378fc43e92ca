/-!
# Locations and spans

A location is a point of a source text, given by its line, its column and its byte offset.  Lines
and columns count from one, columns count characters, and offsets count the bytes of the UTF-8
form from zero.  All three are words of 32 bits, so they are counted modulo `2 ^ 32`.

There are three newline sequences: a line feed, a carriage return, and a carriage return followed
by a line feed.  Each of them is passed in one step.
-/

namespace Offside

/-- A point of a source text. -/
structure Location where
  line : UInt32 := 1
  column : UInt32 := 1
  offset : UInt32 := 0
deriving DecidableEq, Repr, Inhabited

/-- A line feed or a carriage return. -/
def isNewline (c : Char) : Bool :=
  c == '\n' || c == '\r'

/-- The number of bytes of the UTF-8 form of `text`. -/
def byteLength : List Char → Nat
  | [] => 0
  | c :: rest => c.utf8Size + byteLength rest

@[simp] theorem byteLength_nil : byteLength [] = 0 := rfl

@[simp] theorem byteLength_cons (c : Char) (text : List Char) :
    byteLength (c :: text) = c.utf8Size + byteLength text := rfl

@[simp] theorem byteLength_append (text more : List Char) :
    byteLength (text ++ more) = byteLength text + byteLength more := by
  induction text with
  | nil => simp only [List.nil_append, byteLength_nil, Nat.zero_add]
  | cons c rest ih => simp only [List.cons_append, byteLength_cons, ih, Nat.add_assoc]

theorem length_le_byteLength (text : List Char) : text.length ≤ byteLength text := by
  induction text with
  | nil => exact Nat.le_refl 0
  | cons d text ih =>
    have hpos := d.utf8Size_pos
    rw [List.length_cons, byteLength_cons]
    omega

namespace Location

/-- The start of the next line, after a newline sequence of `width` bytes. -/
def nextLine (l : Location) (width : Nat) : Location where
  line := l.line + 1
  column := 1
  offset := l.offset + .ofNat width

/-- The location after `text`, which holds no newline. -/
def along (l : Location) (text : List Char) : Location where
  line := l.line
  column := l.column + .ofNat text.length
  offset := l.offset + .ofNat (byteLength text)

/-- The text of a location in messages: line and column. -/
def text (l : Location) : String :=
  toString l.line ++ ":" ++ toString l.column

@[simp] theorem along_nil (l : Location) : l.along [] = l := by
  simp [along]

theorem along_append (l : Location) (text more : List Char) :
    l.along (text ++ more) = (l.along text).along more := by
  simp [along, UInt32.ofNat_add, UInt32.add_assoc]

end Location

/-- The part of a source text from `start` up to, and without, `stop`. -/
structure Span where
  start : Location := {}
  stop : Location := {}
deriving DecidableEq, Repr, Inhabited

/-- The empty span at a location. -/
def Span.empty (l : Location) : Span where
  start := l
  stop := l

end Offside
