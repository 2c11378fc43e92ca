import Offside.Proofs.Token.Runs

/-!
# Nothing is lost between tokens

The text of a source is cut into tokens and what separates them, with nothing left over.  Each token
lies at the places of the source where it starts and stops; a token that is spelled in one way
covers its spelling, and the tokens of an embedded expression lie within the formatted string around
them.
-/

namespace Offside

open List

/-- What stands between two offsets of a source may stand between tokens. -/
def SeparatedIn (source : List Char) (first last : Nat) : Prop :=
  ∃ gap rest, slice? source first last = some gap ∧ dropBytes? last source = some rest ∧
    Separates rest gap

/-- From an offset on, a source is made of tokens and what separates them.  A token that is spelled
in one way covers its spelling. -/
inductive Covers (source : List Char) : Nat → List Token → Prop
  | nil : Covers source (byteLength source) []
  | cons {first : Nat} {token : Token} {rest : List Token}
    (hgap : SeparatedIn source first token.span.start.offset.toNat)
    (hspelling : ∀ spelling ∈ token.kind.spelling?,
      slice? source token.span.start.offset.toNat token.span.stop.offset.toNat =
        some spelling.toList)
    (hrest : Covers source token.span.stop.offset.toNat rest) : Covers source first (token :: rest)

namespace Scanner

variable {s s' : Scanner} {t : Token} {before : List Char}

/-- A step covers what it passes, and the state behind it follows what it passed. -/
theorem Step.covers (h : Step s t s') (hbefore : s.cursor.Follows before)
    (hsize : byteLength (before ++ s.cursor.rest) < UInt32.size) :
    ∃ passed, before ++ s.cursor.rest = passed ++ s'.cursor.rest ∧ s'.cursor.Follows passed ∧
      SeparatedIn (passed ++ s'.cursor.rest) (byteLength before) t.span.start.offset.toNat ∧
      t.span.stop.offset.toNat = byteLength passed ∧ ∀ spelling ∈ t.kind.spelling?,
        slice? (passed ++ s'.cursor.rest) t.span.start.offset.toNat t.span.stop.offset.toNat =
          some spelling.toList := by
  obtain ⟨gap, mid, text, hpass, hgap, htext, hspan, hspelled, -⟩ := h.passes
  have hmid := hpass.follows hbefore
  have hnext := htext.follows hmid
  have hmidrest : before ++ gap ++ text ++ s'.cursor.rest = before ++ gap ++ mid.rest := by
    rw [htext.rest, ← append_assoc]
  have hsource : before ++ s.cursor.rest = before ++ gap ++ text ++ s'.cursor.rest := by
    rw [hpass.rest, htext.rest, append_assoc, append_assoc]
  rw [hsource, byteLength_append, byteLength_append] at hsize
  have hstart := hmid.offset (by omega)
  have hstop := hnext.offset (by rw [byteLength_append]; omega)
  refine ⟨before ++ gap ++ text, hsource, hnext, ⟨gap, mid.rest, ?_, ?_, hgap⟩, ?_,
    fun spelling hspelling => ?_⟩
  · rw [hmidrest, hspan, hstart, byteLength_append]
    exact slice?_append before gap mid.rest
  · rw [hmidrest, hspan, hstart]
    exact dropBytes?_append (before ++ gap) mid.rest
  · rw [hspan, hstop]
  · rw [hspan, hstart, hstop, byteLength_append (before ++ gap), slice?_append,
      hspelled spelling hspelling]

variable {atLineStart pendingDedent : Bool} {ts : List Token}

/-- A run up to the end of input covers the rest of the source. -/
theorem Run.covers (h : Run s atLineStart pendingDedent ts s') (hends : EndsInput ts)
    (hbefore : s.cursor.Follows before)
    (hsize : byteLength (before ++ s.cursor.rest) < UInt32.size) :
    Covers (before ++ s.cursor.rest) (byteLength before) ts := by
  induction h generalizing before with
  | nil => exact absurd hends (by simp [EndsInput])
  | cons hnext hrest ih =>
    have hstep := step_next hnext
    obtain ⟨passed, hsource, hpassed, hgap, hstop, hspelled⟩ := hstep.covers hbefore hsize
    rw [hsource] at hsize ⊢
    refine .cons hgap hspelled ?_
    rw [hstop]
    rcases hends.of_cons with ⟨hend, rfl⟩ | ⟨-, hends⟩
    · rw [(hstep.of_isEnd hend).1, append_nil]
      exact .nil
    · exact ih hends hpassed hsize

end Scanner

/-- The tokens of a text lie in it, in order and at places that are counted from the text before
them, and so do the tokens embedded in them.  Together with what separates them they are the whole
text.  The words of a place are the counts themselves: its offset always, its line and its column
wherever fewer than `2 ^ 32 - 1` bytes stand before it. -/
theorem tokenize_located {text : String} {names names' : NameTable} {tokens : List Token}
    (hsize : byteLength text.toList < UInt32.size)
    (h : tokenize text names = (.ok tokens, names')) :
    LieIn text.toList 0 (byteLength text.toList) tokens ∧ Covers text.toList 0 tokens ∧
      ∀ before after, text.toList = before ++ after →
        (Location.behind before).offset.toNat = byteLength before ∧
        (byteLength before + 1 < UInt32.size →
          (Location.behind before).line.toNat = newlineCount before + 1 ∧
          (Location.behind before).column.toNat = (lastLine before).length + 1) := by
  obtain ⟨last, hrun, hends, -⟩ := tokenize_eq_ok_iff.mp h
  have hstart := Cursor.follows_ofText text
  refine ⟨hrun.yields.lie [] hstart hsize, hrun.covers hends hstart hsize, ?_⟩
  intro before after htext
  rw [htext, byteLength_append] at hsize
  exact ⟨UInt32.toNat_ofNat_of_lt' (Nat.lt_of_le_of_lt (Nat.le_add_right _ _) hsize),
    Location.toNat_behind⟩

/-- An embedded expression, a joined line end and a comment, in lines that end with two characters.
-/
theorem tokenize_located_embedded :
    ∃ text tokens names, text = "s = f\"a\x7by\x7d\" \\\r\n  + t # u\r\n" ∧
      tokenize text {} = (.ok tokens, names) ∧ tokens.length = 7 ∧
      byteLength text.toList < UInt32.size ∧ LieIn text.toList 0 (byteLength text.toList) tokens ∧
      Covers text.toList 0 tokens := by
  have hcounted : (tokenize "s = f\"a\x7by\x7d\" \\\r\n  + t # u\r\n" {}).1.toOption.map
      length = some 7 := by
    decide +kernel
  cases h : tokenize "s = f\"a\x7by\x7d\" \\\r\n  + t # u\r\n" {} with
  | mk result names =>
    rw [h] at hcounted
    obtain ⟨tokens, htokens, hlength⟩ := Option.map_eq_some_iff.mp hcounted
    obtain rfl : result = .ok tokens := eq_ok_of_toOption htokens
    have hsize : byteLength "s = f\"a\x7by\x7d\" \\\r\n  + t # u\r\n".toList <
        UInt32.size := by decide +kernel
    obtain ⟨hlie, hcovers, -⟩ := tokenize_located hsize h
    exact ⟨_, tokens, names, rfl, h, hlength, hsize, hlie, hcovers⟩

end Offside
