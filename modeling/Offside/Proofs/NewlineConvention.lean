import Offside.Proofs.ReadingVariation

/-!
# The newline convention

A line ends with a line feed, with a carriage return, or with both.  Which of the three a text uses
makes no difference to its tokens, apart from their offsets, to its names, and to its code; and a
text that is refused is refused with the same message (`compile_withNewlines`).  Both texts are
shorter than `2 ^ 32` bytes, so that their offsets do not wrap.
-/

namespace Offside

open List

variable {sequence : List Char} {l l' : Location}

/-- The line and the column of a location. -/
def Location.withoutOffset (l : Location) : Location := { l with offset := 0 }

theorem Location.withoutOffset_eq_iff :
    l.withoutOffset = l'.withoutOffset ↔ l.line = l'.line ∧ l.column = l'.column := by
  simp [withoutOffset]

theorem Location.withoutOffset_along (text : List Char) (h : l.withoutOffset = l'.withoutOffset) :
    (l.along text).withoutOffset = (l'.along text).withoutOffset := by
  obtain ⟨hline, hcolumn⟩ := withoutOffset_eq_iff.mp h
  exact withoutOffset_eq_iff.mpr ⟨hline, congrArg (· + .ofNat text.length) hcolumn⟩

theorem Location.withoutOffset_nextLine (width width' : Nat)
    (h : l.withoutOffset = l'.withoutOffset) :
    (l.nextLine width).withoutOffset = (l'.nextLine width').withoutOffset := by
  obtain ⟨hline, -⟩ := withoutOffset_eq_iff.mp h
  exact withoutOffset_eq_iff.mpr ⟨congrArg (· + 1) hline, rfl⟩

/-- One newline sequence stands for another, and offsets may differ. -/
def Variation.newlines : Variation where
  place := Location.withoutOffset
  names := id
  swaps _ _ := True
  place_origin := rfl
  place_along := Location.withoutOffset_along
  place_nextLine _ := Location.withoutOffset_nextLine _ _
  names_intern := NameTable.id_intern

/-! ## Other newline sequences -/

/-- The characters of a text with another newline sequence in place of each line feed. -/
def endLines (sequence text : List Char) : List Char :=
  text.flatMap fun d => if d = '\n' then sequence else [d]

/-- The text with another newline sequence in place of each line feed. -/
def withNewlines (sequence : List Char) (text : String) : String :=
  .ofList (endLines sequence text.toList)

theorem notMem_endLines (text : List Char) : '\n' ∉ endLines ['\r'] text := by
  intro h
  obtain ⟨d, -, hd⟩ := mem_flatMap.mp h
  by_cases hfeed : d = '\n'
  · rw [if_pos hfeed] at hd
    cases mem_singleton.mp hd
  · rw [if_neg hfeed] at hd
    exact hfeed (mem_singleton.mp hd).symm

/-- No newline sequence is cut where one stands in place of a line feed. -/
theorem not_splitsNewline_endLines (hsequence : IsNewlineSequence sequence) (text : List Char) :
    ¬SplitsNewline sequence (endLines sequence text) := by
  rintro ⟨hlast, hhead⟩
  rcases hsequence with rfl | rfl | rfl
  · cases hlast
  · exact notMem_endLines text (mem_of_head? hhead)
  · cases hlast

/-- A text gets no shorter. -/
theorem byteLength_le_endLines (hsequence : IsNewlineSequence sequence) (text : List Char) :
    byteLength text ≤ byteLength (endLines sequence text) := by
  have hfeed : 1 ≤ byteLength sequence := by
    rcases hsequence with rfl | rfl | rfl <;> decide
  induction text with
  | nil => exact Nat.le_refl 0
  | cons d rest ih =>
    rw [endLines, flatMap_cons, ← endLines, byteLength_append, byteLength_cons]
    refine Nat.add_le_add ?_ ih
    split
    · rename_i hd
      rw [hd]
      exact hfeed
    · exact Nat.le_refl _

theorem recast_endLines (hsequence : IsNewlineSequence sequence) {text : List Char}
    (htext : '\r' ∉ text) :
    Recast (fun _ _ => True) text (endLines sequence text) := by
  induction text with
  | nil => exact .nil
  | cons d rest ih =>
    obtain ⟨hd, hrest⟩ := not_or.mp (mt mem_cons.mpr htext)
    have hlines : endLines sequence (d :: rest) =
        (if d = '\n' then sequence else [d]) ++ endLines sequence rest := flatMap_cons
    rw [hlines]
    by_cases hfeed : d = '\n'
    · rw [if_pos hfeed, hfeed]
      have hcut : ¬SplitsNewline ['\n'] rest := fun hsplit => absurd hsplit.1 (by decide)
      exact .newline (.inl rfl) hsequence trivial hcut
        (not_splitsNewline_endLines hsequence rest) (ih hrest)
    · rw [if_neg hfeed]
      have hchar : isNewline d = false := by
        simp [isNewline, hfeed, Ne.symm hd]
      exact .char hchar (ih hrest)

/-! ## The same tokens and the same code -/

/-- Tokens, or why there are none, with the lines and the columns of locations only. -/
def withoutOffsets (tokens : Except LexicalError (List Token)) : Except LexicalError (List Token) :=
  (tokens.map (map (Token.relocate .withoutOffset))).mapError
    (LexicalError.relocate .withoutOffset)

theorem mapError_message_relocate {place : Location → Location}
    (hplace : ∀ l, (place l).text = l.text) (result : Except CompileError String) :
    (result.mapError (CompileError.relocate place)).mapError CompileError.message =
      result.mapError CompileError.message := by
  cases result with
  | ok code => rfl
  | error e => exact congrArg Except.error (e.message_relocate hplace)

/-- Which newline sequence ends the lines of a text makes no difference: the tokens are of the same
kinds, on the same lines and in the same columns, and so is an error in place of them; the names are
the same; and the text has the same code, or it is refused with the same message.  In both texts a
cursor reads what stands at its offset. -/
theorem compile_withNewlines {sequence : List Char} (hsequence : IsNewlineSequence sequence)
    {text : String} (htext : '\r' ∉ text.toList)
    (hsize : byteLength (withNewlines sequence text).toList < UInt32.size) :
    (∀ names : NameTable,
      withoutOffsets (tokenize (withNewlines sequence text) names).1 =
          withoutOffsets (tokenize text names).1 ∧
        (tokenize (withNewlines sequence text) names).2 = (tokenize text names).2) ∧
      (compile (withNewlines sequence text)).mapError CompileError.message =
        (compile text).mapError CompileError.message ∧
      ∀ source ∈ [text, withNewlines sequence text], ∀ (c : Cursor) (before : List Char),
        c.Follows before → source.toList = before ++ c.rest →
          Cursor.startingAt source c.location = c := by
  have hrecast : Recast Variation.newlines.swaps text.toList
      (withNewlines sequence text).toList := by
    rw [withNewlines, String.toList_ofList]
    exact recast_endLines hsequence htext
  refine ⟨fun names => ?_, ?_, fun source hmem c before hc hsource => ?_⟩
  · have htokens := tokenize_alike hrecast names
    change Agree _ _ _ _ _ (tokenize (withNewlines sequence text) names) at htokens
    generalize tokenize text names = scanned at htokens ⊢
    generalize tokenize (withNewlines sequence text) names = scanned' at htokens ⊢
    rcases htokens with ⟨htokens, hnames⟩ | ⟨he, hnames⟩
    · exact ⟨congrArg Except.ok htokens.symm, hnames⟩
    · exact ⟨congrArg Except.error he.symm, hnames⟩
  · have hcode := congrArg (Except.mapError CompileError.message) (compile_alike rfl hrecast)
    have hshown (l : Location) : (Variation.newlines.place l).text = l.text := rfl
    rwa [mapError_message_relocate hshown, mapError_message_relocate hshown] at hcode
  · refine hc.startingAt_eq hsource (Nat.lt_of_le_of_lt ?_ hsize)
    rcases mem_cons.mp hmem with rfl | hmem
    · rw [withNewlines, String.toList_ofList]
      exact byteLength_le_endLines hsequence _
    · rw [mem_singleton.mp hmem]

/-- A string over two lines in a block, where the lines end with a carriage return and a line feed.
-/
theorem compile_withNewlines_block :
    (compile "if a:\r\n    b = '''c\r\nd'''\r\n").toOption =
      some "if a\n    b = \"c\\nd\"\nend\n" := by
  have hlines : "if a:\r\n    b = '''c\r\nd'''\r\n" =
      withNewlines ['\r', '\n'] "if a:\n    b = '''c\nd'''\n" := by decide +kernel
  have hfeed : (compile "if a:\n    b = '''c\nd'''\n").toOption =
      some "if a\n    b = \"c\\nd\"\nend\n" := by decide +kernel
  have htext : '\r' ∉ "if a:\n    b = '''c\nd'''\n".toList := by decide +kernel
  have hsize : byteLength (withNewlines ['\r', '\n'] "if a:\n    b = '''c\nd'''\n").toList <
      UInt32.size := by
    decide +kernel
  have hsame := (compile_withNewlines (.inr (.inr rfl)) htext hsize).2.1
  rw [← hlines, eq_ok_of_toOption hfeed] at hsame
  exact toOption_of_mapError hsame

end Offside
