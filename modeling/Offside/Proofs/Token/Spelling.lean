import Offside.Proofs.Source.Place
import Offside.Token.Literal
import Offside.Token.Vocabulary

/-!
# Spellings

Every token but a float and a string is spelled in one way.  What is passed when a number, a word or
a symbol is read is the spelling of its kind.
-/

namespace Offside

open List

namespace Kind

/-- Whether the kind is read from characters within a line, and is no mark of the layout. -/
def isLexeme : Kind → Bool
  | indent | dedent | newline | endOfInput => false
  | _ => true

theorem of_isLexeme {kind : Kind} (h : kind.isLexeme) :
    kind.isEnd = false ∧ kind.isNewline = false ∧ kind.isDedent = false ∧
      kind.isIndent = false := by
  cases kind with
  | endOfInput | newline | dedent | indent => cases h
  | _ => exact ⟨rfl, rfl, rfl, rfl⟩

/-- The spelling of a kind that is spelled in one way. -/
def spelling? : Kind → Option String
  | identifier name => some name
  | keyword word => some word.spelling
  | integer value => some (toString value)
  | sumOp op => some op.spelling
  | termOp op => some op.spelling
  | power => some "**"
  | comparison op => some op.spelling
  | operator spelling => some spelling
  | delimiter mark => some mark.spelling
  | library => some libraryName
  | function name => some name
  | indent | dedent | newline | endOfInput | float _ | str _ | formatted _ => none

theorem isLexeme_of_spelling? {kind : Kind} {spelling : String}
    (h : kind.spelling? = some spelling) : kind.isLexeme := by
  cases kind with
  | indent | dedent | newline | endOfInput => cases h
  | _ => rfl

theorem spelling?_ofWord (word : String) : (ofWord word).spelling? = some word := by
  unfold ofWord
  split
  · rename_i k hk
    exact congrArg some (Keyword.spelling_of_ofWord? hk)
  · split
    · rename_i hword
      rw [hword]
      rfl
    · split <;> rfl

end Kind

/-! ## Numbers -/

/-- A digit is the decimal form of its value. -/
theorem digitChar_of_isDigit {d : Char} (h : d.isDigit) :
    d.toNat - '0'.toNat < 10 ∧ (d.toNat - '0'.toNat).digitChar = d := by
  rw [Char.isDigit, Bool.and_eq_true, decide_eq_true_eq, decide_eq_true_eq] at h
  have hlow : 48 ≤ d.toNat := by simpa [UInt32.le_iff_toNat_le] using h.1
  have hhigh : d.toNat ≤ 57 := by simpa [UInt32.le_iff_toNat_le] using h.2
  obtain ⟨m, hm, hd⟩ : ∃ m < 10, d = Char.ofNat (48 + m) :=
    ⟨d.toNat - 48, by omega, by rw [Nat.add_sub_cancel' hlow, Char.ofNat_toNat]⟩
  have hall : ∀ m < 10, (Char.ofNat (48 + m)).toNat - '0'.toNat < 10 ∧
      ((Char.ofNat (48 + m)).toNat - '0'.toNat).digitChar = Char.ofNat (48 + m) := by decide
  rw [hd]
  exact hall m hm

/-- Digits that are read behind a value above zero are written behind it. -/
theorem toDigits_foldl {digits : List Char} (hdigits : ∀ d ∈ digits, d.isDigit) {value : Nat}
    (hvalue : 0 < value) :
    Nat.toDigits 10 (digits.foldl (fun value d => 10 * value + (d.toNat - '0'.toNat)) value) =
      Nat.toDigits 10 value ++ digits := by
  induction digits generalizing value with
  | nil => rw [foldl_nil, append_nil]
  | cons d digits ih =>
    obtain ⟨hd, hdigits⟩ := forall_mem_cons.mp hdigits
    obtain ⟨hlt, hchar⟩ := digitChar_of_isDigit hd
    rw [foldl_cons, ih hdigits (by omega),
      ← Nat.toDigits_append_toDigits (by decide) hvalue hlt, Nat.toDigits_of_lt_base hlt, hchar,
      append_assoc, singleton_append]

/-- A run of digits without a superfluous zero is the decimal form of its value. -/
theorem toDigits_digitsValue {digits : List Char} (hne : digits ≠ [])
    (hdigits : ∀ d ∈ digits, d.isDigit) (hzero : ¬(1 < digits.length ∧ digits.head? = some '0')) :
    Nat.toDigits 10 (digitsValue digits) = digits := by
  cases digits with
  | nil => exact absurd rfl hne
  | cons d digits =>
    obtain ⟨hd, hdigits⟩ := forall_mem_cons.mp hdigits
    obtain ⟨hlt, hchar⟩ := digitChar_of_isDigit hd
    rw [digitsValue, foldl_cons, Nat.mul_zero, Nat.zero_add]
    cases digits with
    | nil => rw [foldl_nil, Nat.toDigits_of_lt_base hlt, hchar]
    | cons e digits =>
      have hpos : 0 < d.toNat - '0'.toNat := by
        refine Nat.pos_of_ne_zero fun h => hzero ⟨by simp, ?_⟩
        rw [h] at hchar
        exact congrArg some hchar.symm
      rw [toDigits_foldl hdigits hpos, Nat.toDigits_of_lt_base hlt, hchar]
      rfl

theorem isNewline_of_isDigit {d : Char} (h : d.isDigit) : isNewline d = false := by
  refine Bool.eq_false_iff.mpr fun hd => ?_
  simp only [isNewline, Bool.or_eq_true, beq_iff_eq] at hd
  rcases hd with rfl | rfl <;> cases h

theorem reaches_scanFraction (c : Cursor) : c.Reaches (scanFraction c).2 := by
  unfold scanFraction
  split
  · split
    · exact (Cursor.reaches_skip c).trans ⟨_, Cursor.passes_run (fun _ => isNewline_of_isDigit) _⟩
    · exact .refl c
  · exact .refl c

theorem eq_of_scanFraction_none {c next : Cursor} (h : scanFraction c = (.ok none, next)) :
    next = c := by
  unfold scanFraction at h
  split at h
  · split at h <;> simp at h
  · exact (congrArg Prod.snd h).symm

theorem reaches_scanExponent (c : Cursor) : c.Reaches (scanExponent c).2 := by
  have hrun (c : Cursor) : c.Reaches (c.run Char.isDigit).2 :=
    ⟨_, Cursor.passes_run (fun _ => isNewline_of_isDigit) c⟩
  unfold scanExponent
  split
  · split
    · exact (Cursor.reaches_skip c).trans (hrun _)
    · split
      · exact (Cursor.reaches_skipMany 2 c).trans (hrun _)
      · exact .refl c
  · exact .refl c

theorem eq_of_scanExponent_none {c next : Cursor} (h : scanExponent c = (.ok none, next)) :
    next = c := by
  unfold scanExponent at h
  split at h
  · split at h
    · simp at h
    · split at h <;> simp at h
  · exact (congrArg Prod.snd h).symm

/-- The reading of a number passes its digits first. -/
theorem reaches_scanNumber (c : Cursor) : (c.run Char.isDigit).2.Reaches (scanNumber c).2 := by
  unfold scanNumber
  simp only
  split
  · exact .refl _
  · have hfraction := reaches_scanFraction (c.run Char.isDigit).2
    split
    · rename_i next hscan
      rw [hscan] at hfraction
      exact hfraction
    · rename_i fraction afterFraction hscan
      rw [hscan] at hfraction
      have hexponent := reaches_scanExponent afterFraction
      split
      · rename_i next hscan'
        rw [hscan'] at hexponent
        exact hfraction.trans hexponent
      · rename_i exponent next hscan'
        rw [hscan'] at hexponent
        split <;> exact hfraction.trans hexponent

/-- What is read as a number is an integer that the digits passed spell, or a float. -/
theorem scanNumber_ok {c next : Cursor} {kind : Kind} (h : scanNumber c = (.ok kind, next))
    (hne : (c.run Char.isDigit).1 ≠ []) :
    (∃ value, kind = .integer value ∧ next = (c.run Char.isDigit).2 ∧
      (c.run Char.isDigit).1 = (toString value).toList) ∨ ∃ value, kind = .float value := by
  unfold scanNumber at h
  simp only at h
  split at h
  · simp at h
  · rename_i hzero
    split at h
    · simp at h
    · rename_i fraction afterFraction hfraction
      split at h
      · simp at h
      · rename_i exponent afterExponent hexponent
        split at h
        · simp at h
        · obtain ⟨hkind, rfl⟩ := Prod.mk.inj h
          unfold numberKind at hkind
          split at hkind
          · rename_i hnone
            simp only [Bool.and_eq_true, Option.isNone_iff_eq_none] at hnone
            obtain ⟨rfl, rfl⟩ := hnone
            split at hkind
            · refine .inl ⟨_, (Except.ok.inj hkind).symm, ?_, ?_⟩
              · rw [eq_of_scanExponent_none hexponent, eq_of_scanFraction_none hfraction]
              · rw [Nat.toString_eq_repr, Nat.toList_repr]
                exact (toDigits_digitsValue hne (all_eq_true.mp all_takeWhile) hzero).symm
            · simp at hkind
          · exact .inr ⟨_, (Except.ok.inj hkind).symm⟩

/-! ## Words and symbols -/

theorem isNewline_of_isWordPart {d : Char} (h : Text.isWordPart d) : isNewline d = false := by
  refine Bool.eq_false_iff.mpr fun hd => ?_
  simp only [isNewline, Bool.or_eq_true, beq_iff_eq] at hd
  rcases hd with rfl | rfl <;> cases h

/-- A symbol of the table is the spelling of its kind, and it is passed within a line. -/
theorem spelling?_of_mem_symbols {symbol : String × Kind} (h : symbol ∈ symbols) :
    symbol.2.spelling? = some symbol.1 ∧ symbol.1.toList ≠ [] ∧
      ∀ d ∈ symbol.1.toList, isNewline d = false := by
  have hall : ∀ symbol ∈ symbols, symbol.2.spelling? = some symbol.1 ∧ symbol.1.toList ≠ [] ∧
      symbol.1.toList.all (!isNewline ·) := by decide
  obtain ⟨hspelling, hne, hline⟩ := hall symbol h
  exact ⟨hspelling, hne, by simpa using hline⟩

theorem symbol?_eq_some {text : List Char} {symbol : String × Kind}
    (h : symbol? text = some symbol) :
    symbol ∈ symbols ∧ symbol.1.toList <+: text := by
  have hleads := find?_some h
  exact ⟨mem_of_find?_eq_some h, isPrefixOf_iff_prefix.mp hleads⟩

/-! ## Strings -/

/-- The cursor behind a piece of a string. -/
def Piece.next {c : Cursor} : Piece c → Cursor
  | closed next | text _ next _ | stuck _ next => next

theorem reaches_scanPiece (start : Location) (q : Quotes) (c : Cursor) :
    c.Reaches (scanPiece start q c).next := by
  have hadvance {c next : Cursor} {d : Char} (h : c.advance = some (d, next)) : c.Reaches next := by
    obtain ⟨text, -, hpass⟩ := Cursor.passes_advance h
    exact ⟨text, hpass⟩
  unfold scanPiece
  split
  · rename_i next hclose
    unfold Quotes.close? at hclose
    split at hclose
    · rw [← Option.some.inj hclose]
      exact Cursor.reaches_skipMany _ c
    · simp at hclose
  · split
    · exact .refl c
    · rename_i d next h
      split
      · exact .refl c
      · split
        · split
          · exact hadvance h
          · rename_i e after h'
            exact (hadvance h).trans (hadvance h')
        · exact hadvance h

theorem reaches_scanText (start : Location) (q : Quotes) (c : Cursor) :
    c.Reaches (scanText start q c).2 := by
  fun_induction scanText start q c with
  | case1 c next hpiece | case2 c e next hpiece =>
    have hnext := reaches_scanPiece start q c
    rwa [hpiece] at hnext
  | case3 c text next hshorter hpiece result final hscan ih =>
    have hnext := reaches_scanPiece start q c
    rw [hpiece] at hnext
    rw [hscan] at ih
    exact hnext.trans ih

theorem reaches_openAt (c : Cursor) : c.skip.Reaches (Quotes.openAt c).2 := by
  unfold Quotes.openAt
  simp only
  split
  · exact Cursor.reaches_skipMany 2 c.skip
  · exact .refl _

/-- The reading of a string passes its first quote first. -/
theorem reaches_scanString (c : Cursor) : c.skip.Reaches (scanString c).2 :=
  (reaches_openAt c).trans (reaches_scanText c.location (Quotes.openAt c).1 (Quotes.openAt c).2)

end Offside
