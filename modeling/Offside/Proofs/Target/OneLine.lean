import Offside.Proofs.Julia.Emitted
import Offside.Proofs.Julia.Name
import Offside.Target.Item

/-!
# Texts on one line

The text of an emitted expression has no control characters, so it stays on its line
(`isPrintable_text`).  Where the expression does not start with a word that opens or closes a block,
neither does its text (`startsPlain_text`).
-/

namespace Offside.Target

open Julia Text List

/-! ## Texts without control characters -/

/-- Whether a text has no control characters.  In particular it has no line breaks. -/
def isPrintable (text : String) : Bool := text.toList.all (!isControl ·)

variable {c : Char} {text : String}

theorem isPrintable_iff : isPrintable text ↔ ∀ c ∈ text.toList, isControl c = false := by
  simp [isPrintable]

@[simp] theorem isPrintable_append (s t : String) :
    isPrintable (s ++ t) = (isPrintable s && isPrintable t) := by
  simp [isPrintable]

/-- The marks that the printer writes between the parts of an expression. -/
@[simp] theorem isPrintable_marks :
    isPrintable "" ∧ isPrintable " " ∧ isPrintable "(" ∧
      isPrintable ")" ∧ isPrintable "[" ∧ isPrintable "]" ∧
      isPrintable "." ∧ isPrintable ".(" ∧ isPrintable ":" ∧
      isPrintable "::" ∧ isPrintable "\"" ∧ isPrintable "$(" ∧
      isPrintable "!" ∧ isPrintable ", " ∧ isPrintable " = " ∧
      isPrintable "Val(:" ∧ isPrintable "\x7d" := by
  decide

theorem any_contains_eq_false {table : List CodeRange} (htable : table.all (0xa0 ≤ ·.first))
    (hc : c.toNat < 0xa0) : table.any (·.contains c) = false := by
  refine any_eq_false.mpr fun range hrange hcontains => ?_
  have hfirst : 0xa0 ≤ range.first := by simpa using all_eq_true.mp htable range hrange
  have hbounds := (range.contains_iff c).mp hcontains
  omega

/-- No character of a name is a control character. -/
theorem isControl_of_isNamePart (h : isNamePart c) : isControl c = false := by
  refine Bool.eq_false_iff.mpr fun hcontrol => ?_
  by_cases hc : c.toNat < 0x80
  · have hlow : ∀ n < 0x80, isControl (Char.ofNat n) → isNamePart (Char.ofNat n) = false := by
      decide +kernel
    have hpart := hlow c.toNat hc
    rw [Char.ofNat_toNat] at hpart
    exact absurd h (by simp [hpart hcontrol])
  · -- the tables start behind the control characters above the low block
    have htables : letters.all (0xa0 ≤ ·.first) ∧ numerics.all (0xa0 ≤ ·.first) := by
      decide +kernel
    have hlt : c.toNat < 0xa0 := by
      simp only [isControl, Bool.or_eq_true, Bool.and_eq_true, decide_eq_true_eq] at hcontrol
      omega
    have hletter : isLetter c = false := by
      rw [isLetter, if_neg hc, any_contains_eq_false htables.1 hlt]
    have hnumeric : isNumeric c = false := by
      rw [isNumeric, if_neg hc, any_contains_eq_false htables.2 hlt]
    have hmarks : c ≠ '_' ∧ c ≠ '!' := by
      constructor <;> (rintro rfl; exact hc (by decide))
    simp [isNamePart, isWordPart, isAlphanumeric, hletter, hnumeric, hmarks] at h

theorem isNamePart_of_mem_name (h : isName text) : ∀ c ∈ text.toList, isNamePart c := by
  unfold isName at h
  split at h
  · cases h
  · rename_i d cs hcs
    obtain ⟨hd, hall⟩ := Bool.and_eq_true_iff.mp h
    rw [hcs]
    exact forall_mem_cons.mpr ⟨isNamePart_of_isWordPart (isWordPart_of_isWordStart hd),
      all_eq_true.mp hall⟩

theorem isPrintable_of_isName (h : isName text) : isPrintable text := by
  rw [isPrintable_iff]
  intro c hc
  exact isControl_of_isNamePart (isNamePart_of_mem_name h c hc)

theorem isControl_of_isDigit (h : c.isDigit) : isControl c = false := by
  have hbounds : 48 ≤ c.toNat ∧ c.toNat ≤ 57 := by
    simpa [Char.isDigit, UInt32.le_iff_toNat_le] using h
  simp only [isControl, Bool.or_eq_false_iff, Bool.and_eq_false_iff, decide_eq_false_iff_not]
  omega

theorem isPrintable_toString (value : Int) : isPrintable (toString value) := by
  have hdigits (n : Nat) : ∀ c ∈ Nat.toDigits 10 n, isControl c = false := fun c hc =>
    isControl_of_isDigit ((areDigits_toDigits n).2 c hc)
  rw [isPrintable_iff]
  by_cases hnonneg : 0 ≤ value
  · rw [toList_toString_of_nonneg hnonneg]
    exact hdigits _
  · rw [toList_toString_of_neg (by omega)]
    exact forall_mem_cons.mpr ⟨by decide, hdigits _⟩

theorem isControl_of_isNumber {cs : List Char} (h : IsNumber cs) :
    ∀ c ∈ cs, isControl c = false := by
  obtain ⟨whole, part, scale, hwhole, hpart, hscale, rfl⟩ := h
  have hdigits {ds : List Char} (hds : AreDigits ds) : ∀ c ∈ ds, isControl c = false :=
    fun c hc => isControl_of_isDigit (hds.2 c hc)
  have hfraction : ∀ c ∈ part, isControl c = false := by
    rcases hpart with rfl | ⟨ds, hds, rfl⟩
    · exact forall_mem_nil _
    · exact forall_mem_cons.mpr ⟨by decide, hdigits hds⟩
  have hpower : ∀ c ∈ scale, isControl c = false := by
    rcases hscale with rfl | ⟨ds, hds, rfl | rfl⟩
    · exact forall_mem_nil _
    · exact forall_mem_cons.mpr ⟨by decide, hdigits hds⟩
    · exact forall_mem_cons.mpr ⟨by decide, forall_mem_cons.mpr ⟨by decide, hdigits hds⟩⟩
  intro c hc
  simp only [mem_append] at hc
  rcases hc with hc | hc | hc
  · exact hdigits hwhole c hc
  · exact hfraction c hc
  · exact hpower c hc

/-- Escapes leave no control character in a literal. -/
theorem isPrintable_escapeText (text : String) : isPrintable (escapeText text) := by
  have hdigits (n : Nat) : (fourDigits n).all (!isControl ·) := by
    have hdigit : ∀ m < 16, (!isControl m.digitChar) := by decide
    refine all_eq_true.mpr fun d hd => ?_
    obtain ⟨m, hm, rfl⟩ := exists_of_mem_fourDigits hd
    exact hdigit m hm
  have hchar (c : Char) : (escapeChar c).all (!isControl ·) := by
    unfold escapeChar
    split
    iterate 7 · decide
    · split
      · have hmarks : isControl '\\' = false ∧ isControl 'u' = false := by decide
        simp [hmarks, hdigits]
      · rename_i hc
        simp [hc]
  rw [isPrintable_iff, escapeText, String.toList_ofList]
  intro d hd
  obtain ⟨c, -, hd⟩ := mem_flatMap.mp hd
  simpa using all_eq_true.mp (hchar c) d hd

theorem isPrintable_commas {texts : List String} (h : ∀ text ∈ texts, isPrintable text) :
    isPrintable (commas texts) := by
  induction texts with
  | nil => decide
  | cons text texts ih =>
    obtain ⟨htext, htexts⟩ := forall_mem_cons.mp h
    cases texts with
    | nil => simpa [commas] using htext
    | cons next texts =>
      have hrest := ih htexts
      rw [isPrintable, toList_commas_cons_cons]
      rw [isPrintable] at htext hrest
      have hmarks : isControl ',' = false ∧ isControl ' ' = false := by decide
      simp [htext, hrest, hmarks]

theorem isPrintable_spelling (op : Operator) : isPrintable op.spelling := by
  cases op with
  | comparison op => cases op <;> decide
  | sum op => cases op <;> decide
  | product op => cases op <;> decide
  | _ => decide

theorem isPrintable_tagText {name : String} (h : isName name) : isPrintable (tagText name) := by
  simp [tagText, isPrintable_of_isName h]

mutual

/-- The text of an emitted expression has no control characters: names, numbers and escaped literals
have none. -/
theorem isPrintable_text : ∀ {code : Code}, code.isLexical → isPrintable code.text
  | .name _, h => isPrintable_of_isName h
  | .boolean value, _ => by cases value <;> decide
  | .nothing, _ | .lastIndex, _ | .everything, _ => by decide
  | .integer value, _ => isPrintable_toString value
  | .float .infinite, _ => by decide
  | .float (.finite significand exponent), _ =>
    isPrintable_iff.mpr
      (isControl_of_isNumber (Binary64.isNumber_textWith "Inf" significand exponent))
  | .str parts, h => by simp [isPrintable_partTexts h]
  | .symbol _, h => by simp [isPrintable_of_isName h]
  | .group inner, h => by
    have hinner : inner.isLexical := h
    simp [isPrintable_text hinner]
  | .tuple elements, h | .vector elements, h => by
    have helements : Code.areLexical elements := h
    simp [isPrintable_commas (isPrintable_texts helements)]
  | .spread _, h => nomatch h
  | .chain first rest, h => by
    obtain ⟨hfirst, hrest⟩ := Bool.and_eq_true_iff.mp h
    simp [isPrintable_text hfirst, isPrintable_restText hrest]
  | .not operand, h => by
    have hoperand : operand.isLexical := h
    simp [isPrintable_text hoperand]
  | .sign op operand, h => by
    have hoperand := isPrintable_text (Bool.and_eq_true_iff.mp h).1
    have hspelling : isPrintable op.spelling := by cases op <;> decide
    simp [hspelling, hoperand]
  | .range first none last, h => by
    obtain ⟨hfirst, hlast⟩ := Bool.and_eq_true_iff.mp h
    simp [isPrintable_text hfirst, isPrintable_text hlast]
  | .range first (some step) last, h => by
    simp only [Code.isLexical, Bool.and_eq_true] at h
    obtain ⟨⟨hfirst, hstep⟩, hlast⟩ := h
    simp [isPrintable_text hfirst, isPrintable_text hstep, isPrintable_text hlast]
  | .call function arguments, h => by
    obtain ⟨hfunction, harguments⟩ := Bool.and_eq_true_iff.mp h
    simp [isPrintable_text hfunction, isPrintable_commas (isPrintable_texts harguments)]
  | .broadcast function arguments, h | .statistic function arguments, h => by
    obtain ⟨hfunction, harguments⟩ := Bool.and_eq_true_iff.mp h
    simp [isPrintable_of_isName hfunction, isPrintable_commas (isPrintable_texts harguments)]
  | .staticCall owner method arguments, h => by
    simp only [Code.isLexical, Bool.and_eq_true] at h
    obtain ⟨⟨howner, hmethod⟩, harguments⟩ := h
    have hall : ∀ text ∈ tagText owner :: tagText method :: Code.texts arguments,
        isPrintable text :=
      forall_mem_cons.mpr ⟨isPrintable_tagText howner,
        forall_mem_cons.mpr ⟨isPrintable_tagText hmethod, isPrintable_texts harguments⟩⟩
    have hstatic : isPrintable "__static__(" := by decide
    simp [isPrintable_commas hall, hstatic]
  | .methodCall method arguments, h => by
    obtain ⟨hmethod, harguments⟩ := Bool.and_eq_true_iff.mp h
    have hall : ∀ text ∈ tagText method :: Code.texts arguments, isPrintable text :=
      forall_mem_cons.mpr ⟨isPrintable_tagText hmethod, isPrintable_texts harguments⟩
    have hdynamic : isPrintable "__method__(" := by decide
    simp [isPrintable_commas hall, hdynamic]
  | .member base name, h => by
    obtain ⟨hbase, hname⟩ := Bool.and_eq_true_iff.mp h
    simp [isPrintable_text hbase, isPrintable_of_isName hname]
  | .subscript base indices, h => by
    obtain ⟨hbase, hindices⟩ := Bool.and_eq_true_iff.mp h
    simp [isPrintable_text hbase, isPrintable_commas (isPrintable_texts hindices)]

theorem isPrintable_texts :
    ∀ {codes : List Code}, Code.areLexical codes → ∀ text ∈ Code.texts codes, isPrintable text
  | [], _ => forall_mem_nil _
  | code :: codes, h => by
    obtain ⟨hcode, hcodes⟩ := Bool.and_eq_true_iff.mp h
    exact forall_mem_cons.mpr ⟨isPrintable_text hcode, isPrintable_texts hcodes⟩

theorem isPrintable_restText : ∀ {rest : List (Operator × Code)}, Code.restIsLexical rest →
    isPrintable (Code.restText rest)
  | [], _ => by decide
  | (op, code) :: rest, h => by
    obtain ⟨hcode, hrest⟩ := Bool.and_eq_true_iff.mp h
    simp [isPrintable_spelling op, isPrintable_text hcode, isPrintable_restText hrest]

theorem isPrintable_partTexts : ∀ {parts : List CodePart}, CodePart.areLexical parts →
    isPrintable (CodePart.texts parts)
  | [], _ => by decide
  | .literal text :: rest, h => by
    have hrest : CodePart.areLexical rest := h
    simp [isPrintable_escapeText text, isPrintable_partTexts hrest]
  | .embedded code :: rest, h => by
    obtain ⟨hcode, hrest⟩ := Bool.and_eq_true_iff.mp h
    simp [isPrintable_text hcode, isPrintable_partTexts hrest]

end

/-! ## First words -/

/-- The words that open, divide or close blocks at the start of a line, and the word that imports a
library. -/
def blockWords : List String :=
  ["function", "if", "for", "while", "mutable", "elseif", "else", "end", "using"]

/-- The name at the start of some characters. -/
def leadWord (cs : List Char) : List Char := cs.takeWhile isNamePart

/-- The characters are some, the first of them is no blank, and they do not start with a word of
blocks. -/
def StartsPlain (cs : List Char) : Prop :=
  ∃ c rest, cs = c :: rest ∧ c ≠ ' ' ∧ String.ofList (leadWord cs) ∉ blockWords

theorem leadWord_append {ds : List Char} (h : ∀ d ∈ ds.head?, isNamePart d = false)
    (cs : List Char) :
    leadWord (cs ++ ds) = leadWord cs := by
  unfold leadWord
  induction cs with
  | nil =>
    cases ds with
    | nil => rfl
    | cons d ds => simp [h d rfl]
  | cons c cs ih =>
    rw [cons_append, takeWhile_cons, takeWhile_cons, ih]

/-- What is written behind a text and starts with no part of a name leaves the first word as it is.
-/
theorem StartsPlain.append {cs ds : List Char} (h : StartsPlain cs)
    (hds : ∀ d ∈ ds.head?, isNamePart d = false) : StartsPlain (cs ++ ds) := by
  obtain ⟨c, rest, rfl, hblank, hword⟩ := h
  refine ⟨c, rest ++ ds, rfl, hblank, ?_⟩
  rwa [leadWord_append hds]

/-- A character that starts no word of blocks. -/
theorem startsPlain_cons (h : c ∉ [' ', 'e', 'f', 'i', 'm', 'u', 'w']) (rest : List Char) :
    StartsPlain (c :: rest) := by
  refine ⟨c, rest, rfl, fun hc => h (by simp [hc]), fun hword => ?_⟩
  have hstart : ∀ word ∈ blockWords,
      word.toList.head?.any ([' ', 'e', 'f', 'i', 'm', 'u', 'w'].contains ·) := by
    decide
  have hword := hstart _ hword
  rw [String.toList_ofList, leadWord, takeWhile_cons] at hword
  split at hword
  · exact h (contains_iff_mem.mp hword)
  · cases hword

theorem startsPlain_of_isName (h : isName text) (hword : text ∉ blockWords) :
    StartsPlain text.toList := by
  obtain ⟨c, cs, hcs, hc⟩ := exists_of_isName h
  have hlead : leadWord text.toList = text.toList := by
    rw [leadWord, ← append_nil text.toList, takeWhile_append_of_pos]
    · simp
    · exact isNamePart_of_mem_name h
  refine ⟨c, cs, hcs, ?_, ?_⟩
  · rintro rfl
    cases hc
  · rwa [hlead, String.ofList_toList]

theorem startsPlain_of_areDigits {cs : List Char} (h : AreDigits cs) (ds : List Char) :
    StartsPlain (cs ++ ds) := by
  obtain ⟨hne, hdigits⟩ := h
  cases cs with
  | nil => exact absurd rfl hne
  | cons c cs =>
    refine startsPlain_cons (fun hmem => ?_) (cs ++ ds)
    have hnone : ∀ d ∈ [' ', 'e', 'f', 'i', 'm', 'u', 'w'], (!d.isDigit) :=
      all_eq_true.mp (by decide)
    exact absurd (hdigits c (by simp)) (by simpa using hnone c hmem)

/-- Whether an expression does not start with a word of blocks, outside brackets. -/
def Code.startsPlain : Code → Bool
  | .name text | .broadcast text _ | .statistic text _ => !blockWords.contains text
  | .lastIndex => false
  | .spread sequence => sequence.startsPlain
  | .chain first _ => first.startsPlain
  | .range first _ _ => first.startsPlain
  | .call function _ => function.startsPlain
  | .member base _ => base.startsPlain
  | .subscript base _ => base.startsPlain
  | _ => true

/-- The further operands of a chain are set off by blanks. -/
theorem head_restText (rest : List (Operator × Code)) :
    ∀ d ∈ (Code.restText rest).toList.head?, isNamePart d = false := by
  have hblank : isNamePart ' ' = false := by decide
  cases rest with
  | nil => simp
  | cons x rest => simp [hblank]

theorem head_mark (h : isNamePart c = false) (cs : List Char) :
    ∀ d ∈ (c :: cs).head?, isNamePart d = false := by
  intro d hd
  cases hd
  exact h

/-- The text of an expression starts with a word of blocks only if the expression does. -/
theorem startsPlain_text {code : Code} (h : code.isLexical) (hs : code.startsPlain) :
    StartsPlain code.text.toList := by
  have hname {text : String} (htext : isName text) (hs : (!blockWords.contains text)) :
      StartsPlain text.toList := startsPlain_of_isName htext (by simpa using hs)
  cases code with
  | name text => exact hname h hs
  | boolean value =>
    exact startsPlain_of_isName (by cases value <;> decide) (by cases value <;> decide)
  | nothing => exact startsPlain_of_isName (by decide) (by decide)
  | lastIndex => cases hs
  | integer value =>
    by_cases hnonneg : 0 ≤ value
    · rw [Code.text, toList_toString_of_nonneg hnonneg]
      simpa using startsPlain_of_areDigits (areDigits_toDigits value.toNat) []
    · rw [Code.text, toList_toString_of_neg (by omega)]
      exact startsPlain_cons (by decide) _
  | float value =>
    cases value with
    | infinite => exact startsPlain_of_isName (by decide) (by decide)
    | finite significand exponent =>
      obtain ⟨whole, part, scale, hwhole, -, -, htext⟩ :=
        Binary64.isNumber_textWith "Inf" significand exponent
      rw [Code.text, htext]
      exact startsPlain_of_areDigits hwhole _
  | str parts | symbol name | everything | group inner | tuple elements | vector elements
  | not operand | staticCall owner method arguments | methodCall method arguments =>
    simp only [Code.text, String.toList_append, append_assoc]
    exact startsPlain_cons (by decide) _
  | sign op operand =>
    rw [Code.text, String.toList_append]
    cases op <;> exact startsPlain_cons (by decide) _
  | spread sequence => cases h
  | chain first rest =>
    have hfirst := startsPlain_text (Bool.and_eq_true_iff.mp h).1 hs
    rw [Code.text, String.toList_append]
    exact hfirst.append (head_restText rest)
  | range first step last =>
    have hlexical : first.isLexical := by
      cases step <;> simp_all [Code.isLexical]
    have hfirst := startsPlain_text hlexical hs
    cases step <;> simp only [Code.text, String.toList_append, append_assoc] <;>
      exact hfirst.append (head_mark (by decide) _)
  | call base _ | member base _ | subscript base _ =>
    have hbase := startsPlain_text (Bool.and_eq_true_iff.mp h).1 hs
    simp only [Code.text, String.toList_append, append_assoc]
    exact hbase.append (head_mark (by decide) _)
  | broadcast function arguments | statistic function arguments =>
    have hfunction := hname (Bool.and_eq_true_iff.mp h).1 hs
    simp only [Code.text, String.toList_append, append_assoc]
    exact hfunction.append (head_mark (by decide) _)

/-- Some expressions start as the first of them does. -/
theorem startsPlain_commas {code : Code} {codes : List Code} (h : code.isLexical)
    (hs : code.startsPlain) : StartsPlain (commas (Code.texts (code :: codes))).toList := by
  have hcode := startsPlain_text h hs
  cases codes with
  | nil => simpa [commas] using hcode
  | cons next codes =>
    rw [Code.texts, Code.texts, toList_commas_cons_cons]
    exact hcode.append (head_mark (by decide) _)

/-! ## Types and signatures -/

/-- Whether the names in a type are names of the emitted language. -/
def TypeName.isLexical : TypeName → Bool
  | any => true
  | named name => isName name
  | vector element => element.isLexical
  | marker className => isName className

theorem isName_markerName {name : String} (h : isName name) :
    isName (markerName name) :=
  isName_append (by decide) (isNamePart_of_mem_name h)

theorem TypeName.isPrintable_text {type : TypeName} (h : type.isLexical) :
    isPrintable type.text := by
  induction type with
  | any => decide
  | named name => exact isPrintable_of_isName h
  | vector element ih =>
    have hvector : isPrintable "Vector\x7b" := by decide
    simp [TypeName.text, ih h, hvector]
  | marker className => exact isPrintable_of_isName (isName_markerName h)

theorem isPrintable_typeText {type : Option TypeName} (h : ∀ t ∈ type, TypeName.isLexical t) :
    isPrintable (typeText type) := by
  cases type with
  | none => decide
  | some type => simp [typeText, TypeName.isPrintable_text (h type rfl)]

/-- Whether the names in a parameter are names of the emitted language. -/
def Formal.isLexical : Formal → Bool
  | tag name | remaining name => isName name
  | plain name type default =>
    isName name && type.all TypeName.isLexical && default.all Code.isLexical

theorem Formal.isPrintable_text {f : Formal} (h : f.isLexical) : isPrintable f.text := by
  cases f with
  | tag name =>
    have htag : isPrintable "::Val\x7b:" := by decide
    simp [Formal.text, isPrintable_of_isName h, htag]
  | remaining name =>
    have hdots : isPrintable "..." := by decide
    simp [Formal.text, isPrintable_of_isName h, hdots]
  | plain name type default =>
    simp only [Formal.isLexical, Bool.and_eq_true, Option.all_eq_true] at h
    obtain ⟨⟨hname, htype⟩, hdefault⟩ := h
    cases default with
    | none => simp [Formal.text, isPrintable_of_isName hname, isPrintable_typeText htype]
    | some code =>
      simp [Formal.text, isPrintable_of_isName hname, isPrintable_typeText htype,
        Target.isPrintable_text (hdefault code rfl)]

/-- A signature without control characters.  Its name may be qualified. -/
structure Signature.IsLexical (s : Signature) : Prop where
  name : isPrintable s.name = true
  formals : ∀ f ∈ s.formals, Formal.isLexical f = true
  returns : ∀ t ∈ s.returns, TypeName.isLexical t = true

theorem Signature.IsLexical.isPrintable_text {s : Signature} (h : s.IsLexical) :
    isPrintable s.text := by
  have hformals : ∀ text ∈ s.formals.map Formal.text, isPrintable text := by
    intro text htext
    obtain ⟨f, hf, rfl⟩ := mem_map.mp htext
    exact Formal.isPrintable_text (h.formals f hf)
  simp [Signature.text, h.name, isPrintable_commas hformals, isPrintable_typeText h.returns]

end Offside.Target
