import Offside.Proofs.Reader.WellFormed
import Offside.Proofs.TokenRoundTrip

/-!
# Names and reserved words

A name that Julia reserves is spelled with an underscore behind it.  A name of the source may end
with an underscore too, so two names are spelled alike if one of them is an escaped word and the
other is this word with an underscore, and in no other case (`escape_eq_escape_iff`).

The escaped words are those that Julia reserves and the source does not, but for `true` and `false`:
the source spells its truth values with capitals, so these two are names of the source, and they are
left as they are (`escape_clashes_iff`).
-/

namespace Offside

open List Target

/-- The words that Julia reserves. -/
def juliaWords : List String := [
  "baremodule", "begin", "break", "catch", "const", "continue", "do", "else", "elseif",
    "end", "export",
  "false", "finally", "for", "function", "global", "if", "import", "let", "local",
    "macro", "module",
  "quote", "return", "struct", "true", "try", "using", "while"]

/-! ## Names that are spelled alike -/

theorem escape_of_mem {name : String} (h : name ∈ reservedWords) : escape name = name ++ "_" :=
  if_pos h

theorem escape_of_notMem {name : String} (h : name ∉ reservedWords) : escape name = name := if_neg h

/-- An escaped word is not escaped again. -/
theorem append_underscore_notMem {name : String} (h : name ∈ reservedWords) :
    name ++ "_" ∉ reservedWords := by
  have hall : ∀ name ∈ reservedWords, name ++ "_" ∉ reservedWords := by decide
  exact hall name h

/-- Two names are spelled alike if they are the same, or if one is escaped and the other is spelled
as the first one is with its underscore. -/
theorem escape_eq_escape_iff {a b : String} :
    escape a = escape b ↔ a = b ∨ (a ∈ reservedWords ∧ b = a ++ "_") ∨
      (b ∈ reservedWords ∧ a = b ++ "_") := by
  by_cases ha : a ∈ reservedWords
  · by_cases hb : b ∈ reservedWords
    · have hab : b ≠ a ++ "_" := fun h => append_underscore_notMem ha (h ▸ hb)
      have hba : a ≠ b ++ "_" := fun h => append_underscore_notMem hb (h ▸ ha)
      rw [escape_of_mem ha, escape_of_mem hb, String.append_left_inj]
      simp [hab, hba]
    · have hne : a ≠ b := fun h => hb (h ▸ ha)
      rw [escape_of_mem ha, escape_of_notMem hb]
      simp [ha, hb, hne, eq_comm]
  · by_cases hb : b ∈ reservedWords
    · have hne : a ≠ b := fun h => ha (h ▸ hb)
      rw [escape_of_notMem ha, escape_of_mem hb]
      simp [ha, hb, hne]
    · rw [escape_of_notMem ha, escape_of_notMem hb]
      simp [ha, hb]

/-! ## Names of the source -/

/-- A name that is met in the tokens of some text, as an identifier or as a known function. -/
def IsScanned (name : String) : Prop :=
  ∃ text names tokens names', tokenize text names = (.ok tokens, names') ∧
    ∃ t ∈ tokens, t.kind = .identifier name ∨ t.kind = .function name

theorem IsScanned.isPlainName {name : String} (h : IsScanned name) : isPlainName name := by
  obtain ⟨text, names, tokens, names', htokens, t, ht, hkind⟩ := h
  have hlexical := Token.areLexical_iff.mp (yields_tokenize htokens).lexical t ht
  rcases hkind with hkind | hkind
  · rw [hkind] at hlexical
    exact isPlainName_of_identifier hlexical
  · rw [hkind] at hlexical
    exact isPlainName_of_function hlexical

/-- A kind that can be written with a name in it is met in the tokens of the text that it is written
as. -/
theorem isScanned_of_isWritable {kind : Kind} {name : String} (h : kind.IsWritable)
    (hname : kind = .identifier name ∨ kind = .function name) : IsScanned name := by
  have hclosed : [kind].foldl Kind.depthAfter 0 = 0 := by rcases hname with rfl | rfl <;> rfl
  have hline : IsLine [kind] := ⟨cons_ne_nil _ _, forall_mem_singleton.mpr h, hclosed⟩
  have hlaid : LaidOut 0 [kind, .newline, .endOfInput] := .dedented 0 hline (.finish 0)
  have hheld : ∀ other, Kind.identifier other ∈ [kind, .newline, .endOfInput] → other ∈ [name] := by
    intro other hother
    rcases hname with rfl | rfl
    · simpa using hother
    · simp at hother
  have hbefore (text : List Char) :
      (Scanner.ofText (String.ofList text) ⟨[name]⟩).Before ⟨[name]⟩ 0 text :=
    ⟨⟨String.toList_ofList, rfl, rfl, rfl, rfl⟩, rfl⟩
  have hquote : isQuote '"' := rfl
  obtain ⟨tokens, s, hrun, hkinds, hnames⟩ := hlaid.yields hquote hheld (hbefore _)
  obtain ⟨t, rest, rfl, ht, hrest⟩ := map_eq_cons_iff.mp hkinds
  obtain ⟨u, rest, rfl, hu, hrest⟩ := map_eq_cons_iff.mp hrest
  obtain ⟨v, rfl, hv⟩ := map_eq_singleton_iff.mp hrest
  have hends : Scanner.EndsInput [t, u, v] := by
    refine ⟨[t, u], v, rfl, by rw [hv]; rfl, ?_⟩
    have hkind : kind.isEnd = false := by rcases hname with rfl | rfl <;> rfl
    have hnewline : Kind.newline.isEnd = false := rfl
    simp [ht, hu, hkind, hnewline]
  refine ⟨_, _, _, _, tokenize_eq_ok_iff.mpr ⟨s, hrun, hends, hnames⟩, t, mem_cons_self, ?_⟩
  rwa [ht]

/-- The names that texts are cut into are the words that are free for names. -/
theorem isScanned_iff {name : String} : IsScanned name ↔ isPlainName name := by
  refine ⟨IsScanned.isPlainName, fun h => ?_⟩
  by_cases hknown : name ∈ knownFunctions
  · exact @isScanned_of_isWritable (.function name) name hknown (.inr rfl)
  · exact @isScanned_of_isWritable (.identifier name) name ⟨h, hknown⟩ (.inl rfl)

/-- Of the names of the source, only `true` and `false` are spelled as words that Julia reserves. -/
theorem escape_mem_juliaWords_iff {name : String} (h : isPlainName name) :
    escape name ∈ juliaWords ↔ name = "true" ∨ name = "false" := by
  have hescaped : ∀ word ∈ reservedWords, word ++ "_" ∉ juliaWords ∧ word ≠ "true" ∧
      word ≠ "false" := by decide
  have hplain : ∀ word ∈ juliaWords, isPlainName word → word ∉ reservedWords →
      word = "true" ∨ word = "false" := by decide
  by_cases hname : name ∈ reservedWords
  · obtain ⟨hword, htrue, hfalse⟩ := hescaped name hname
    simp [escape_of_mem hname, hword, htrue, hfalse]
  · rw [escape_of_notMem hname]
    constructor
    · intro hmem
      exact hplain name hmem h hname
    · rintro (rfl | rfl) <;> decide

/-- Two different names are spelled alike in the emitted code exactly if one of them is an escaped
word and the other is this word with an underscore.  A name of the source is spelled as a word that
Julia reserves exactly if it is `true` or `false`.  All these names are met in texts. -/
theorem escape_clashes_iff (a b : String) :
    (a ≠ b → (escape a = escape b ↔
      (a ∈ reservedWords ∧ b = a ++ "_") ∨ (b ∈ reservedWords ∧ a = b ++ "_"))) ∧
    (IsScanned a → (escape a ∈ juliaWords ↔ a = "true" ∨ a = "false")) ∧
    (a ∈ reservedWords → IsScanned a ∧ IsScanned (a ++ "_")) ∧
    IsScanned "true" ∧ IsScanned "false" := by
  have hmet : ∀ a ∈ reservedWords, isPlainName a = true ∧ isPlainName (a ++ "_") = true := by decide
  refine ⟨?_, ?_, ?_, isScanned_iff.mpr (by decide), isScanned_iff.mpr (by decide)⟩
  · intro hne
    rw [escape_eq_escape_iff]
    exact or_iff_right hne
  · intro ha
    exact escape_mem_juliaWords_iff ha.isPlainName
  · intro ha
    exact ⟨isScanned_iff.mpr (hmet a ha).1, isScanned_iff.mpr (hmet a ha).2⟩

/-- The names `end` and `end_` are spelled alike, and `true` stays a literal of Julia. -/
theorem escape_end_collides :
    IsScanned "end" ∧ IsScanned "end_" ∧ "end" ≠ "end_" ∧ escape "end" = escape "end_" ∧
      IsScanned "true" ∧ escape "true" ∈ juliaWords := by
  have hend : isPlainName "end" = true ∧ isPlainName "end_" = true ∧
      isPlainName "true" = true := by decide
  exact ⟨isScanned_iff.mpr hend.1, isScanned_iff.mpr hend.2.1, by decide, by decide,
    isScanned_iff.mpr hend.2.2, by decide⟩

/-- A reserved word next to the name that it is escaped to, and next to another name. -/
theorem escape_clashes_iff_end :
    "end" ≠ "end_" ∧ escape "end" = escape "end_" ∧ "end" ≠ "End" ∧ escape "end" ≠ escape "End" ∧
      IsScanned "end" ∧ escape "end" ∉ juliaWords := by
  obtain ⟨hcollide, hreserved, hmet, -⟩ := escape_clashes_iff "end" "end_"
  have hend := (hmet (by decide)).1
  refine ⟨by decide, (hcollide (by decide)).mpr (by decide), by decide, ?_, hend, ?_⟩
  · rw [Ne, (escape_clashes_iff "end" "End").1 (by decide)]
    decide
  · rw [hreserved hend]
    decide

end Offside
