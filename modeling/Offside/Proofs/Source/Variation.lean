import Offside.NameTable
import Offside.Proofs.Source.Place

/-!
# Texts that are read alike

Two texts are read alike if they differ only in what is not looked at: in the newline sequences that
end their lines, and in the names that are in the table before the reading.  What may differ is laid
down by a `Collation`; it says which newline sequences may stand for each other, and what the
locations of the two readings are compared by.

Two cursors are alike if they stand before such texts, at places with the same part.  They stay
alike when both move: over one character or one newline sequence (`Cursor.Alike.ahead`), and so
along every longer way.
-/

namespace Offside

open List

/-- How two readings of texts are compared. -/
structure Collation where
  /-- What a location of the first reading is compared by. -/
  place : Location → Location
  /-- What a location of the second reading is compared by. -/
  place' : Location → Location
  /-- The names of the second reading, by those of the first. -/
  names : NameTable → NameTable
  /-- The newline sequences of the second text that may stand for one of the first. -/
  swaps : List Char → List Char → Prop
  place_along : ∀ {l l' : Location} (text : List Char), place l = place' l' →
    place (l.along text) = place' (l'.along text)
  place_nextLine : ∀ {l l' : Location} {sequence sequence' : List Char}, swaps sequence sequence' →
    place l = place' l' → place (l.nextLine sequence.length) = place' (l'.nextLine sequence'.length)
  names_intern : ∀ (t : NameTable) (name : String), names (t.intern name) = (names t).intern name

/-- What may differ between two readings of the same tokens: where they stand, and the names in the
tables. -/
structure Rereading where
  /-- The part of a location that is the same in both readings. -/
  place : Location → Location
  names : NameTable → NameTable
  place_origin : place {} = {}
  names_intern : ∀ (t : NameTable) (name : String), names (t.intern name) = (names t).intern name

/-- What may differ between two readings. -/
structure Variation extends Rereading where
  swaps : List Char → List Char → Prop
  place_along : ∀ {l l' : Location} (text : List Char), place l = place l' →
    place (l.along text) = place (l'.along text)
  place_nextLine : ∀ {l l' : Location} {sequence sequence' : List Char}, swaps sequence sequence' →
    place l = place l' → place (l.nextLine sequence.length) = place (l'.nextLine sequence'.length)

instance : Coe Variation Rereading := ⟨Variation.toRereading⟩

/-- The locations of both readings are compared by the same part of them. -/
abbrev Variation.collation (v : Variation) : Collation := { v with place' := v.place }

/-- The tables of both readings may be the same. -/
theorem NameTable.id_intern (t : NameTable) (name : String) :
    id (t.intern name) = (id t).intern name := rfl

/-- Both readings are the same. -/
def Variation.same : Variation where
  place := id
  names := id
  swaps := Eq
  place_origin := rfl
  place_along text h := congrArg (Location.along · text) h
  place_nextLine hswaps h := hswaps ▸ congrArg (Location.nextLine · _) h
  names_intern := NameTable.id_intern

/-- A text and one with other newline sequences. -/
inductive Recast (swaps : List Char → List Char → Prop) : List Char → List Char → Prop
  | nil : Recast swaps [] []
  | char {d : Char} {rest rest' : List Char} (hd : isNewline d = false)
    (h : Recast swaps rest rest') :
    Recast swaps (d :: rest) (d :: rest')
  | newline {sequence sequence' rest rest' : List Char} (hsequence : IsNewlineSequence sequence)
    (hsequence' : IsNewlineSequence sequence') (hswaps : swaps sequence sequence')
    (hcut : ¬SplitsNewline sequence rest) (hcut' : ¬SplitsNewline sequence' rest')
    (h : Recast swaps rest rest') : Recast swaps (sequence ++ rest) (sequence' ++ rest')

variable {d : Char} {p : Char → Bool}

theorem eq_false_of_isNewline (hp : ∀ d, p d → isNewline d = false) (hd : isNewline d) :
    p d = false := by
  refine Bool.eq_false_iff.mpr fun hpd => ?_
  exact absurd ((hp d hpd).symm.trans hd) Bool.false_ne_true

theorem IsNewlineSequence.exists_cons {sequence : List Char} (h : IsNewlineSequence sequence) :
    ∃ d more, sequence = d :: more ∧ isNewline d := by
  rcases h with rfl | rfl | rfl
  · exact ⟨'\n', [], rfl, rfl⟩
  · exact ⟨'\r', [], rfl, rfl⟩
  · exact ⟨'\r', ['\n'], rfl, rfl⟩

namespace Recast

variable {swaps : List Char → List Char → Prop} {rest rest' : List Char}

/-- A text without newlines is recast as itself, in front of every recast text. -/
theorem append {text : List Char} (htext : ∀ d ∈ text, isNewline d = false)
    (h : Recast swaps rest rest') : Recast swaps (text ++ rest) (text ++ rest') := by
  induction text with
  | nil => exact h
  | cons d text ih =>
    obtain ⟨hd, htext⟩ := forall_mem_cons.mp htext
    exact .char hd (ih htext)

theorem of_forall {text : List Char} (htext : ∀ d ∈ text, isNewline d = false) :
    Recast swaps text text := by
  have h : Recast swaps (text ++ []) (text ++ []) := append htext .nil
  rwa [append_nil] at h

/-- Every text is recast as itself, if every newline sequence may stand for itself. -/
theorem refl (hswaps : ∀ sequence, swaps sequence sequence) (text : List Char) :
    Recast swaps text text := by
  fun_induction newlineCount text with
  | case1 => exact .nil
  | case2 rest ih =>
    have hcut : ¬SplitsNewline ['\r', '\n'] rest := fun hsplit => absurd hsplit.1 (by decide)
    exact .newline (.inr (.inr rfl)) (.inr (.inr rfl)) (hswaps _) hcut hcut ih
  | case3 d rest hpair hd ih =>
    have hsequence : IsNewlineSequence [d] := by
      rcases Bool.or_eq_true_iff.mp hd with hd | hd
      · exact .inl (congrArg (fun c => [c]) (beq_iff_eq.mp hd))
      · exact .inr (.inl (congrArg (fun c => [c]) (beq_iff_eq.mp hd)))
    have hcut : ¬SplitsNewline [d] rest := by
      rintro ⟨hlast, hhead⟩
      obtain ⟨more, rfl⟩ := head?_eq_some_iff.mp hhead
      exact hpair more (Option.some.inj hlast) rfl
    exact .newline hsequence hsequence (hswaps _) hcut hcut ih
  | case4 d rest hpair hd ih => exact .char (Bool.eq_false_iff.mpr hd) ih

theorem eq_of_eq (h : Recast Eq rest rest') : rest' = rest := by
  induction h with
  | nil => rfl
  | char _ _ ih => rw [ih]
  | newline _ _ hswaps _ _ _ ih => rw [ih, hswaps]

/-- A text without newlines stands at the start of both texts or of none. -/
theorem isPrefixOf_eq {text : List Char} (htext : ∀ d ∈ text, isNewline d = false)
    (h : Recast swaps rest rest') : text.isPrefixOf rest = text.isPrefixOf rest' := by
  induction h generalizing text with
  | nil => rfl
  | @char d rest rest' hd h ih =>
    cases text with
    | nil => rfl
    | cons e text =>
      obtain ⟨-, htext⟩ := forall_mem_cons.mp htext
      rw [isPrefixOf, isPrefixOf, ih htext]
  | newline hsequence hsequence' hswaps hcut hcut' h ih =>
    cases text with
    | nil => rfl
    | cons e text =>
      obtain ⟨he, -⟩ := forall_mem_cons.mp htext
      have hfirst {sequence : List Char} (hsequence : IsNewlineSequence sequence)
        (rest : List Char) :
          (e :: text).isPrefixOf (sequence ++ rest) = false := by
        obtain ⟨d, more, rfl, hd⟩ := hsequence.exists_cons
        have hne : (e == d) = false := by
          rw [beq_eq_false_iff_ne]
          rintro rfl
          exact absurd (he.symm.trans hd) Bool.false_ne_true
        rw [cons_append, isPrefixOf, hne, Bool.false_and]
      rw [hfirst hsequence, hfirst hsequence']

/-- The characters with a property that no newline has are the same at the start of both texts. -/
theorem takeWhile_dropWhile (hp : ∀ d, p d → isNewline d = false) (h : Recast swaps rest rest') :
    rest.takeWhile p = rest'.takeWhile p ∧ Recast swaps (rest.dropWhile p) (rest'.dropWhile p) := by
  induction h with
  | nil => exact ⟨rfl, .nil⟩
  | @char d rest rest' hd h ih =>
    by_cases hpd : p d
    · rw [takeWhile_cons_of_pos hpd, takeWhile_cons_of_pos hpd, dropWhile_cons_of_pos hpd,
        dropWhile_cons_of_pos hpd]
      exact ⟨congrArg (d :: ·) ih.1, ih.2⟩
    · rw [takeWhile_cons_of_neg hpd, takeWhile_cons_of_neg hpd, dropWhile_cons_of_neg hpd,
        dropWhile_cons_of_neg hpd]
      exact ⟨rfl, .char hd h⟩
  | @newline sequence sequence' rest rest' hsequence hsequence' hswaps hcut hcut' h ih =>
    have hstop {sequence : List Char} (hsequence : IsNewlineSequence sequence) (rest : List Char) :
        (sequence ++ rest).takeWhile p = [] ∧ (sequence ++ rest).dropWhile p =
          sequence ++ rest := by
      obtain ⟨d, more, rfl, hd⟩ := hsequence.exists_cons
      have hpd : ¬p d := Bool.eq_false_iff.mp (eq_false_of_isNewline hp hd)
      exact ⟨takeWhile_cons_of_neg hpd, dropWhile_cons_of_neg hpd⟩
    rw [(hstop hsequence rest).1, (hstop hsequence rest).2, (hstop hsequence' rest').1,
      (hstop hsequence' rest').2]
    exact ⟨rfl, .newline hsequence hsequence' hswaps hcut hcut' h⟩

/-- A text that starts with a character that ends no line is recast as one that starts with it. -/
theorem of_cons (hd : isNewline d = false) {text' : List Char}
    (h : Recast swaps (d :: rest) text') :
    ∃ rest', text' = d :: rest' ∧ Recast swaps rest rest' := by
  generalize htext : d :: rest = text at h
  cases h with
  | nil => cases htext
  | char _ h =>
    cases htext
    exact ⟨_, rfl, h⟩
  | newline hsequence =>
    obtain ⟨e, more, rfl, he⟩ := hsequence.exists_cons
    obtain ⟨rfl, -⟩ := cons.inj htext
    exact absurd (hd.symm.trans he) Bool.false_ne_true

theorem symm (h : Recast swaps rest rest') :
    Recast (fun sequence sequence' => swaps sequence' sequence) rest' rest := by
  induction h with
  | nil => exact .nil
  | char hd _ ih => exact .char hd ih
  | newline hsequence hsequence' hswaps hcut hcut' _ ih =>
    exact .newline hsequence' hsequence hswaps hcut' hcut ih

end Recast

/-! ## Cursors -/

namespace Cursor

theorem skip_char (hd : isNewline d = false) (rest : List Char) (l : Location) :
    skip ⟨d :: rest, l⟩ = ⟨rest, l.along [d]⟩ := by
  have hpeek : peek ⟨d :: rest, l⟩ = some d := rfl
  have hpair : ∀ more, d :: rest ≠ '\r' :: '\n' :: more := by
    rintro more heq
    obtain ⟨rfl, -⟩ := cons.inj heq
    cases hd
  unfold skip advance
  split
  · rename_i hnil
    cases hnil
  · rename_i more hmore
    exact absurd hmore (hpair more)
  · rename_i e more _ hmore
    cases hmore
    rw [hd]
    rfl

theorem skip_newline {sequence rest : List Char} (hsequence : IsNewlineSequence sequence)
    (hcut : ¬SplitsNewline sequence rest) (l : Location) :
    skip ⟨sequence ++ rest, l⟩ = ⟨rest, l.nextLine sequence.length⟩ := by
  rcases hsequence with rfl | rfl | rfl
  · rfl
  · have hpair : ∀ more, '\r' :: rest ≠ '\r' :: '\n' :: more := by
      rintro more heq
      exact hcut ⟨rfl, congrArg head? (cons.inj heq).2⟩
    unfold skip advance
    split
    · rename_i hnil
      cases hnil
    · rename_i more hmore
      exact absurd hmore (hpair more)
    · rename_i e more _ hmore
      cases hmore
      rfl
  · rfl

/-- Two cursors are alike: what is left to read is alike, and so are their places. -/
structure Alike (v : Collation) (c c' : Cursor) : Prop where
  rest : Recast v.swaps c.rest c'.rest
  location : v.place c.location = v.place' c'.location

/-- What two cursors stand before, and where they are one step on. -/
inductive Ahead (v : Collation) (c c' : Cursor) : Prop
  | nothing (h : c.peek = none) (h' : c'.peek = none)
  | char {d : Char} (hd : isNewline d = false) (h : c.peek = some d) (h' : c'.peek = some d)
    (hskip : Alike v c.skip c'.skip)
  | newline {d d' : Char} (hd : isNewline d = true) (hd' : isNewline d' = true)
    (h : c.peek = some d)
    (h' : c'.peek = some d') (hskip : Alike v c.skip c'.skip)

namespace Alike

variable {v : Collation} {c c' : Cursor}

/-- Both cursors stand before the same character, or before newline sequences, and are alike behind
them. -/
theorem ahead (h : c.Alike v c') : Ahead v c c' := by
  obtain ⟨text, l⟩ := c
  obtain ⟨text', l'⟩ := c'
  obtain ⟨hrest, hplace⟩ := h
  cases hrest with
  | nil => exact .nothing rfl rfl
  | char hd hrest =>
    refine .char hd rfl rfl ?_
    rw [skip_char hd, skip_char hd]
    exact ⟨hrest, v.place_along _ hplace⟩
  | @newline sequence sequence' rest rest' hsequence hsequence' hswaps hcut hcut' hrest =>
    have hskip : Alike v (skip ⟨sequence ++ rest, l⟩) (skip ⟨sequence' ++ rest', l'⟩) := by
      rw [skip_newline hsequence hcut, skip_newline hsequence' hcut']
      exact ⟨hrest, v.place_nextLine hswaps hplace⟩
    obtain ⟨d, more, rfl, hd⟩ := hsequence.exists_cons
    obtain ⟨d', more', rfl, hd'⟩ := hsequence'.exists_cons
    exact .newline hd hd' rfl rfl hskip

theorem skip (h : c.Alike v c') : c.skip.Alike v c'.skip := by
  rcases h.ahead with ⟨hc, hc'⟩ | ⟨_, _, _, hskip⟩ | ⟨_, _, _, _, hskip⟩
  · rwa [skip_of_peek_none hc, skip_of_peek_none hc']
  · exact hskip
  · exact hskip

theorem skipMany (h : c.Alike v c') (n : Nat) : (c.skipMany n).Alike v (c'.skipMany n) := by
  induction n generalizing c c' with
  | zero => exact h
  | succ n ih => exact ih h.skip

/-- A question about the next character has the same answer, if it has one answer for all newlines.
-/
theorem any_peek (h : c.Alike v c') {test : Char → Bool} {answer : Bool}
    (htest : ∀ d, isNewline d → test d = answer) : c.peek.any test = c'.peek.any test := by
  rcases h.ahead with ⟨hc, hc'⟩ | ⟨_, hc, hc', _⟩ | ⟨hd, hd', hc, hc', _⟩
  · rw [hc, hc']
  · rw [hc, hc']
  · rw [hc, hc']
    exact (htest _ hd).trans (htest _ hd').symm

theorem any_peek_of_imp (h : c.Alike v c') (hp : ∀ d, p d → isNewline d = false) :
    c.peek.any p = c'.peek.any p :=
  h.any_peek fun _ hd => eq_false_of_isNewline hp hd

/-- The next character, if it has a property that no newline has, is the same. -/
theorem filter_peek (h : c.Alike v c') (hp : ∀ d, p d → isNewline d = false) :
    c.peek.filter p = c'.peek.filter p := by
  have hnone {d : Char} (hd : isNewline d) : (some d).filter p = none :=
    Option.filter_some_neg (eq_false_of_isNewline hp hd)
  rcases h.ahead with ⟨hc, hc'⟩ | ⟨_, hc, hc', _⟩ | ⟨hd, hd', hc, hc', _⟩
  · rw [hc, hc']
  · rw [hc, hc']
  · rw [hc, hc', hnone hd, hnone hd']

/-- Both cursors stand before the given character or none does. -/
theorem peek_eq_some_iff (h : c.Alike v c') (hd : isNewline d = false) :
    c.peek = some d ↔ c'.peek = some d := by
  have hne {e : Char} (he : isNewline e) : some e ≠ some d := by
    rintro heq
    cases heq
    exact absurd (hd.symm.trans he) Bool.false_ne_true
  rcases h.ahead with ⟨hc, hc'⟩ | ⟨_, hc, hc', _⟩ | ⟨he, he', hc, hc', _⟩
  · rw [hc, hc']
  · rw [hc, hc']
  · rw [hc, hc']
    exact ⟨fun heq => absurd heq (hne he), fun heq => absurd heq (hne he')⟩

/-- A step is possible from both cursors or from none, and it reports the same character. -/
theorem advance (h : c.Alike v c') : c.advance = none ∧ c'.advance = none ∨
    ∃ d, c.advance = some (d, c.skip) ∧ c'.advance = some (d, c'.skip) := by
  have hnone {c : Cursor} (hc : c.peek = none) : c.advance = none :=
    (advance_eq_none_iff c).mpr (by simpa [peek] using hc)
  rcases h.ahead with ⟨hc, hc'⟩ | ⟨hd, hc, hc', _⟩ | ⟨hd, hd', hc, hc', _⟩
  · exact .inl ⟨hnone hc, hnone hc'⟩
  · exact .inr ⟨_, advance_of_peek hc, advance_of_peek hc'⟩
  · have hstep := advance_of_peek hc
    have hstep' := advance_of_peek hc'
    rw [if_pos hd] at hstep
    rw [if_pos hd'] at hstep'
    exact .inr ⟨'\n', hstep, hstep'⟩

/-- A run of characters that end no line is the same from both cursors. -/
theorem run (h : c.Alike v c') {p : Char → Bool} (hp : ∀ d, p d → isNewline d = false) :
    (c.run p).1 = (c'.run p).1 ∧ (c.run p).2.Alike v (c'.run p).2 := by
  obtain ⟨htext, hrest⟩ := h.rest.takeWhile_dropWhile hp
  refine ⟨htext, hrest, ?_⟩
  change v.place (c.location.along (c.rest.takeWhile p)) =
    v.place' (c'.location.along (c'.rest.takeWhile p))
  rw [htext]
  exact v.place_along _ h.location

end Alike

/-- Behind a character that ends no line stands the next but one. -/
theorem peekSecond_eq {c : Cursor} (h : c.peek = some d) (hd : isNewline d = false) :
    c.peekSecond = c.skip.peek := by
  have hrest := (passes_skip_of_not_newline h hd).rest
  rw [peekSecond, hrest, peek]
  rfl

theorem peekThird_eq {c : Cursor} (h : c.peek = some d) (hd : isNewline d = false) :
    c.peekThird = c.skip.peekSecond := by
  have hrest := (passes_skip_of_not_newline h hd).rest
  rw [peekThird, hrest, peekSecond]
  rfl

end Cursor

end Offside
