import Offside.Source.Cursor

/-!
# Places in a text

The line and the column of a place are counted here from the text before it, from scratch: a line
ends with a newline sequence, and a column is a character since the last of them.  A place never
lies between the two characters of one newline sequence.

A cursor keeps its location while it moves.  What it passes on its way is a text, and a cursor that
had the location counted from the text before it has the one counted from the longer text behind it
(`Cursor.Passes`).  This is shown once for each way of moving; longer ways are put together.
-/

namespace Offside

open List

/-! ## Locations counted from scratch -/

/-- The number of newline sequences in a text. -/
def newlineCount : List Char → Nat
  | [] => 0
  | '\r' :: '\n' :: rest => newlineCount rest + 1
  | d :: rest => if isNewline d then newlineCount rest + 1 else newlineCount rest

/-- The characters of a text behind its last newline sequence. -/
def lastLine (text : List Char) : List Char := (text.reverse.takeWhile (!isNewline ·)).reverse

/-- The location behind a text, counted from scratch. -/
def Location.behind (before : List Char) : Location where
  line := .ofNat (newlineCount before + 1)
  column := .ofNat ((lastLine before).length + 1)
  offset := .ofNat (byteLength before)

/-- A cut between the two characters of a newline sequence. -/
def SplitsNewline (before after : List Char) : Prop :=
  before.getLast? = some '\r' ∧ after.head? = some '\n'

/-- A location is a place of a source: it is counted from a part before it, and it does not stand
inside a newline sequence. -/
def Location.IsPlaceOf (l : Location) (source : List Char) : Prop :=
  ∃ before after, source = before ++ after ∧ ¬SplitsNewline before after ∧ l = .behind before

/-- A text that ends one line. -/
def IsNewlineSequence (text : List Char) : Prop :=
  text = ['\n'] ∨ text = ['\r'] ∨ text = ['\r', '\n']

variable {d : Char} {before rest text : List Char}

theorem newlineCount_cons (h : ¬∃ more, d :: rest = '\r' :: '\n' :: more) :
    newlineCount (d :: rest) = newlineCount rest + if isNewline d then 1 else 0 := by
  rw [newlineCount]
  · split <;> rfl
  · intro more hd hrest
    exact h ⟨more, by rw [hd, hrest]⟩

/-- Newline sequences are counted part by part, if no cut splits one. -/
theorem newlineCount_append {after : List Char} (h : ¬SplitsNewline before after) :
    newlineCount (before ++ after) = newlineCount before + newlineCount after := by
  have tail {d : Char} {rest : List Char} (h : ¬SplitsNewline (d :: rest) after) : ¬SplitsNewline
      rest after := by
    rintro ⟨hlast, hhead⟩
    exact h ⟨by rw [getLast?_cons, hlast]; rfl, hhead⟩
  fun_induction newlineCount before with
  | case1 => simp
  | case2 rest ih =>
    rw [cons_append, cons_append, newlineCount, ih (tail (tail h))]
    omega
  | case3 d rest hd hnewline ih | case4 d rest hd hnewline ih =>
    have hcut : ¬∃ more, d :: (rest ++ after) = '\r' :: '\n' :: more := by
      rintro ⟨more, hmore⟩
      obtain ⟨rfl, hafter⟩ := cons.inj hmore
      cases rest with
      | nil => exact h ⟨rfl, congrArg head? hafter⟩
      | cons e rest => exact hd rest rfl (congrArg (· :: rest) (cons.inj hafter).1)
    rw [cons_append, newlineCount_cons hcut, ih (tail h)]
    simp only [hnewline, Bool.false_eq_true, ↓reduceIte]
    omega

theorem length_lastLine_concat (text : List Char) (d : Char) :
    (lastLine (text ++ [d])).length = if isNewline d then 0 else (lastLine text).length + 1 := by
  simp only [lastLine, reverse_append, reverse_singleton, singleton_append, takeWhile_cons,
    length_reverse]
  cases isNewline d <;> simp

theorem not_splitsNewline_nil (after : List Char) : ¬SplitsNewline [] after := nofun

/-- A character that ends no line moves the location by one column. -/
theorem behind_concat (h : isNewline d = false) :
    Location.behind (before ++ [d]) = (Location.behind before).along [d] := by
  have hcut : ¬SplitsNewline before [d] := by
    rintro ⟨-, hd⟩
    cases hd
    cases h
  have hcount : newlineCount [d] = 0 := by
    rw [newlineCount_cons (by simp), h]
    rfl
  simp only [Location.behind, Location.along, newlineCount_append hcut, length_lastLine_concat, h,
    hcount, byteLength_append, UInt32.ofNat_add, Nat.add_zero, Bool.false_eq_true, ↓reduceIte]
  rfl

/-- A text without newlines moves the location along. -/
theorem behind_append (h : ∀ d ∈ text, isNewline d = false) (before : List Char) :
    Location.behind (before ++ text) = (Location.behind before).along text := by
  induction text generalizing before with
  | nil => simp
  | cons d text ih =>
    rw [append_cons, ih (fun e he => h e (mem_cons_of_mem d he)),
      behind_concat (h d mem_cons_self), ← Location.along_append, singleton_append]

/-- A newline sequence moves the location to the next line. -/
theorem behind_newline (htext : IsNewlineSequence text) (hcut : ¬SplitsNewline before text) :
    Location.behind (before ++ text) = (Location.behind before).nextLine (byteLength text) := by
  have hcount : newlineCount text = 1 := by
    rcases htext with rfl | rfl | rfl <;> rfl
  have hline : (lastLine (before ++ text)).length = 0 := by
    obtain ⟨init, d, rfl, hd⟩ : ∃ init d, text = init ++ [d] ∧ isNewline d := by
      rcases htext with rfl | rfl | rfl
      · exact ⟨[], '\n', rfl, rfl⟩
      · exact ⟨[], '\r', rfl, rfl⟩
      · exact ⟨['\r'], '\n', rfl, rfl⟩
    rw [← append_assoc, length_lastLine_concat, if_pos hd]
  simp only [Location.behind, Location.nextLine, newlineCount_append hcut, hcount, hline,
    byteLength_append, UInt32.ofNat_add]
  rfl

theorem newlineCount_le_length (text : List Char) : newlineCount text ≤ text.length := by
  fun_induction newlineCount text with
  | case1 => exact Nat.le_refl 0
  | case2 rest ih | case3 d rest _ _ ih | case4 d rest _ _ ih =>
    simp only [length_cons]
    omega

theorem length_lastLine_le (text : List Char) : (lastLine text).length ≤ text.length := by
  have hle := (takeWhile_sublist (!isNewline ·) : _ <+ text.reverse).length_le
  rwa [length_reverse, ← length_reverse] at hle

/-- No line and no column wraps behind fewer than `2 ^ 32 - 1` bytes. -/
theorem Location.toNat_behind (hsize : byteLength before + 1 < UInt32.size) :
    (behind before).line.toNat = newlineCount before + 1 ∧
      (behind before).column.toNat = (lastLine before).length + 1 := by
  have hlength := length_le_byteLength before
  have hline := Nat.le_trans (newlineCount_le_length before) hlength
  have hcolumn := Nat.le_trans (length_lastLine_le before) hlength
  exact ⟨UInt32.toNat_ofNat_of_lt' (Nat.lt_of_le_of_lt (Nat.succ_le_succ hline) hsize),
    UInt32.toNat_ofNat_of_lt' (Nat.lt_of_le_of_lt (Nat.succ_le_succ hcolumn) hsize)⟩

/-- Places of a part of a source are places of the source, if no newline sequence reaches out of the
part. -/
theorem Location.IsPlaceOf.append {l : Location} {source more : List Char} (h : l.IsPlaceOf source)
    (hmore : more.head? ≠ some '\n') : l.IsPlaceOf (source ++ more) := by
  obtain ⟨before, after, rfl, hcut, rfl⟩ := h
  refine ⟨before, after ++ more, by rw [append_assoc], ?_, rfl⟩
  rintro ⟨hlast, hhead⟩
  cases after with
  | nil => exact hmore hhead
  | cons d after => exact hcut ⟨hlast, hhead⟩

namespace Cursor

/-! ## Cursors behind a text -/

/-- A cursor stands behind a text: its location is counted from that text, and it does not stand
inside a newline sequence. -/
structure Follows (c : Cursor) (before : List Char) : Prop where
  location : c.location = .behind before
  whole : ¬SplitsNewline before c.rest

/-- On its way from one cursor to another, `text` is passed. -/
structure Passes (c : Cursor) (text : List Char) (next : Cursor) : Prop where
  rest : c.rest = text ++ next.rest
  follows : ∀ {before}, c.Follows before → next.Follows (before ++ text)

theorem follows_ofText (text : String) : (ofText text).Follows [] :=
  ⟨rfl, not_splitsNewline_nil _⟩

variable {c next : Cursor}

theorem Follows.isPlaceOf (h : c.Follows before) : c.location.IsPlaceOf (before ++ c.rest) :=
  ⟨before, c.rest, rfl, h.whole, h.location⟩

/-- The offset of a cursor counts the bytes before it, if there are fewer than `2 ^ 32`. -/
theorem Follows.offset {c : Cursor} {before : List Char} (h : c.Follows before)
    (hsize : byteLength before < UInt32.size) : c.location.offset.toNat = byteLength before := by
  rw [h.location]
  exact UInt32.toNat_ofNat_of_lt' hsize

/-- What a cursor reads is what stands at its offset, in a source whose offsets do not wrap. -/
theorem Follows.startingAt_eq (h : c.Follows before) {source : String}
    (hsource : source.toList = before ++ c.rest) (hsize : byteLength source.toList < UInt32.size) :
    startingAt source c.location = c := by
  rw [hsource, byteLength_append] at hsize
  have hoffset := h.offset (Nat.lt_of_le_of_lt (Nat.le_add_right _ _) hsize)
  rw [startingAt, hoffset, hsource, dropBytes?_append]
  rfl

theorem Passes.refl (c : Cursor) : c.Passes [] c :=
  ⟨rfl, fun h => by rwa [append_nil]⟩

theorem Passes.trans {last : Cursor} {more : List Char} (h : c.Passes text next)
    (hmore : next.Passes more last) :
    c.Passes (text ++ more) last where
  rest := by rw [h.rest, hmore.rest, append_assoc]
  follows hc := by
    rw [← append_assoc]
    exact hmore.follows (h.follows hc)

theorem Passes.length_le (h : c.Passes text next) :
    next.rest.length + text.length = c.rest.length := by
  rw [h.rest, length_append, Nat.add_comm]

/-- A text without newlines is passed along the line. -/
theorem passes_along (hrest : c.rest = text ++ rest) (htext : ∀ d ∈ text, isNewline d = false) :
    c.Passes text ⟨rest, c.location.along text⟩ where
  rest := hrest
  follows {before} h := by
    refine ⟨by rw [h.location, behind_append htext], ?_⟩
    rintro ⟨hlast, hhead⟩
    cases htail : text.getLast? with
    | none =>
      obtain rfl := getLast?_eq_none_iff.mp htail
      rw [append_nil] at hlast
      exact h.whole ⟨hlast, by rw [hrest]; exact hhead⟩
    | some d =>
      rw [getLast?_append, htail, Option.some_or] at hlast
      cases hlast
      cases htext _ (mem_of_getLast? htail)

/-- A newline sequence is passed to the next line. -/
theorem passes_nextLine (hrest : c.rest = text ++ rest) (htext : IsNewlineSequence text)
    (hcut : ¬SplitsNewline text rest) :
    c.Passes text ⟨rest, c.location.nextLine (byteLength text)⟩ where
  rest := hrest
  follows {before} h := by
    have hbefore : ¬SplitsNewline before text := by
      rintro ⟨hlast, hhead⟩
      refine h.whole ⟨hlast, ?_⟩
      rw [hrest, head?_append, hhead, Option.some_or]
    refine ⟨by rw [h.location, behind_newline htext hbefore], ?_⟩
    rintro ⟨hlast, hhead⟩
    have htail : (before ++ text).getLast? = text.getLast? := by
      rcases htext with rfl | rfl | rfl <;> simp
    exact hcut ⟨htail.symm.trans hlast, hhead⟩

/-! ## Single steps -/

/-- The text that one step passes, when it reports the character `d`. -/
def IsStep (d : Char) (text : List Char) : Prop :=
  isNewline d = false ∧ text = [d] ∨ d = '\n' ∧ IsNewlineSequence text

/-- A step passes a character or a newline sequence. -/
theorem passes_advance (h : c.advance = some (d, next)) :
    ∃ text, IsStep d text ∧ c.Passes text next := by
  rw [advance] at h
  split at h
  · cases h
  · rename_i rest hrest
    cases h
    have hsequence : IsNewlineSequence ['\r', '\n'] := .inr (.inr rfl)
    refine ⟨['\r', '\n'], .inr ⟨rfl, hsequence⟩, passes_nextLine hrest hsequence ?_⟩
    rintro ⟨hlast, -⟩
    cases hlast
  · rename_i e rest hpair hrest
    split at h
    · rename_i he
      cases h
      have hsequence : IsNewlineSequence [e] := by
        rw [isNewline, Bool.or_eq_true, beq_iff_eq, beq_iff_eq] at he
        rcases he with rfl | rfl
        · exact .inl rfl
        · exact .inr (.inl rfl)
      have hsize : byteLength [e] = 1 := by
        rcases hsequence with hs | hs | hs
        · rw [hs]; decide
        · rw [hs]; decide
        · cases hs
      have hcut : ¬SplitsNewline [e] rest := by
        rintro ⟨hlast, hhead⟩
        obtain rfl : e = '\r' := by simpa using hlast
        cases rest with
        | nil => cases hhead
        | cons f rest =>
          obtain rfl : f = '\n' := by simpa using hhead
          exact hpair rest rfl rfl
      have hpass := passes_nextLine hrest hsequence hcut
      rw [hsize] at hpass
      exact ⟨[e], .inr ⟨rfl, hsequence⟩, hpass⟩
    · rename_i he
      obtain ⟨rfl, rfl⟩ := Prod.mk.inj (Option.some.inj h)
      rw [Bool.not_eq_true] at he
      refine ⟨[e], .inl ⟨he, rfl⟩, passes_along hrest ?_⟩
      simpa using he

theorem advance_of_peek (h : c.peek = some d) :
    c.advance = some (if isNewline d then '\n' else d, c.skip) := by
  obtain ⟨rest, hrest⟩ : ∃ rest, c.rest = d :: rest := by
    cases hc : c.rest with
    | nil => simp [peek, hc] at h
    | cons e rest =>
      obtain rfl : e = d := by simpa [peek, hc] using h
      exact ⟨rest, rfl⟩
  cases hadvance : c.advance with
  | none =>
    rw [advance_eq_none_iff, hrest] at hadvance
    cases hadvance
  | some step =>
    have hskip : c.skip = step.2 := by rw [skip, hadvance]; rfl
    have hchar : step.1 = if isNewline d then '\n' else d := by
      rw [advance, hrest] at hadvance
      split at hadvance
      · cases hadvance
      · rename_i hcons
        obtain ⟨rfl, -⟩ := cons.inj hcons
        rw [← Option.some.inj hadvance]
        rfl
      · rename_i e more _ hcons
        cases hcons
        split at hadvance <;> · rw [← Option.some.inj hadvance]; simp_all
    rw [hskip, ← hchar]

/-- A step away from the end passes the next character, or the newline sequence that it starts. -/
theorem passes_skip (h : c.peek = some d) :
    ∃ text, IsStep (if isNewline d then '\n' else d) text ∧ c.Passes text c.skip :=
  passes_advance (advance_of_peek h)

theorem skip_of_peek_none (h : c.peek = none) : c.skip = c := by
  have hrest : c.rest = [] := by simpa [peek] using h
  rw [skip, (advance_eq_none_iff c).mpr hrest]
  rfl

theorem passes_skip_of_not_newline (h : c.peek = some d) (hd : isNewline d = false) :
    c.Passes [d] c.skip := by
  obtain ⟨text, hstep, hpass⟩ := passes_skip h
  rw [hd] at hstep
  rcases hstep with ⟨-, rfl⟩ | ⟨heq, -⟩
  · exact hpass
  · rw [show d = '\n' from heq] at hd
    cases hd

theorem passes_skip_of_newline (h : c.peek = some d) (hd : isNewline d) :
    ∃ text, IsNewlineSequence text ∧ c.Passes text c.skip := by
  obtain ⟨text, hstep, hpass⟩ := passes_skip h
  rw [hd] at hstep
  rcases hstep with ⟨hnot, -⟩ | ⟨-, hsequence⟩
  · exact absurd hnot (Bool.false_ne_true ∘ Eq.symm)
  · exact ⟨text, hsequence, hpass⟩

/-! ## Longer ways -/

/-- Something is passed between two cursors. -/
def Reaches (c next : Cursor) : Prop := ∃ text, c.Passes text next

theorem Reaches.refl (c : Cursor) : c.Reaches c := ⟨[], .refl c⟩

theorem Reaches.trans {c next last : Cursor} (h : c.Reaches next) (hlast : next.Reaches last) :
    c.Reaches last := by
  obtain ⟨text, htext⟩ := h
  obtain ⟨more, hmore⟩ := hlast
  exact ⟨text ++ more, htext.trans hmore⟩

/-- Nothing new is before a cursor further on. -/
theorem Reaches.forall_mem {P : Char → Prop} (h : c.Reaches next) (hc : ∀ d ∈ c.rest, P d) :
    ∀ d ∈ next.rest, P d := by
  obtain ⟨text, htext⟩ := h
  intro d hd
  apply hc
  rw [htext.rest]
  exact mem_append_right _ hd

theorem reaches_skip (c : Cursor) : c.Reaches c.skip := by
  cases h : c.peek with
  | none =>
    rw [skip_of_peek_none h]
    exact .refl c
  | some d =>
    obtain ⟨text, -, hpass⟩ := passes_skip h
    exact ⟨text, hpass⟩

theorem reaches_skipMany (n : Nat) (c : Cursor) : c.Reaches (skipMany n c) := by
  induction n generalizing c with
  | zero => exact .refl c
  | succ n ih => exact (reaches_skip c).trans (ih c.skip)

/-- A run of characters that end no line is passed along the line. -/
theorem passes_run {p : Char → Bool} (hp : ∀ d, p d → isNewline d = false) (c : Cursor) :
    c.Passes (c.run p).1 (c.run p).2 :=
  passes_along (run_fst_append_rest p c).symm fun d hd =>
    hp d (all_eq_true.mp all_takeWhile d hd)

/-- As many steps as a text without newlines has characters pass that text. -/
theorem passes_skipMany (h : text <+: c.rest) (htext : ∀ d ∈ text, isNewline d = false) :
    c.Passes text (c.skipMany text.length) := by
  induction text generalizing c with
  | nil => exact .refl c
  | cons d text ih =>
    obtain ⟨rest, hrest⟩ := h
    have hpeek : c.peek = some d := by rw [peek, ← hrest]; rfl
    have hd := passes_skip_of_not_newline hpeek (htext d mem_cons_self)
    have hleads : text <+: c.skip.rest := by
      refine ⟨rest, ?_⟩
      have hcons := hd.rest
      rw [← hrest] at hcons
      exact (cons.inj hcons).2
    exact hd.trans (ih hleads fun e he => htext e (mem_cons_of_mem d he))

end Cursor

end Offside
