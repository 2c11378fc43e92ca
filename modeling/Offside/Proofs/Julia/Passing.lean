import Offside.Proofs.Julia.Reader

/-!
# Steps of the reader

How the reader passes the parts that texts are put together from: words and numbers, operators and
colons behind a row, and the characters of a string.  A whole row is passed operand by operand, so
that behind it the row in progress is `Line.put`, the same as if its operands had been given one by
one.
-/

namespace Offside.Julia

open Target List

/-! ## Rows in progress -/

/-- The row in progress behind the operands from `first` on. -/
def putFrom (before : Option (Row × Link)) (signs : List Unary) (first : Operand) :
    List (Link × Operand) → Line
  | [] => ⟨before, signs ++ first.signs, .filled first.tree⟩
  | (link, operand) :: rest =>
    putFrom (some (complete before ⟨signs ++ first.signs, first.tree⟩, link)) [] operand rest

namespace Line

variable (before : Option (Row × Link)) (signs : List Unary)

/-- The row in progress behind a row. -/
def put (r : Row) : Line :=
  putFrom before signs r.first r.rest

/-- What stands before the end of a row in progress, and a row. -/
def attach (r : Row) : Row :=
  let first : Operand := ⟨signs ++ r.first.signs, r.first.tree⟩
  match before with
  | none => ⟨first, r.rest⟩
  | some (b, link) => b.join link ⟨first, r.rest⟩

theorem attach_none (r : Row) : attach none [] r = r := rfl

theorem put_single (t : Tree) :
    put before signs (.single t) = ⟨before, signs, .filled t⟩ := by
  simp [put, putFrom, Row.single]

theorem put_signed (op : Unary) (r : Row) :
    put before signs (r.signed op) = put before (signs ++ [op]) r := by
  obtain ⟨first, rest⟩ := r
  cases rest <;> simp [put, putFrom, Row.signed]

/-- The first operand of a row belongs to what stands before it. -/
theorem attach_cons (first operand : Operand) (link : Link) (rest : List (Link × Operand)) :
    attach (some (complete before ⟨signs ++ first.signs, first.tree⟩, link)) [] ⟨operand, rest⟩ =
      attach before signs ⟨first, (link, operand) :: rest⟩ := by
  cases before <;> simp [attach, complete, Row.join]

/-- The row in progress behind a row is whole. -/
theorem row?_put (r : Row) :
    (put before signs r).row? = some (attach before signs r) := by
  obtain ⟨first, rest⟩ := r
  change (putFrom before signs first rest).row? = some (attach before signs ⟨first, rest⟩)
  induction rest generalizing before signs first with
  | nil => cases before <;> rfl
  | cons x rest ih =>
    obtain ⟨link, operand⟩ := x
    rw [putFrom, ih, attach_cons]

/-- An operator behind a row. -/
theorem link?_put (r : Row) (link : Link) :
    (put before signs r).link? link = some { before := some (attach before signs r, link) } := by
  rw [link?, row?_put]
  rfl

/-- A row joined from two rows is passed one after the other. -/
theorem put_join (r s : Row) (link : Link) :
    put before signs (r.join link s) = put (some (attach before signs r, link)) [] s := by
  obtain ⟨first, rest⟩ := r
  change putFrom before signs first (rest ++ (link, s.first) :: s.rest) =
    put (some (attach before signs ⟨first, rest⟩, link)) [] s
  induction rest generalizing before signs first with
  | nil => cases before <;> rfl
  | cons x rest ih =>
    obtain ⟨link', operand⟩ := x
    rw [cons_append, putFrom, ih, attach_cons]

/-- The last operand of a row can be replaced by what is written behind it. -/
theorem put_behind (r : Row) :
    ∃ t, (put before signs r).slot = .filled t ∧
      ∀ f : Tree → Tree, put before signs (r.behind f) = (put before signs r).fill (f t) := by
  obtain ⟨first, rest⟩ := r
  change ∃ t, (putFrom before signs first rest).slot = .filled t ∧ ∀ f : Tree → Tree,
    put before signs (Row.mapLast f first rest) = (putFrom before signs first rest).fill (f t)
  induction rest generalizing before signs first with
  | nil => exact ⟨first.tree, rfl, fun f => rfl⟩
  | cons x rest ih =>
    obtain ⟨link, operand⟩ := x
    exact ih (some (complete before ⟨signs ++ first.signs, first.tree⟩, link)) [] operand

end Line

/-! ## Steps of the reader -/

variable {c : Char}

theorem exists_of_mem_fourDigits {n : Nat} (h : c ∈ fourDigits n) : ∃ m < 16, c = m.digitChar := by
  have hdigits : ∀ m, c ∈ Nat.toDigits 16 m → ∃ m < 16, c = m.digitChar := by
    intro m
    induction m using Nat.strongRecOn with
    | _ m ih =>
      rw [Nat.toDigits_eq_if (by decide)]
      split
      · intro hc
        exact ⟨m, by omega, mem_singleton.mp hc⟩
      · intro hc
        rcases mem_append.mp hc with hc | hc
        · exact ih (m / 16) (by omega) hc
        · exact ⟨m % 16, by omega, mem_singleton.mp hc⟩
  rcases mem_append.mp h with hc | hc
  · exact ⟨0, by decide, eq_of_mem_replicate hc⟩
  · exact hdigits n hc

/-- Hexadecimal digits have no meaning of their own in a string. -/
theorem not_mem_of_mem_fourDigits {n : Nat} (h : c ∈ fourDigits n) : c ∉ ['"', '\\', '$'] := by
  have hdigit : ∀ m < 16, m.digitChar ∉ ['"', '\\', '$'] := by decide
  obtain ⟨m, hm, rfl⟩ := exists_of_mem_fourDigits h
  exact hdigit m hm

section Steps

variable (assoc : Association)

theorem elements?_put (opener : Opener) (elements : List Tree) (before : Option (Row × Link))
    (signs : List Unary) (r : Row) :
    Frame.elements? assoc ⟨opener, elements, .put before signs r⟩ =
      some (elements ++ [(Line.attach before signs r).resolve assoc]) := by
  obtain ⟨t, ht, -⟩ := Line.put_behind before signs r
  simp only [Frame.elements?, ht, Line.row?_put]
  rfl

namespace State

variable {cs rest : List Char}

theorem run_of_next? {s s' : State} (h : s.next? assoc cs = some (s', rest)) :
    s.run assoc cs = s'.run assoc rest := by
  cases cs with
  | nil =>
    have hlt := length_next?_lt assoc h
    cases hlt
  | cons c cs =>
    rw [run]
    split
    · rename_i hnone
      rw [h] at hnone
      simp at hnone
    · rename_i heq
      rw [h] at heq
      cases heq
      rfl

/-- A blank outside strings is passed over. -/
theorem run_blank (frame : Frame) (outer : List Frame) (rest : List Char) :
    run assoc ⟨frame, outer, none⟩ (' ' :: rest) = run assoc ⟨frame, outer, none⟩ rest :=
  run_of_next? assoc rfl

/-- A word, a number or a mark outside strings is passed in one step. -/
theorem run_lexeme {frame : Frame} {outer : List Frame} {x : Lexeme}
    (hx : lexeme? cs = some (x, rest)) {s : State}
    (hs : step assoc ⟨frame, outer, none⟩ x = some s) :
    run assoc ⟨frame, outer, none⟩ cs = s.run assoc rest := by
  have hblank : ∀ ds, cs ≠ ' ' :: ds := by
    rintro ds rfl
    have hnone : lexeme? (' ' :: ds) = none := rfl
    rw [hnone] at hx
    cases hx
  refine run_of_next? assoc ?_
  simp only [next?, hx, hs, Option.bind_eq_bind, Option.bind_some]
  rfl

/-- A mark outside strings is passed in one step. -/
theorem run_mark {frame : Frame} {outer : List Frame} {x : Lexeme}
    (hword : Text.isWordStart c = false) (hdigit : c.isDigit = false)
    (hx : mark? (c :: cs) = some (x, rest)) {s : State}
    (hs : step assoc ⟨frame, outer, none⟩ x = some s) :
    run assoc ⟨frame, outer, none⟩ (c :: cs) = s.run assoc rest :=
  run_lexeme assoc (by rw [lexeme?_eq_mark? hword hdigit, hx]) hs

/-- Where an operand is expected: in a bracket, behind the elements before, a row and an operator,
and signs. -/
structure Spot where
  opener : Opener
  elements : List Tree := []
  outer : List Frame := []
  before : Option (Row × Link) := none
  signs : List Unary := []

namespace Spot

/-- The reader where the operand is expected. -/
abbrev awaiting (s : Spot) : State :=
  ⟨⟨s.opener, s.elements, ⟨s.before, s.signs, .awaiting⟩⟩, s.outer, none⟩

/-- The reader behind a row that stands there. -/
abbrev behind (s : Spot) (r : Row) : State :=
  ⟨⟨s.opener, s.elements, .put s.before s.signs r⟩, s.outer, none⟩

/-- Behind a sign. -/
abbrev signed (s : Spot) (op : Unary) : Spot := { s with signs := s.signs ++ [op] }

/-- Behind a row and an operator. -/
abbrev linked (s : Spot) (r : Row) (link : Link) : Spot :=
  { s with before := some (Line.attach s.before s.signs r, link), signs := [] }

theorem behind_single (s : Spot) (t : Tree) :
    s.behind (.single t) =
      ⟨⟨s.opener, s.elements, ⟨s.before, s.signs, .filled t⟩⟩, s.outer, none⟩ := by
  rw [behind, Line.put_single]

theorem behind_signed (s : Spot) (op : Unary) (r : Row) :
    s.behind (r.signed op) = (s.signed op).behind r := by
  rw [behind, Line.put_signed]

theorem behind_join (s : Spot) (r r' : Row) (link : Link) :
    s.behind (r.join link r') = (s.linked r link).behind r' := by
  rw [behind, Line.put_join]

theorem exists_behind (s : Spot) (r : Row) : ∃ t, (Line.put s.before s.signs r).slot = .filled t ∧
    ∀ f : Tree → Tree, s.behind (r.behind f) =
      ⟨⟨s.opener, s.elements, (Line.put s.before s.signs r).fill (f t)⟩, s.outer, none⟩ := by
  obtain ⟨t, ht, hbehind⟩ := Line.put_behind s.before s.signs r
  exact ⟨t, ht, fun f => by rw [behind, hbehind]⟩

end Spot

section Spots

variable (s : Spot)

/-- A name where an operand is expected. -/
theorem run_name {text : String} (h : isName text) (hrest : Stops rest) :
    run assoc s.awaiting (text.toList ++ rest) =
      run assoc (s.behind (.single (.leaf text))) rest := by
  rw [s.behind_single]
  exact run_lexeme assoc (lexeme?_name h hrest) rfl

/-- A number where an operand is expected. -/
theorem run_number (h : IsNumber cs) (hrest : Stops rest) : run assoc s.awaiting (cs ++ rest) =
      run assoc (s.behind (.single (.leaf (String.ofList cs)))) rest := by
  rw [s.behind_single]
  exact run_lexeme assoc (lexeme?_number h hrest) rfl

/-- An operator with blanks around it behind a row. -/
theorem run_operator (op : Operator) (r : Row) (rest : List Char) :
    run assoc (s.behind r) (' ' :: (op.spelling.toList ++ ' ' :: rest)) =
      run assoc (s.linked r (.operator op)).awaiting rest := by
  obtain ⟨t, ht, -⟩ := Line.put_behind s.before s.signs r
  have hstep : step assoc (s.behind r) (.operator op) =
      some (s.linked r (.operator op)).awaiting := by
    simp only [step, onLine, Line.operator?, ht, Line.link?_put]
    rfl
  rw [run_blank, run_lexeme assoc (lexeme?_spelling op rest) hstep, run_blank]

/-- A colon behind a row. -/
theorem run_colon (r : Row) (rest : List Char) :
    run assoc (s.behind r) (':' :: rest) = run assoc (s.linked r .colon).awaiting rest := by
  obtain ⟨t, ht, -⟩ := Line.put_behind s.before s.signs r
  refine run_mark assoc (by decide) (by decide) rfl ?_
  simp only [step, onLine, Line.colon?, ht, Line.link?_put]
  rfl

end Spots

/-! ### Strings -/

section Strings

variable (frame : Frame) (outer : List Frame) (pieces : List Piece) (rest : List Char)

/-- A character of a string that has no meaning of its own there. -/
theorem run_plain (hc : c ∉ ['"', '\\', '$']) :
    run assoc ⟨frame, outer, some pieces⟩ (c :: rest) =
      run assoc ⟨frame, outer, some (pieces ++ [Piece.char c])⟩ rest := by
  simp only [mem_cons, not_mem_nil, or_false, not_or] at hc
  obtain ⟨hquote, hslash, hdollar⟩ := hc
  refine run_of_next? assoc ?_
  simp [next?, stringStep, hslash, hdollar]

theorem run_plains (hcs : ∀ c ∈ cs, c ∉ ['"', '\\', '$']) :
    run assoc ⟨frame, outer, some pieces⟩ (cs ++ rest) =
      run assoc ⟨frame, outer, some (pieces ++ cs.map .char)⟩ rest := by
  induction cs generalizing pieces with
  | nil => simp
  | cons c cs ih =>
    rw [cons_append, run_plain assoc frame outer pieces (cs ++ rest) (hcs c (by simp)),
      ih _ fun d hd => hcs d (by simp [hd])]
    simp

/-- A backslash and the character behind it. -/
theorem run_escape (c : Char) :
    run assoc ⟨frame, outer, some pieces⟩ ('\\' :: c :: rest) =
      run assoc ⟨frame, outer, some (pieces ++ [Piece.char '\\', .char c])⟩ rest :=
  run_of_next? assoc rfl

/-- A character of a string as it is written. -/
theorem run_escapeChar (c : Char) :
    run assoc ⟨frame, outer, some pieces⟩ (escapeChar c ++ rest) =
      run assoc ⟨frame, outer, some (pieces ++ (escapeChar c).map .char)⟩ rest := by
  unfold escapeChar
  split
  case h_8 hslash hquote hdollar _ _ _ _ =>
    split
    · -- a control character: a backslash, and hexadecimal digits
      have hplain : ∀ d ∈ fourDigits c.toNat, d ∉ ['"', '\\', '$'] :=
        fun d hd => not_mem_of_mem_fourDigits hd
      have hdigits :=
        run_plains assoc frame outer (pieces ++ [Piece.char '\\', .char 'u']) rest hplain
      rw [cons_append, cons_append, run_escape, hdigits]
      simp
    · refine run_plain assoc frame outer pieces rest ?_
      simp_all
  all_goals exact run_escape assoc frame outer pieces rest _

/-- A text in a string as it is written. -/
theorem run_escapeText (text : String) :
    run assoc ⟨frame, outer, some pieces⟩ ((escapeText text).toList ++ rest) =
      run assoc ⟨frame, outer, some (pieces ++ (escapeText text).toList.map .char)⟩ rest := by
  rw [escapeText, String.toList_ofList]
  induction text.toList generalizing pieces with
  | nil => simp
  | cons c cs ih =>
    rw [flatMap_cons, append_assoc, run_escapeChar, ih]
    simp

end Strings

end State

end Steps

end Offside.Julia
