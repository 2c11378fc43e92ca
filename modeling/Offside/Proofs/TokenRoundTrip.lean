import Offside.Proofs.Token.Alone

/-!
# Scanning undoes writing

A list of kinds that is laid out in lines and blocks is written with four blanks for each open block
at the start of a line and one blank between two tokens of a line.  The scanner reads the kinds
back.

The states of the scanner are followed token by token: within a line (`Scanner.Continues`), and from
line to line (`LaidOut.yields`), where the open blocks are those of the levels one to the depth.
-/

namespace Offside

open List

/-! ## Layout -/

/-- At least one token that can be written, and no bracket is open behind the last of them. -/
structure IsLine (line : List Kind) : Prop where
  nonempty : line ≠ []
  writable : ∀ kind ∈ line, kind.IsWritable
  closed : line.foldl Kind.depthAfter 0 = 0

/-- Kinds are laid out, where a number of blocks is open.  A line may open one block or close some,
and at the end of the input all are closed. -/
inductive LaidOut : (depth : Nat) → List Kind → Prop
  | finish (depth : Nat) : LaidOut depth (replicate depth .dedent ++ [.endOfInput])
  | indented {depth : Nat} {line rest : List Kind} (hline : IsLine line)
    (hrest : LaidOut (depth + 1) rest) : LaidOut depth (.indent :: (line ++ .newline :: rest))
  | dedented {depth : Nat} (closed : Nat) {line rest : List Kind} (hline : IsLine line)
    (hrest : LaidOut depth rest) :
    LaidOut (depth + closed) (replicate closed .dedent ++ (line ++ .newline :: rest))

/-- The text of kinds, behind a number of open blocks and at the start of a line or within it. -/
def writeKinds (mark : Char) : (depth : Nat) → (atLineStart : Bool) → List Kind → List Char
  | _, _, [] => []
  | _, _, .endOfInput :: _ => []
  | depth, _, .indent :: rest => writeKinds mark (depth + 1) true rest
  | depth, _, .dedent :: rest => writeKinds mark (depth - 1) true rest
  | depth, _, .newline :: rest => '\n' :: writeKinds mark depth true rest
  | depth, true, kind :: rest =>
    replicate (4 * depth) ' ' ++ (kind.written mark ++ writeKinds mark depth false rest)
  | depth, false, kind :: rest => ' ' :: (kind.written mark ++ writeKinds mark depth false rest)

variable {c : Cursor} {kinds line : List Kind}

section Writing

variable {mark : Char} {depth : Nat} {kind : Kind} {rest : List Kind}

theorem writeKinds_start (hkind : kind.IsWritable) :
    writeKinds mark depth true (kind :: rest) =
      replicate (4 * depth) ' ' ++
        (kind.written mark ++ writeKinds mark depth false rest) := by
  cases kind with
  | indent | dedent | newline | endOfInput => exact hkind.elim
  | _ => rfl

theorem writeKinds_within (hkind : kind.IsWritable) :
    writeKinds mark depth false (kind :: rest) =
      ' ' :: (kind.written mark ++ writeKinds mark depth false rest) := by
  cases kind with
  | indent | dedent | newline | endOfInput => exact hkind.elim
  | _ => rfl

theorem writeKinds_replicate_dedent (closed : Nat) :
    writeKinds mark (depth + closed) true (replicate closed .dedent ++ rest) =
      writeKinds mark depth true rest := by
  induction closed with
  | zero => rfl
  | succ closed ih =>
    rw [replicate_succ, cons_append, writeKinds]
    exact ih

/-- Behind a token of a line follows what ends it. -/
theorem exists_writeKinds_cons (mark : Char) (depth : Nat) (rest : List Kind)
    (hline : ∀ kind ∈ line, kind.IsWritable) :
    ∃ d more, writeKinds mark depth false (line ++ .newline :: rest) = d :: more ∧ endsToken d := by
  cases line with
  | nil => exact ⟨'\n', _, rfl, rfl⟩
  | cons kind line =>
    rw [cons_append, writeKinds_within (hline kind mem_cons_self)]
    exact ⟨' ', _, rfl, rfl⟩

end Writing

theorem Kind.IsWritable.isEnd {kind : Kind} (h : kind.IsWritable) : kind.isEnd = false := by
  cases kind with
  | endOfInput => exact h.elim
  | _ => rfl

/-- Laid out kinds end with the end of input. -/
theorem LaidOut.exists_eq_append {depth : Nat} (h : LaidOut depth kinds) :
    ∃ init, kinds = init ++ [.endOfInput] ∧ ∀ kind ∈ init, kind.isEnd = false := by
  have hdedents {closed : Nat} : ∀ kind ∈ replicate closed Kind.dedent,
      kind.isEnd = false := by
    intro kind hkind
    rw [(mem_replicate.mp hkind).2]
    rfl
  have hlines {line rest : List Kind} (hline : IsLine line)
    (hrest : ∀ kind ∈ rest, kind.isEnd = false) :
      ∀ kind ∈ line ++ Kind.newline :: rest, kind.isEnd = false := by
    rw [forall_mem_append, forall_mem_cons]
    exact ⟨fun kind hkind => (hline.writable kind hkind).isEnd, rfl, hrest⟩
  induction h with
  | finish depth => exact ⟨_, rfl, hdedents⟩
  | @indented depth line rest hline hrest ih =>
    obtain ⟨init, rfl, hinit⟩ := ih
    exact ⟨.indent ::
      (line ++ .newline :: init), by simp, forall_mem_cons.mpr ⟨rfl, hlines hline hinit⟩⟩
  | @dedented depth closed line rest hline hrest ih =>
    obtain ⟨init, rfl, hinit⟩ := ih
    exact ⟨replicate closed .dedent ++ (line ++ .newline :: init), by simp,
      forall_mem_append.mpr ⟨hdedents, hlines hline hinit⟩⟩

/-! ## Within a line -/

theorem skipGaps_blank {more : List Char} (hc : c.rest = ' ' :: more) (joined : Bool) :
    skipGaps joined c = skipGaps joined ⟨more, c.location.along [' ']⟩ := by
  have hskip : c.skip = ⟨more, c.location.along [' ']⟩ := by
    rw [Cursor.skip, Cursor.advance_of_rest hc (by decide)]
    rfl
  rw [skipGaps_eq, Cursor.peek, hc]
  exact congrArg (skipGaps joined) hskip

namespace Scanner

/-- The levels of as many blocks as are open, innermost first. -/
def levels : Nat → List Nat
  | 0 => []
  | depth + 1 => (depth + 1) :: levels depth

/-- The tokens of a run have the given kinds, and the run enters no name. -/
def Yields (s : Scanner) (atLineStart pendingDedent : Bool) (kinds : List Kind) : Prop :=
  ∃ ts s', Run s atLineStart pendingDedent ts s' ∧ ts.map Token.kind = kinds ∧ s'.names = s.names

theorem Yields.nil (s : Scanner) (atLineStart pendingDedent : Bool) :
    s.Yields atLineStart pendingDedent [] :=
  ⟨[], s, .nil _ _ _, rfl, rfl⟩

theorem Yields.cons {s mid : Scanner} {atLineStart pendingDedent : Bool} {t : Token}
    {kinds : List Kind} (hnext : next atLineStart pendingDedent s = .ok t mid)
    (hnames : mid.names = s.names) (h : mid.Yields t.kind.isNewline t.kind.isDedent kinds) :
    s.Yields atLineStart pendingDedent (t.kind :: kinds) := by
  obtain ⟨ts, s', hrun, hkinds, hnames'⟩ := h
  exact ⟨t :: ts, s', .cons hnext hrun, by rw [map_cons, hkinds], hnames'.trans hnames⟩

/-- Wherever reading goes on from a state within a line, it yields the given kinds. -/
def Continues (s : Scanner) (kinds : List Kind) : Prop :=
  ∀ (s₀ : Scanner) (atLineStart pendingDedent : Bool) (depth : Nat),
    next atLineStart pendingDedent s₀ = scan depth s → s₀.names = s.names →
      s₀.Yields atLineStart pendingDedent kinds

theorem Continues.yields {s : Scanner} (h : s.Continues kinds) : s.Yields false false kinds :=
  h s false false _ (nextWithin_eq _ false false s) rfl

theorem exists_scan_eq (depth : Nat) : ∃ nested, scan depth = scanWith nested := by
  cases depth <;> exact ⟨_, rfl⟩

/-- Reading goes on with one token, if it is read whatever the scanner of embedded expressions is.
-/
theorem continues_cons {s : Scanner} {kind : Kind}
    (hscan : ∀ nested, ∃ span mid, scanWith nested s = .ok ⟨kind, span⟩ mid ∧ mid.names = s.names ∧
      mid.Yields kind.isNewline kind.isDedent kinds) : s.Continues (kind :: kinds) := by
  intro s₀ atLineStart pendingDedent depth hnext hnames
  obtain ⟨nested, heq⟩ := exists_scan_eq depth
  obtain ⟨span, mid, hmid, hnames', h⟩ := hscan nested
  rw [heq, hmid] at hnext
  exact Yields.cons hnext (hnames'.trans hnames.symm) h

/-- A state within a line: the blocks of the first levels and some brackets are open, and `text` is
left. -/
structure Within (s : Scanner) (names : NameTable) (depth brackets : Nat)
    (text : List Char) : Prop where
  rest : s.cursor.rest = text
  names : s.names = names
  opened : s.indentation.opened = levels depth
  brackets : s.bracketDepth = brackets
  embedded : s.embedded = false

/-- A state at the start of a line. -/
structure Before (s : Scanner) (names : NameTable) (depth : Nat) (text : List Char) : Prop
    extends s.Within names depth 0 text where
  lineHasTokens : s.lineHasTokens = false

variable {s : Scanner} {names : NameTable} {depth brackets : Nat} {mark : Char}

variable {text : List Char} {rest : List Kind} {closed : Nat}

/-- A written token is yielded, at the cursor or behind what is skipped. -/
theorem continues_written (hmark : isQuote mark) {kind : Kind} (hkind : kind.IsWritable)
    (hheld : ∀ name, kind = .identifier name → name ∈ names.names) {d : Char} {more : List Char}
    (hd : endsToken d) (hs : s.Within names depth brackets text)
    (hskip : skipGaps s.joined s.cursor = skipGaps s.joined c)
    (hc : c.rest = kind.written mark ++ d :: more)
    (hthen : ∀ s' : Scanner, s'.Within names depth (kind.depthAfter brackets) (d :: more) →
      s'.Yields false false kinds) : s.Continues (kind :: kinds) := by
  have hmarks : kind.isNewline = false ∧ kind.isDedent = false := by
    cases kind with
    | newline | dedent => exact hkind.elim
    | _ => exact ⟨rfl, rfl⟩
  refine continues_cons fun nested => ?_
  obtain ⟨e, others, hwritten, hstarts⟩ := hkind.exists_written_cons hmark
  have hpeek : c.peek = some e := by rw [Cursor.peek, hc, hwritten]; rfl
  have hgaps : skipGaps s.joined s.cursor = c :=
    hskip.trans (skipGaps_of_startsToken hpeek hstarts s.joined)
  have hline := (of_startsToken hstarts).2.2.2
  obtain ⟨location, hscan⟩ := scanKind_written nested (s := { s with cursor := c }) hmark hkind
    (hs.names.symm ▸ hheld) hc hd hwritten
  refine ⟨⟨c.location, location⟩, { s with
    cursor := ⟨d :: more, location⟩, bracketDepth := kind.depthAfter s.bracketDepth,
    lineHasTokens := true }, ?_, rfl, ?_⟩
  · rw [scanWith_eq, hgaps, hpeek]
    dsimp only
    rw [hline, hscan]
    rfl
  · rw [hmarks.1, hmarks.2]
    exact hthen _ ⟨rfl, hs.names, hs.opened, hs.brackets ▸ rfl, hs.embedded⟩

theorem Within.joined {text : List Char} (hs : s.Within names depth 0 text) : s.joined = false := by
  rw [Scanner.joined, hs.brackets, hs.embedded]
  rfl

theorem continues_newline (hs : s.Within names depth 0 ('\n' :: text))
    (hthen : ∀ s' : Scanner, s'.Before names depth text → s'.Yields true false kinds) :
    s.Continues (.newline :: kinds) := by
  have hpeek : s.cursor.peek = some '\n' := by rw [Cursor.peek, hs.rest]; rfl
  have hgaps : skipGaps false s.cursor = s.cursor := by
    rw [skipGaps_eq, hpeek]
    rfl
  have hskip : s.cursor.skip.rest = text := by
    rw [Cursor.skip, Cursor.advance, hs.rest]
    rfl
  refine continues_cons fun nested => ⟨⟨s.cursor.location, s.cursor.skip.location⟩,
    { s with cursor := s.cursor.skip, lineHasTokens := false }, ?_, rfl, ?_⟩
  · rw [scanWith_eq, hs.joined, hgaps, hpeek]
    rfl
  · exact hthen _ ⟨⟨hskip, hs.names, hs.opened, hs.brackets, hs.embedded⟩, rfl⟩

theorem continues_end (hs : s.Before names 0 []) : s.Continues [.endOfInput] := by
  have hpeek : s.cursor.peek = none := by rw [Cursor.peek, hs.rest]; rfl
  have hgaps : skipGaps false s.cursor = s.cursor := by rw [skipGaps_eq, hpeek]
  have hflush : s.indentation.flushOne = (false, ⟨[], 0⟩) := by
    rw [Indentation.flushOne, hs.opened]
    rfl
  refine continues_cons fun nested => ⟨.empty s.cursor.location, { s with indentation := ⟨[], 0⟩ },
    ?_, rfl, .nil _ _ _⟩
  rw [scanWith_eq, hs.joined, hgaps, hpeek]
  dsimp only
  rw [finish]
  dsimp only
  rw [hs.embedded, hs.lineHasTokens, hflush]
  rfl

/-- The tokens of a line behind the first, and the lines that follow. -/
theorem yields_line (hmark : isQuote mark) (hline : ∀ kind ∈ line, kind.IsWritable)
    (hheld : ∀ name, .identifier name ∈ line → name ∈ names.names)
    (hrest : ∀ s' : Scanner, s'.Before names depth (writeKinds mark depth true rest) →
      s'.Yields true false rest)
    (hs : s.Within names depth brackets (writeKinds mark depth false (line ++ .newline :: rest)))
    (hclosed : line.foldl Kind.depthAfter brackets = 0) :
    s.Yields false false (line ++ .newline :: rest) := by
  induction line generalizing s brackets with
  | nil =>
    obtain rfl : brackets = 0 := hclosed
    exact (continues_newline hs hrest).yields
  | cons kind line ih =>
    obtain ⟨hkind, hline⟩ := forall_mem_cons.mp hline
    obtain ⟨d, more, htext, hd⟩ := exists_writeKinds_cons mark depth rest hline
    refine (continues_written hmark hkind (fun name h => hheld name (h ▸ mem_cons_self)) hd hs
      (skipGaps_blank (hs.rest.trans (writeKinds_within hkind)) s.joined)
      (congrArg _ htext) fun s' hs' => ?_).yields
    exact ih hline (fun name h => hheld name (mem_cons_of_mem _ h)) (htext ▸ hs') hclosed

/-- A line and the lines that follow, from its first token on. -/
theorem continues_line (hmark : isQuote mark) {kind : Kind} (hline : IsLine (kind :: line))
    (hheld : ∀ name, .identifier name ∈ kind :: line → name ∈ names.names)
    (hrest : ∀ s' : Scanner, s'.Before names depth (writeKinds mark depth true rest) →
      s'.Yields true false rest) (hs : s.Within names depth 0
      (kind.written mark ++ writeKinds mark depth false (line ++ .newline :: rest))) :
    s.Continues (kind :: line ++ .newline :: rest) := by
  obtain ⟨hkind, hwritable⟩ := forall_mem_cons.mp hline.writable
  obtain ⟨d, more, htext, hd⟩ := exists_writeKinds_cons mark depth rest hwritable
  refine continues_written hmark hkind (fun name h => hheld name (h ▸ mem_cons_self)) hd hs rfl
    (by rw [hs.rest, htext]) fun s' hs' => ?_
  exact yields_line hmark hwritable (fun name h => hheld name (mem_cons_of_mem _ h)) hrest
    (htext ▸ hs') hline.closed

/-! ## From line to line -/

section Levels

variable {i : Indentation}

theorem top_eq_of_levels (hi : i.opened = levels depth) : i.top = depth := by
  rw [Indentation.top, hi]
  cases depth <;> rfl

theorem continueDedent_levels (depth : Nat) :
    Indentation.continueDedent ⟨levels depth, depth⟩ = (.ok false, ⟨levels depth, depth⟩) := by
  rw [Indentation.continueDedent, top_eq_of_levels rfl, if_neg (Nat.lt_irrefl depth),
    if_neg (Nat.lt_irrefl depth)]

theorem continueDedent_levels_succ (depth closed : Nat) :
    Indentation.continueDedent ⟨levels (depth + closed + 1), depth⟩ =
      (.ok true, ⟨levels (depth + closed), depth⟩) := by
  rw [Indentation.continueDedent, top_eq_of_levels rfl,
    if_pos (show depth < depth + closed + 1 by omega)]
  rfl

theorem enterLine_levels (hi : i.opened = levels depth) :
    i.enterLine depth = (.same, ⟨levels depth, depth⟩) := by
  rw [Indentation.enterLine, top_eq_of_levels hi, if_neg (Nat.lt_irrefl depth),
    if_neg (Nat.lt_irrefl depth), hi]

theorem enterLine_levels_deeper (hi : i.opened = levels depth) :
    i.enterLine (depth + 1) = (.indent, ⟨levels (depth + 1), depth + 1⟩) := by
  rw [Indentation.enterLine, top_eq_of_levels hi, if_pos (Nat.lt_succ_self depth), hi]
  rfl

theorem enterLine_levels_less (hi : i.opened = levels (depth + closed + 1)) :
    i.enterLine depth = (.dedent, ⟨levels (depth + closed), depth⟩) := by
  rw [Indentation.enterLine, top_eq_of_levels hi, if_neg (by omega), if_pos (by omega), hi]
  rfl

end Levels

/-- Blocks that a line still owes are closed one by one. -/
theorem yields_closings (hs : s.indentation = ⟨levels (depth + closed), depth⟩) (atLineStart : Bool)
    (hthen : Continues { s with indentation := ⟨levels depth, depth⟩ } kinds) :
    s.Yields atLineStart true (replicate closed .dedent ++ kinds) := by
  induction closed generalizing s atLineStart with
  | zero =>
    refine hthen s atLineStart true s.cursor.rest.length ?_ rfl
    rw [next, nextWithin_eq, hs, Nat.add_zero, continueDedent_levels]
    rfl
  | succ closed ih =>
    have hnext : next atLineStart true s = .ok (.mark .dedent s.cursor.location)
        { s with indentation := ⟨levels (depth + closed), depth⟩ } := by
      rw [next, nextWithin_eq, hs, ← Nat.add_assoc, continueDedent_levels_succ]
      rfl
    exact Yields.cons hnext rfl (ih rfl false hthen)

/-- A line that closes some blocks, or none, and goes on within the blocks that are left open. -/
theorem Before.yields (hs : s.Before names (depth + closed) text)
    (hmeasure : measureIndentation s.cursor = (.ok depth, c))
    (hthen : Continues { s with cursor := c, indentation := ⟨levels depth, depth⟩ } kinds) :
    s.Yields true false (replicate closed .dedent ++ kinds) := by
  cases closed with
  | zero =>
    have hopened : s.indentation.opened = levels depth := hs.opened
    refine hthen s true false s.cursor.rest.length ?_ rfl
    rw [next, nextWithin_eq, hs.embedded, hmeasure]
    dsimp only
    rw [enterLine_levels hopened]
    rfl
  | succ closed =>
    have hnext : next true false s = .ok (.mark .dedent c.location)
        { s with cursor := c, indentation := ⟨levels (depth + closed), depth⟩ } := by
      rw [next, nextWithin_eq, hs.embedded, hmeasure]
      dsimp only
      rw [enterLine_levels_less hs.opened]
      rfl
    exact Yields.cons hnext rfl (yields_closings rfl false hthen)

/-- A line that opens a block. -/
theorem Before.yields_indent (hs : s.Before names depth text)
    (hmeasure : measureIndentation s.cursor = (.ok (depth + 1), c))
    (hthen : Continues
      { s with cursor := c, indentation := ⟨levels (depth + 1), depth + 1⟩ } kinds) :
    s.Yields true false (.indent :: kinds) := by
  have hnext : next true false s = .ok (.mark .indent c.location)
      { s with cursor := c, indentation := ⟨levels (depth + 1), depth + 1⟩ } := by
    rw [next, nextWithin_eq, hs.embedded, hmeasure]
    dsimp only
    rw [enterLine_levels_deeper hs.opened]
    rfl
  exact Yields.cons hnext rfl hthen.yields

/-- The indentation of a written line is its depth, and behind it the line is yielded. -/
theorem Before.exists_measured (hmark : isQuote mark) (hline : IsLine line)
    (hheld : ∀ name, .identifier name ∈ line → name ∈ names.names)
    (hrest : ∀ s' : Scanner, s'.Before names depth (writeKinds mark depth true rest) →
      s'.Yields true false rest) {opened : Nat}
    (hs : s.Before names opened (writeKinds mark depth true (line ++ .newline :: rest))) :
    ∃ c, measureIndentation s.cursor = (.ok depth, c) ∧
      Continues { s with cursor := c, indentation := ⟨levels depth, depth⟩ }
        (line ++ .newline :: rest) := by
  obtain ⟨kind, line, rfl⟩ := exists_cons_of_ne_nil hline.nonempty
  have hkind := hline.writable kind mem_cons_self
  obtain ⟨e, text, hwritten, he⟩ := hkind.exists_written_cons hmark
  have hrest' := hs.rest
  rw [cons_append, writeKinds_start hkind, hwritten, cons_append] at hrest'
  have hmeasure := measureIndentation_blanks hrest' he
  rw [← cons_append, ← hwritten] at hmeasure
  exact ⟨_, hmeasure,
    continues_line hmark hline hheld hrest ⟨rfl, hs.names, rfl, hs.brackets, hs.embedded⟩⟩

end Scanner

open Scanner in
/-- The kinds that are laid out are yielded from the start of a line on. -/
theorem LaidOut.yields {mark : Char} (hmark : isQuote mark) {names : NameTable} {depth : Nat}
    {kinds : List Kind} (h : LaidOut depth kinds)
    (hheld : ∀ name, .identifier name ∈ kinds → name ∈ names.names) {s : Scanner}
    (hs : s.Before names depth (writeKinds mark depth true kinds)) : s.Yields true false kinds := by
  induction h generalizing s with
  | finish depth =>
    have hs : s.Before names (0 + depth) [] := by
      have htext : writeKinds mark (0 + depth) true
          (replicate depth .dedent ++ [.endOfInput]) = [] :=
        writeKinds_replicate_dedent depth
      rw [Nat.zero_add] at htext ⊢
      rwa [htext] at hs
    have hmeasure :=
      measureIndentation_of_peek_none (c := s.cursor) (by rw [Cursor.peek, hs.rest]; rfl)
    exact hs.yields hmeasure
      (continues_end ⟨⟨hs.rest, hs.names, rfl, hs.brackets, hs.embedded⟩, hs.lineHasTokens⟩)
  | @indented depth line rest hline hrest ih =>
    have hrest : ∀ name, Kind.identifier name ∈ rest → name ∈ names.names := fun name h =>
      hheld name (mem_cons_of_mem _ (mem_append_right _ (mem_cons_of_mem _ h)))
    obtain ⟨c, hmeasure, hthen⟩ := Before.exists_measured hmark hline
      (fun name h => hheld name (mem_cons_of_mem _ (mem_append_left _ h)))
      (fun s' hs' => ih hrest hs') hs
    exact hs.yields_indent hmeasure hthen
  | @dedented depth closed line rest hline hrest ih =>
    rw [writeKinds_replicate_dedent] at hs
    have hrest : ∀ name, Kind.identifier name ∈ rest → name ∈ names.names := fun name h =>
      hheld name (mem_append_right _ (mem_append_right _ (mem_cons_of_mem _ h)))
    obtain ⟨c, hmeasure, hthen⟩ := Before.exists_measured hmark hline
      (fun name h => hheld name (mem_append_right _ (mem_append_left _ h)))
      (fun s' hs' => ih hrest hs') hs
    exact hs.yields hmeasure hthen

/-- Kinds that are laid out are read back from their text, with a table that holds their
identifiers, and the table stays as it is. -/
theorem tokenize_writeKinds {mark : Char} (hmark : isQuote mark = true) {kinds : List Kind}
    (hkinds : LaidOut 0 kinds) {names : NameTable}
    (hheld : ∀ name, .identifier name ∈ kinds → name ∈ names.names) :
    ∃ tokens, tokenize (String.ofList (writeKinds mark 0 true kinds)) names = (.ok tokens, names) ∧
      tokens.map Token.kind = kinds := by
  have hs : (Scanner.ofText (String.ofList (writeKinds mark 0 true kinds)) names).Before names 0
      (writeKinds mark 0 true kinds) := ⟨⟨String.toList_ofList, rfl, rfl, rfl, rfl⟩, rfl⟩
  obtain ⟨tokens, s, hrun, hmap, hnames⟩ := hkinds.yields hmark hheld hs
  refine ⟨tokens, tokenize_eq_ok_iff.mpr ⟨s, hrun, ?_, hnames⟩, hmap⟩
  obtain ⟨init, rfl, hinit⟩ := hkinds.exists_eq_append
  obtain ⟨before, last, rfl, rfl, hlast⟩ := map_eq_append_iff.mp hmap
  obtain ⟨t, rfl, ht⟩ := map_eq_singleton_iff.mp hlast
  refine ⟨before, t, rfl, by rw [ht]; rfl, fun u hu => hinit u.kind (mem_map_of_mem hu)⟩

/-- Two blocks that end together, a string with a quote and a newline, and a call. -/
theorem tokenize_writeKinds_blocks :
    ∃ tokens, tokenize "if x :\n    while y :\n        y = \"a\\\"b\\n\"\nprint ( 10 )\n"
      ⟨["x", "y"]⟩ =
        (.ok tokens, ⟨["x", "y"]⟩) ∧
      tokens.map Token.kind = [.keyword .ifKw, .identifier "x", .delimiter .colon, .newline,
        .indent, .keyword .whileKw, .identifier "y", .delimiter .colon, .newline,
        .indent, .identifier "y", .delimiter .assign, .str "a\"b\n", .newline,
        .dedent, .dedent, .function "print", .delimiter .parenOpen, .integer 10,
          .delimiter .parenClose,
        .newline, .endOfInput] := by
  have hif : IsLine [.keyword .ifKw, .identifier "x", .delimiter .colon] :=
    ⟨by simp, by simp [Kind.IsWritable]; decide, rfl⟩
  have hwhile : IsLine [.keyword .whileKw, .identifier "y", .delimiter .colon] :=
    ⟨by simp, by simp [Kind.IsWritable]; decide, rfl⟩
  have hassign : IsLine [.identifier "y", .delimiter .assign, .str "a\"b\n"] :=
    ⟨by simp, by simp [Kind.IsWritable]; decide, rfl⟩
  have hcall : IsLine [.function "print", .delimiter .parenOpen, .integer 10,
      .delimiter .parenClose] :=
    ⟨by simp, by simp [Kind.IsWritable]; decide, rfl⟩
  have hkinds :=
    LaidOut.dedented 0 hif (.indented hwhile (.indented hassign (.dedented 2 hcall (.finish 0))))
  exact @tokenize_writeKinds '"' rfl _ hkinds ⟨["x", "y"]⟩ (by simp)

end Offside
