import Offside.Proofs.Reader.Levels

/-!
# Reading atoms and accesses

What stands in brackets or in a formatted string is read by the parameter `inner` of the readers.
Each kind of atom and of access has a lemma of its own about a reader whose inner expressions are
read (`Readable`), and from these an atom with its accesses is read (`reads_primary`).
-/

namespace Offside

open List

namespace Reader

/-! ## Names -/

variable {name : String}

theorem ofWord_ne_endOfInput (h : isPlainName name) : Kind.ofWord name ≠ .endOfInput := by
  rcases ofWord_of_isPlainName h with ⟨hkind, -⟩ | ⟨hkind, -⟩ <;> simp [hkind]

/-- A name is passed, whether it is the name of a known function or not. -/
theorem reads_expectName (h : isPlainName name) {expected : String} (ts : List Kind) :
    Reads (expectName expected) (.ofWord name :: ts) ts name := by
  rcases ofWord_of_isPlainName h with ⟨hkind, -⟩ | ⟨hkind, -⟩
  · rw [hkind]
    exact .peek (.advance (by simp) ((reads_intern name ts).bind .pure))
  · rw [hkind]
    exact .peek (.advance (by simp) .pure)

/-- No expression starts with a bracket that closes. -/
theorem isDelimiter_of_startsExpression {kind : Kind} (h : startsExpression kind) {d : Delimiter}
    (hd : d.isClosing) : kind.isDelimiter d = false := by
  cases kind with
  | delimiter mark =>
    simp only [Kind.isDelimiter, beq_eq_false_iff_ne]
    rintro rfl
    simp only [startsExpression, Bool.or_eq_true, beq_iff_eq] at h
    rcases h with rfl | rfl <;> exact absurd hd (by decide)
  | _ => rfl

/-! ## Expressions inside others -/

/-- The reader of inner expressions reads an expression. -/
structure Readable (inner : Read Expression) (e : Expression) : Prop where
  reads : ReadsItem inner (Expression.relocate nowhere) Expression.kinds (Stops 0) e
  heads : Heads startsExpression e.kinds

variable {inner : Read Expression} {e : Expression} {arguments : Arguments}
  {parts : List FormattedPart} {atom : Atom} {ts : List Kind}

theorem Readable.heads_of_isClosing (h : Readable inner e) {d : Delimiter} (hd : d.isClosing) :
    Heads (fun kind => !kind.isDelimiter d) e.kinds := by
  refine h.heads.mono fun kind hkind => ?_
  rw [isDelimiter_of_startsExpression hkind hd]
  rfl

/-- Nothing is joined to an expression before a comma or before a bracket that closes. -/
theorem stops_delimiter {d : Delimiter} (h : (Kind.delimiter d).binding = 0) (ts : List Kind) :
    Stops 0 (.delimiter d :: ts) :=
  stops_cons (Nat.le_of_eq h) ts

/-- Expressions between brackets, with commas between them. -/
theorem reads_bracketedExpressions {es : List Expression} (h : ∀ e ∈ es, Readable inner e)
    {opening closing : Delimiter} (hcomma : closing ≠ .comma) (hclosing : closing.isClosing)
    (hbinding : (Kind.delimiter closing).binding = 0) {expected : String} (ts : List Kind) :
    Reads (bracketed opening closing expected inner) (.delimiter opening ::
      (withCommas (es.map Expression.kinds) ++ .delimiter closing :: ts)) ts
      (Expression.relocateAll nowhere es) := by
  rw [Expression.relocateAll_eq_map]
  exact reads_bracketed hcomma (fun e he => (h e he).reads)
    (fun e he => (h e he).heads_of_isClosing hclosing) (stops_delimiter rfl)
      (stops_delimiter hbinding)

theorem reads_arguments (h : ∀ e ∈ arguments.values, Readable inner e) (ts : List Kind) :
    Reads (argumentsWith inner) (arguments.kinds ++ ts) ts (arguments.relocate nowhere) := by
  obtain ⟨values, span⟩ := arguments
  have hkinds : Arguments.kinds ⟨values, span⟩ ++ ts = .delimiter .parenOpen ::
      (withCommas (values.map Expression.kinds) ++ .delimiter .parenClose :: ts) := by
    simp [Arguments.kinds, Expression.allKinds_eq_map]
  rw [hkinds]
  exact .location ((reads_bracketedExpressions h (by simp) rfl rfl ts).bind (.spanFrom .pure))

/-- An expression that may be left out, before a token that starts no expression. -/
theorem reads_optional {e : Option Expression} (h : ∀ x ∈ e, Readable inner x) (hstop : Stops 0 ts)
    (hend : Heads (fun kind => !startsExpression kind) ts) :
    Reads (optionalWith inner) (Expression.kinds? e ++ ts) ts (Expression.relocate? nowhere e) := by
  cases e with
  | none => exact .ifNotHeads hend .pure
  | some x => exact .ifHeads ((h x rfl).heads.append ts) (((h x rfl).reads ts hstop).bind .pure)

/-- The reader of parts of a subscript reads one. -/
def ReadsSlice (inner : Read Expression) (slice : Slice) : Prop :=
  ReadsItem (sliceWith inner) (Slice.relocate nowhere) Slice.kinds (Ends .bracketClose) slice

theorem reads_index (h : Readable inner e) : ReadsSlice inner (.index e) := by
  intro ts hts
  have hlower : ∀ x ∈ some e, Readable inner x := by
    rintro x ⟨rfl⟩
    exact h
  refine (reads_optional hlower (hts.heads rfl rfl) (hts.heads rfl rfl)).bind ?_
  exact (reads_eat_of_heads (hts.heads rfl rfl)).bind .pure

/-- A slice, with or without each of its bounds. -/
theorem reads_rangeSlice {lower upper step : Option Expression}
    (hlower : ∀ x ∈ lower, Readable inner x) (hupper : ∀ x ∈ upper, Readable inner x)
    (hstep : ∀ x ∈ step, Readable inner x) : ReadsSlice inner (.range lower upper step) := by
  intro ts hts
  have hstop : Stops 0 ts := hts.heads rfl rfl
  have hend : Heads (fun kind => !startsExpression kind) ts := hts.heads rfl rfl
  have hcolon : ∀ {bound : Option Expression}, (∀ x ∈ bound, Readable inner x) → ∀ more,
      Reads (optionalWith inner) (Expression.kinds? bound ++ .delimiter .colon :: more)
        (.delimiter .colon :: more) (Expression.relocate? nowhere bound) :=
    fun hbound more => reads_optional hbound (stops_delimiter rfl more) (.cons rfl)
  cases step with
  | none =>
    rw [Slice.kinds, append_assoc, cons_append]
    refine (hcolon hlower _).bind ((reads_eat .colon _).bind ?_)
    refine (reads_optional hupper hstop hend).bind ?_
    exact (reads_eat_of_heads (hts.heads rfl rfl)).bind .pure
  | some step =>
    rw [Slice.kinds, append_assoc, cons_append, append_assoc, cons_append]
    refine (hcolon hlower _).bind ((reads_eat .colon _).bind ?_)
    refine (hcolon hupper _).bind ((reads_eat .colon _).bind ?_)
    exact (reads_optional hstep hstop hend).bind .pure

/-! ## Accesses -/

/-- The tokens of an access end with the access, so anything may follow. -/
def ReadsTrailer (inner : Read Expression) (trailer : Trailer) : Prop :=
  ReadsItem (trailerWith inner) (Trailer.relocate nowhere) Trailer.kinds (fun _ => True) trailer

theorem reads_member (h : isPlainName name) (span : Span) :
    ReadsTrailer inner (.member name span) := by
  intro ts _
  refine .peek (.advance (by simp) (.location ?_))
  exact (reads_expectName h ts).bind (.spanFrom .pure)

theorem reads_call (h : ∀ e ∈ arguments.values, Readable inner e) :
    ReadsTrailer inner (.call arguments) := by
  intro ts _
  have harguments := reads_arguments h ts
  obtain ⟨values, span⟩ := arguments
  exact .peek (harguments.bind .pure)

theorem reads_subscript {slices : List Slice} (hne : slices ≠ [])
    (h : ∀ slice ∈ slices, ReadsSlice inner slice) : ReadsTrailer inner (.subscript slices) := by
  intro ts _
  have hkinds : Trailer.kinds (.subscript slices) ++ ts = .delimiter .bracketOpen ::
      (withCommas (slices.map Slice.kinds) ++ .delimiter .bracketClose :: ts) := by
    simp [Trailer.kinds, Slice.allKinds_eq_map]
  rw [hkinds, Trailer.relocate, Slice.relocateAll_eq_map]
  refine .peek (.advance (by simp) ?_)
  refine (reads_commaSeparated hne h (fun more => ⟨more, .inl rfl⟩) ⟨ts, .inr rfl⟩
    (.cons rfl)).bind ?_
  exact (reads_expectDelimiter .bracketClose ts).discardBind .pure

/-! ## Atoms -/

/-- The tokens of a call of a superclass are read as this call. -/
theorem reads_superCall {call : SuperCall} (hname : ∀ name ∈ call.superclass, isPlainName name)
    (hmethod : isPlainName call.method) (h : ∀ e ∈ call.arguments.values, Readable inner e)
    (ts : List Kind) :
    Reads (superCallWith inner) (call.kinds ++ ts) ts (call.relocate nowhere) := by
  obtain ⟨superclass, method, arguments, span⟩ := call
  -- behind the superclass, if there is one, the rest of the call is read in the same way
  have hbehind : Reads (do
      discard (expectDelimiter .parenClose)
      discard (expectDelimiter .dot)
      let method ← expectName "a method name after super()"
      let arguments ← argumentsWith inner
      return (⟨superclass, method, arguments, ← spanFrom {}⟩ : SuperCall))
      (.delimiter .parenClose :: .delimiter .dot :: .ofWord method :: (arguments.kinds ++ ts)) ts
      (SuperCall.relocate nowhere ⟨superclass, method, arguments, span⟩) := by
    refine (reads_expectDelimiter .parenClose _).discardBind ?_
    refine (reads_expectDelimiter .dot _).discardBind ?_
    refine (reads_expectName hmethod _).bind ?_
    exact (reads_arguments h ts).bind (.spanFrom .pure)
  refine .location (.advance (by simp) ?_)
  refine (reads_expectDelimiter .parenOpen _).discardBind ?_
  cases superclass with
  | none => exact .peek hbehind
  | some name =>
    have hplain := hname name rfl
    have hclose : ¬ ((Kind.ofWord name).relocate nowhere).isDelimiter .parenClose := by
      rw [isDelimiter_of_startsExpression (Bool.and_eq_true_iff.mp (heads_ofWord hplain [])).1 rfl]
      exact Bool.false_ne_true
    refine .peek ?_
    rw [if_neg hclose]
    refine (reads_expectName hplain _).bind ?_
    exact (reads_eat_of_heads (.cons rfl)).bind hbehind

/-- The tokens of an embedded expression are read to their end by a reader of their own. -/
theorem reads_embedded (h : Readable inner e) (ts : List Kind) :
    Reads (embeddedWith inner (Token.relocateAll nowhere (Token.complete e.kinds))) ts ts
      (e.relocate nowhere) := by
  intro r hr
  have hwhole : Reads (do
      let expression ← inner
      discard (expect Kind.isEnd "end of the f-string expression")
      return expression)
      (e.kinds ++ [Kind.endOfInput]) [.endOfInput] (e.relocate nowhere) :=
    (h.reads _ (stops_cons (Nat.le_refl 0) [])).bind ((reads_expectEnd _).discardBind .pure)
  obtain ⟨nested, hrun, -⟩ := hwhole _ (before_ofTokens e.kinds r.names)
  refine ⟨{ r with names := nested.names }, ?_, ⟨hr.tokens, hr.stop, hr.last⟩, rfl, rfl⟩
  simp only [embeddedWith, Token.relocateAll_eq_map, hrun]

theorem reads_formatted (h : ∀ e, .embedded e ∈ parts → Readable inner e) (ts : List Kind) :
    Reads (formattedWith inner (Fragment.relocateAll nowhere (FormattedPart.fragments parts))) ts ts
      (FormattedPart.relocateAll nowhere parts) := by
  induction parts with
  | nil => exact .pure
  | cons part parts ih =>
    have hmem : ∀ e, .embedded e ∈ parts → Readable inner e :=
      fun e he => h e (mem_cons_of_mem _ he)
    cases part with
    | literal text => exact (ih hmem).bind .pure
    | embedded e => exact (reads_embedded (h e (by simp)) ts).bind ((ih hmem).bind .pure)

/-- The tokens may follow an atom: there is no call behind a name that would be taken for its
function. -/
def Follows (atom : Atom) (ts : List Kind) : Prop :=
  ∀ name, atom = .name name → isCallWord name = true →
    Heads (fun kind => !kind.isDelimiter .parenOpen) ts

/-- The reader of atoms reads an atom. -/
def ReadsAtom (inner : Read Expression) (atom : Atom) : Prop :=
  ReadsItem (atomWith inner) (Atom.relocate nowhere) Atom.kinds (Follows atom) atom

theorem reads_name (h : isPlainName name) : ReadsAtom inner (.name name) := by
  intro ts hts
  rcases ofWord_of_isPlainName h with ⟨hkind, hknown⟩ | ⟨hkind, hknown⟩
  · have hcall : isCallWord name := by rw [isCallWord, hknown, Bool.or_true]
    have hopen : Heads (fun kind => !kind.isDelimiter .parenOpen) ts := hts name rfl hcall
    rw [Atom.kinds, hkind]
    refine .location (.peek (.advance (by simp) (.ifNotHeads hopen ?_)))
    exact (reads_intern name ts).bind .pure
  · rw [Atom.kinds, hkind]
    refine .location (.peek (.get fun r hr => ?_))
    have hsuper : ¬ (name = "super" ∧ (r.stream.peekAt 1).isDelimiter .parenOpen) := by
      rintro ⟨rfl, hopen⟩
      have hnext := test_peekAt_one hr (hts "super" rfl rfl)
      rw [hopen] at hnext
      exact Bool.false_ne_true hnext
    rw [if_neg hsuper]
    exact .advance (by simp) .pure

theorem reads_boolean (value : Bool) : ReadsAtom inner (.boolean value) := by
  intro ts _
  cases value
  · exact .location (.peek (.advance (by simp) .pure))
  · exact .location (.peek (.advance (by simp) .pure))

theorem reads_super {call : SuperCall}
    (h : ∀ ts, Reads (superCallWith inner) (call.kinds ++ ts) ts (call.relocate nowhere)) :
    ReadsAtom inner (.super call) := by
  intro ts _
  obtain ⟨superclass, method, arguments, span⟩ := call
  refine .location (.peek (.get fun r hr => ?_))
  have hopen : ∀ more, Heads (·.isDelimiter .parenOpen) (.delimiter .parenOpen :: more) :=
    fun _ => .cons rfl
  rw [if_pos ⟨rfl, test_peekAt_one hr (hopen _)⟩]
  exact (h ts).bind .pure

theorem reads_formattedString (h : ∀ e, .embedded e ∈ parts → Readable inner e) :
    ReadsAtom inner (.formatted parts) :=
  fun ts _ => .location (.peek (.advance (by simp) ((reads_formatted h ts).bind .pure)))

theorem reads_group (h : Readable inner e) : ReadsAtom inner (.group e) := by
  intro ts _
  rw [Atom.kinds, cons_append, append_assoc]
  refine .location (.peek (.advance (by simp) ?_))
  refine (h.reads _ (stops_delimiter rfl ts)).bind ?_
  exact (reads_expectDelimiter .parenClose ts).discardBind .pure

theorem reads_list {elements : List Expression} (h : ∀ e ∈ elements, Readable inner e) :
    ReadsAtom inner (.list elements) := by
  intro ts _
  rw [Atom.kinds, cons_append, append_assoc, Expression.allKinds_eq_map]
  exact .location (.peek ((reads_bracketedExpressions h (by simp) rfl rfl ts).bind .pure))

theorem reads_library (hname : isPlainName name) (h : ∀ e ∈ arguments.values, Readable inner e)
    (span : Span) : ReadsAtom inner (.library ⟨name, arguments, span⟩) := by
  intro ts _
  have hbehind : Reads (do
      discard advance
      let arguments ← argumentsWith inner
      return Atom.library ⟨name, arguments, ← spanFrom {}⟩)
        (.ofWord name :: (arguments.kinds ++ ts)) ts
      (Atom.relocate nowhere (.library ⟨name, arguments, span⟩)) :=
    .advance (ofWord_ne_endOfInput hname) ((reads_arguments h ts).bind (.spanFrom .pure))
  refine .location (.peek (.advance (by simp) ?_))
  refine (reads_expectDelimiter .dot _).discardBind (.peek ?_)
  rcases ofWord_of_isPlainName hname with ⟨hkind, -⟩ | ⟨hkind, -⟩
  · simp only [hkind] at hbehind ⊢
    exact hbehind
  · simp only [hkind] at hbehind ⊢
    exact hbehind

theorem reads_builtin (hname : isPlainName name) (hknown : knownFunctions.contains name)
    (h : ∀ e ∈ arguments.values, Readable inner e) (span : Span) :
    ReadsAtom inner (.builtin ⟨name, arguments, span⟩) := by
  intro ts _
  have hkind : Kind.ofWord name = .function name := by
    rcases ofWord_of_isPlainName hname with ⟨hkind, -⟩ | ⟨-, hfree⟩
    · exact hkind
    · rw [hknown] at hfree
      cases hfree
  have hopen : Heads (·.isDelimiter .parenOpen) (arguments.kinds ++ ts) := by
    obtain ⟨values, span'⟩ := arguments
    exact .cons rfl
  rw [Atom.kinds, FunctionCall.kinds, hkind]
  refine .location (.peek (.advance (by simp) (.ifHeads hopen ?_)))
  exact (reads_arguments h ts).bind (.spanFrom .pure)

/-! ## Atoms and accesses -/

theorem heads_trailer (trailer : Trailer) : Heads startsTrailer trailer.kinds := by
  cases trailer with
  | member name span => exact .cons rfl
  | call arguments =>
    obtain ⟨values, span⟩ := arguments
    exact .cons rfl
  | subscript slices => exact .cons rfl

/-- No access starts where a reader of primaries stops. -/
theorem Stops.heads_trailer (h : Stops 7 ts) : Heads (fun kind => !startsTrailer kind) ts := by
  refine Heads.mono h fun kind hkind => ?_
  cases kind with
  | delimiter mark =>
    have hbinding := of_decide_eq_true hkind
    cases mark <;> first | rfl | exact absurd hbinding (by decide)
  | _ => rfl

/-- Accesses that are no call of a function by its name may follow an atom. -/
theorem follows_trailers {trailers : List Trailer} (h : takesCall atom trailers = false)
    (hts : Stops 7 ts) : Follows atom (trailers.flatMap Trailer.kinds ++ ts) := by
  rintro name rfl hcall
  cases trailers with
  | nil =>
    refine hts.heads_trailer.mono fun kind hkind => ?_
    simp only [startsTrailer, Bool.not_eq_true', Bool.or_eq_false_iff] at hkind
    rw [hkind.2]
    rfl
  | cons trailer trailers =>
    cases trailer with
    | member member span => exact .cons rfl
    | call arguments => exact absurd (h.symm.trans hcall) Bool.false_ne_true
    | subscript slices => exact .cons rfl

/-- An atom and its accesses, in front of what is no access. -/
theorem reads_primary {p : Primary} (hatom : ReadsAtom inner p.atom)
    (htrailers : ∀ trailer ∈ p.trailers, ReadsTrailer inner trailer)
    (hcall : takesCall p.atom p.trailers = false) :
    ReadsItem (primaryWith inner) (Primary.relocate nowhere) Primary.kinds (Stops 7) p := by
  intro ts hts
  obtain ⟨atom, trailers, span⟩ := p
  rw [Primary.kinds, append_assoc, Trailer.allKinds_eq_flatMap, Primary.relocate,
    Trailer.relocateAll_eq_map]
  refine .location ((hatom _ (follows_trailers hcall hts)).bind ?_)
  exact (reads_many htrailers (fun trailer _ => heads_trailer trailer) (fun _ _ _ =>
    trivial) trivial
    hts.heads_trailer).bind (.spanFrom .pure)

end Reader

end Offside
