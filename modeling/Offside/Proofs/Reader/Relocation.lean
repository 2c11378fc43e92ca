import Offside.Proofs.Class.Relocation
import Offside.Proofs.Source.Variation
import Offside.Reader.Expression

/-!
# Readers at other locations

A reader looks at no location and at no entry of its table of names; it only copies the locations of
the tokens into the tree and into its errors, and enters names.  So a reader whose tokens stand
elsewhere, and whose table holds other names, does the same: each of its steps carries over
(`Carries`).  The tree is the same with other locations, the error is the same at another location,
and the reader that is left is the one whose tokens stand elsewhere.

This module holds the steps that read tokens, repetitions and expressions.
-/

namespace Offside

open List

/-! ## Streams -/

/-- A stream with other locations. -/
def TokenStream.relocate (place : Location → Location) (s : TokenStream) : TokenStream :=
  ⟨s.current.relocate place, s.upcoming.map (Token.relocate place), s.previousStop.map place⟩

namespace TokenStream

variable (place : Location → Location) (s : TokenStream)

theorem peek_relocate : (s.relocate place).peek = s.peek.relocate place :=
  s.current.kind_relocate place

theorem location_relocate : (s.relocate place).location = place s.location := by
  rw [location, relocate, Token.span_relocate]
  rfl

theorem size_relocate : (s.relocate place).size = s.size := by
  rw [size, size, relocate, length_map]

theorem toList_relocate : (s.relocate place).toList = s.toList.map (Token.relocate place) := rfl

theorem getLastD_relocate (first : Token) (rest : List Token) :
    (rest.map (Token.relocate place)).getLastD (first.relocate place) =
      (rest.getLastD first).relocate place := by
  rw [getLastD_eq_getLast?, getLastD_eq_getLast?, getLast?_map, Option.getD_map]

theorem peekAt_relocate (n : Nat) : (s.relocate place).peekAt n = (s.peekAt n).relocate place := by
  have hlast : (s.relocate place).upcoming.getLastD (s.relocate place).current =
      (s.upcoming.getLastD s.current).relocate place := getLastD_relocate place _ _
  rw [peekAt, peekAt, toList_relocate, getElem?_map, hlast, Option.getD_map,
    Token.kind_relocate]

theorem advance_relocate : (s.relocate place).advance = s.advance.relocate place := by
  obtain ⟨current, upcoming, previousStop⟩ := s
  cases upcoming with
  | nil => rfl
  | cons next rest =>
    have hstop : ((current.relocate place).span).stop = place current.span.stop := by
      rw [Token.span_relocate]
      rfl
    exact congrArg (mk (next.relocate place) (rest.map (Token.relocate place)) ∘ some) hstop

theorem stop_relocate : (s.relocate place).stop = place s.stop := by
  rw [stop, stop, location_relocate, relocate, Option.getD_map]

theorem weight_relocate : (s.relocate place).weight = s.weight := by
  rw [weight, weight, toList_relocate, ← Token.relocateAll_eq_map, Token.totalWeight_relocateAll]

theorem hasAssignment_relocate (depth : Nat) (tokens : List Token) :
    hasAssignment depth (tokens.map (Token.relocate place)) = hasAssignment depth tokens := by
  induction tokens generalizing depth with
  | nil => rfl
  | cons token rest ih =>
    obtain ⟨kind, span⟩ := token
    cases kind with
    | delimiter mark =>
      change (depth == 0 && mark.isAssignment || hasAssignment _ (rest.map _)) = _
      rw [ih]
      rfl
    | newline => rfl
    | endOfInput => rfl
    | _ => exact ih depth

theorem ofTokens_relocate (horigin : place {} = {}) (tokens : List Token) :
    ofTokens (tokens.map (Token.relocate place)) = (ofTokens tokens).relocate place := by
  have hmark (l : Location) : Token.mark .endOfInput (place l) =
      (Token.mark .endOfInput l).relocate place :=
    rfl
  cases tokens with
  | nil =>
    change (⟨Token.mark .endOfInput {}, [], none⟩ : TokenStream) = _
    rw [← horigin, hmark]
    rfl
  | cons first rest =>
    have hend : ((rest.getLastD first).relocate place).kind.isEnd =
        (rest.getLastD first).kind.isEnd := by
      rw [Token.kind_relocate]
      exact Kind.test_relocate place (fun _ _ => rfl) _
    have hstop : ((rest.getLastD first).relocate place).span.stop =
        place (rest.getLastD first).span.stop := by
      rw [Token.span_relocate]
      rfl
    rw [map_cons, ofTokens, ofTokens, relocate, getLastD_relocate, hend, hstop, hmark]
    dsimp only
    split
    · rfl
    · rw [map_append, map_singleton]
      rfl

end TokenStream

namespace Reader

/-- The second reader, whose classes stand elsewhere too. -/
def vary (v : Rereading) (r : Reader) : Reader :=
  { r with
    stream := r.stream.relocate v.place
    names := v.names r.names
    registry := r.registry.relocate v.place }

theorem ofTokens_vary (v : Rereading) (tokens : List Token) (names : NameTable) :
    ofTokens (tokens.map (Token.relocate v.place)) (v.names names) =
      (ofTokens tokens names).vary v := by
  unfold ofTokens vary
  rw [TokenStream.ofTokens_relocate v.place v.place_origin]
  rfl

theorem found_vary (v : Rereading) (r : Reader) : (r.vary v).found = r.found := by
  have hpeek : (r.vary v).stream.peek = r.stream.peek.relocate v.place :=
    r.stream.peek_relocate v.place
  unfold found
  rw [hpeek]
  cases r.stream.peek <;> rfl

/-- What comes of a step of the second reading, by what comes of it in the first. -/
def varyOutcome (v : Rereading) {α : Type} (f : α → α) :
    EStateM.Result ReadError Reader α → EStateM.Result ReadError Reader α
  | .ok a r => .ok (f a) (r.vary v)
  | .error e r => .error (e.relocate v.place) (r.vary v)

/-- The step `y` of the second reading does what the step `x` does in the first. -/
def Carries (v : Rereading) {α : Type} (f : α → α) (x : Read α) (y : Read α := x) : Prop :=
  ∀ r : Reader, y (r.vary v) = varyOutcome v f (x r)

variable {v : Rereading} {α β : Type} {f : α → α} {g : β → β} {x y x' y' : Read α}

/-! ## Combining steps -/

theorem carries_pure {a a' : α} (h : a' = f a) : Carries v f (pure a) (pure a') := by
  intro r
  rw [h]
  rfl

theorem carries_throw {e e' : ReadError} (h : e' = e.relocate v.place) :
    Carries v f (throw e) (throw e') := by
  intro r
  rw [h]
  rfl

theorem Carries.bind {k k' : α → Read β} (hx : Carries v f x y)
    (hk : ∀ a, Carries v g (k a) (k' (f a))) : Carries v g (x >>= k) (y >>= k') := by
  intro r
  have hfirst := hx r
  change EStateM.bind y k' (r.vary v) = varyOutcome v g (EStateM.bind x k r)
  unfold EStateM.bind
  rw [hfirst]
  cases x r with
  | ok a r' => exact hk a r'
  | error e r' => rfl

theorem Carries.map {k k' : α → β} (hx : Carries v f x y) (hk : ∀ a, k' (f a) = g (k a)) :
    Carries v g (k <$> x) (k' <$> y) := by
  intro r
  have hfirst := hx r
  change EStateM.map k' y (r.vary v) = varyOutcome v g (EStateM.map k x r)
  unfold EStateM.map
  rw [hfirst]
  cases x r with
  | ok a r' => exact congrArg (EStateM.Result.ok · (r'.vary v)) (hk a)
  | error e r' => rfl

theorem Carries.discard (hx : Carries v f x y) :
    Carries v id (Functor.discard x) (Functor.discard y) :=
  hx.map fun _ => rfl

theorem Carries.some (hx : Carries v f x y) :
    Carries v (Option.map f) (Option.some <$> x) (Option.some <$> y) :=
  hx.map fun _ => rfl

/-- A look at the reader. -/
theorem Carries.get {k k' : Reader → Read β} (hk : ∀ r, Carries v g (k r) (k' (r.vary v))) :
    Carries v g (MonadState.get >>= k) (MonadState.get >>= k') :=
  fun r => hk r r

theorem Carries.ite {p q : Prop} [Decidable p] [Decidable q] (h : q ↔ p) (hx : Carries v f x y)
    (hx' : Carries v f x' y') :
    Carries v f (if p then x else x') (if q then y else y') := by
  by_cases hp : p
  · rwa [if_pos hp, if_pos (h.mpr hp)]
  · rwa [if_neg hp, if_neg (mt h.mp hp)]

/-! ## Single tokens -/

theorem carries_peek : Carries v (Kind.relocate v.place) peek :=
  fun r => congrArg (EStateM.Result.ok · (r.vary v)) (r.stream.peek_relocate v.place)

theorem carries_location : Carries v v.place location :=
  fun r => congrArg (EStateM.Result.ok · (r.vary v)) (r.stream.location_relocate v.place)

theorem carries_spanFrom (start : Location) :
    Carries v (Span.relocate v.place) (spanFrom start) (spanFrom (v.place start)) :=
  fun r => congrArg (fun stop => EStateM.Result.ok (Span.mk (v.place start) stop) (r.vary v))
    (r.stream.stop_relocate v.place)

theorem carries_remaining : Carries v id remaining :=
  fun r => congrArg (EStateM.Result.ok · (r.vary v)) (r.stream.size_relocate v.place)

theorem carries_advance : Carries v (Token.relocate v.place) advance := by
  intro r
  change EStateM.Result.ok (r.stream.current.relocate v.place)
    { r.vary v with stream := (r.stream.relocate v.place).advance } = _
  rw [TokenStream.advance_relocate]
  rfl

theorem carries_intern (name : String) : Carries v id (intern name) := by
  intro r
  change EStateM.Result.ok () { r.vary v with names := (v.names r.names).intern name } = _
  rw [← v.names_intern]
  rfl

theorem carries_unexpected (expected : String) :
    Carries v f (unexpected expected) := by
  refine fun r => carries_throw ?_ r
  rw [found_vary]
  exact congrArg (fun l => ReadError.grammar ⟨.unexpectedToken expected r.found, l⟩)
    (r.stream.location_relocate v.place)

/-- A choice by the kind of the current token, where formatted strings are all alike. -/
theorem Carries.test {test : Kind → Bool} (htest : Kind.SkipsFragments test) (hx : Carries v f x y)
    (hx' : Carries v f x' y') :
    Carries v f (peek >>= fun kind => if test kind = true then x else x')
      (peek >>= fun kind => if test kind = true then y else y') := by
  refine carries_peek.bind fun kind => .ite ?_ hx hx'
  rw [Kind.test_relocate v.place htest]

theorem carries_expect {accepts : Kind → Bool} (haccepts : Kind.SkipsFragments accepts)
    (expected : String) :
    Carries v (Token.relocate v.place) (expect accepts expected) :=
  .test haccepts carries_advance (carries_unexpected expected)

theorem carries_expectDelimiter (d : Delimiter) :
    Carries v (Token.relocate v.place) (expectDelimiter d) :=
  carries_expect (fun _ _ => rfl) _

theorem carries_expectKeyword (k : Keyword) :
    Carries v (Token.relocate v.place) (expectKeyword k) :=
  carries_expect (fun _ _ => rfl) _

theorem carries_expectName (expected : String) :
    Carries v id (expectName expected) := by
  refine carries_peek.bind fun kind => ?_
  cases kind with
  | identifier name => exact carries_advance.discard.bind fun _ => carries_pure rfl
  | function name =>
    exact carries_advance.discard.bind fun _ => (carries_intern name).bind fun _ => carries_pure rfl
  | _ => exact carries_unexpected expected

theorem carries_eat (d : Delimiter) : Carries v id (eat d) :=
  .test (fun _ _ => rfl) (carries_advance.discard.bind fun _ => carries_pure rfl) (carries_pure rfl)

/-- A choice by whether a delimiter follows. -/
theorem Carries.eat {d : Delimiter} (hx : Carries v f x y) (hx' : Carries v f x' y') :
    Carries v f (Reader.eat d >>= fun follows => if follows = true then x else x')
      (Reader.eat d >>= fun follows => if follows = true then y else y') :=
  (carries_eat d).bind fun _ => .ite Iff.rfl hx hx'

/-! ## Repetitions -/

section Repetitions

variable {item : Read α} (hitem : Carries v f item)

include hitem

theorem carries_manyWithin {starts : Kind → Bool} (hstarts : Kind.SkipsFragments starts)
    (bound : Nat) :
    Carries v (map f) (manyWithin starts item bound) := by
  induction bound with
  | zero => exact carries_pure rfl
  | succ bound ih =>
    exact .test hstarts (hitem.bind fun _ => ih.bind fun _ => carries_pure rfl) (carries_pure rfl)

theorem carries_many {starts : Kind → Bool} (hstarts : Kind.SkipsFragments starts) :
    Carries v (map f) (many starts item) :=
  carries_remaining.bind fun bound => carries_manyWithin hitem hstarts bound

theorem carries_chainWithin {operator : Kind → Option β} (hoperator : Kind.SkipsFragments operator)
    (bound : Nat) :
    Carries v (map (Prod.map id f)) (chainWithin operator item bound) := by
  induction bound with
  | zero => exact carries_pure rfl
  | succ bound ih =>
    refine carries_peek.bind fun kind => ?_
    rw [Kind.test_relocate v.place hoperator]
    cases operator kind with
    | none => exact carries_pure rfl
    | some op =>
      exact carries_advance.discard.bind fun _ => hitem.bind fun _ => ih.bind fun _ =>
        carries_pure rfl

theorem carries_chain {operator : Kind → Option β} (hoperator : Kind.SkipsFragments operator) :
    Carries v (Prod.map f (map (Prod.map id f))) (chain operator item) :=
  hitem.bind fun _ => carries_remaining.bind fun bound =>
    (carries_chainWithin hitem hoperator bound).bind fun _ => carries_pure rfl

theorem carries_commaSeparated :
    Carries v (map f) (commaSeparated item) := by
  refine (carries_chain hitem fun _ _ => rfl).bind fun ⟨first, rest⟩ => carries_pure ?_
  simp

theorem carries_itemsWithin (closing : Delimiter) (expected : String) (bound : Nat) :
    Carries v (map f) (itemsWithin closing expected item bound) := by
  induction bound with
  | zero => exact carries_pure rfl
  | succ bound ih =>
    refine .test (fun _ _ => rfl) (carries_pure rfl) (hitem.bind fun _ => ?_)
    refine .eat (ih.bind fun _ => carries_pure rfl) ?_
    exact .test (fun _ _ => rfl) (carries_pure rfl) (carries_unexpected expected)

theorem carries_bracketed (opening closing : Delimiter) (expected : String) :
    Carries v (map f) (bracketed opening closing expected item) :=
  (carries_expectDelimiter opening).discard.bind fun _ => carries_remaining.bind fun bound =>
    (carries_itemsWithin hitem closing expected bound).bind fun _ =>
      (carries_expectDelimiter closing).discard.bind fun _ => carries_pure rfl

end Repetitions

/-! ## Expressions -/

section Levels

variable {inner : Read Expression} (hinner : Carries v (Expression.relocate v.place) inner)

include hinner

theorem carries_argumentsWith :
    Carries v (Arguments.relocate v.place) (argumentsWith inner) := by
  refine carries_location.bind fun start => (carries_bracketed hinner _ _ _).bind fun values =>
    (carries_spanFrom start).bind fun span => carries_pure ?_
  rw [Arguments.relocate, Expression.relocateAll_eq_map]

theorem carries_optionalWith :
    Carries v (Option.map (Expression.relocate v.place)) (optionalWith inner) :=
  .test (fun _ _ => rfl) (hinner.bind fun _ => carries_pure rfl) (carries_pure rfl)

theorem carries_sliceWith :
    Carries v (Slice.relocate v.place) (sliceWith inner) := by
  have hrange (lower upper step : Option Expression) :
      Carries v (Slice.relocate v.place) (pure (.range lower upper step))
        (pure (.range (lower.map (Expression.relocate v.place))
          (upper.map (Expression.relocate v.place))
          (step.map (Expression.relocate v.place)))) :=
    carries_pure (by simp [Slice.relocate])
  refine (carries_optionalWith hinner).bind fun lower => .eat ?_ ?_
  · refine (carries_optionalWith hinner).bind fun upper => .eat ?_ ?_
    · exact (carries_optionalWith hinner).bind fun step => hrange lower upper step
    · exact hrange lower upper none
  · cases lower with
    | none => exact carries_unexpected _
    | some index => exact carries_pure rfl

theorem carries_trailerWith :
    Carries v (Trailer.relocate v.place) (trailerWith inner) := by
  refine carries_peek.bind fun kind => ?_
  cases kind with
  | delimiter mark =>
    cases mark with
    | dot =>
      exact carries_advance.discard.bind fun _ => carries_location.bind fun start =>
        (carries_expectName _).bind fun _ => (carries_spanFrom start).bind fun _ => carries_pure rfl
    | parenOpen => exact (carries_argumentsWith hinner).bind fun _ => carries_pure rfl
    | bracketOpen =>
      refine carries_advance.discard.bind fun _ =>
        (carries_commaSeparated (carries_sliceWith hinner)).bind fun slices =>
          (carries_expectDelimiter _).discard.bind fun _ => carries_pure ?_
      rw [Trailer.relocate, Slice.relocateAll_eq_map]
    | _ => exact carries_unexpected _
  | _ => exact carries_unexpected _

theorem carries_superCallWith :
    Carries v (SuperCall.relocate v.place) (superCallWith inner) := by
  let finish (start : Location) (superclass : Option String) : Read SuperCall := do
    Functor.discard (expectDelimiter .parenClose)
    Functor.discard (expectDelimiter .dot)
    let method ← expectName "a method name after super()"
    let arguments ← argumentsWith inner
    return ⟨superclass, method, arguments, ← spanFrom start⟩
  have hend (start : Location) (superclass : Option String) :
      Carries v (SuperCall.relocate v.place) (finish start superclass)
        (finish (v.place start) superclass) :=
    (carries_expectDelimiter _).discard.bind fun _ =>
      (carries_expectDelimiter _).discard.bind fun _ =>
      (carries_expectName _).bind fun _ => (carries_argumentsWith hinner).bind fun _ =>
        (carries_spanFrom start).bind fun _ => carries_pure rfl
  refine carries_location.bind fun start => carries_advance.discard.bind fun _ =>
    (carries_expectDelimiter _).discard.bind fun _ => .test (fun _ _ => rfl) (hend start none) ?_
  refine (carries_expectName _).bind fun name => .eat ?_ (hend start (some name))
  exact hinner.discard.bind fun _ => hend start (some name)

theorem carries_embeddedWith (tokens : List Token) :
    Carries v (Expression.relocate v.place) (embeddedWith inner tokens)
      (embeddedWith inner (tokens.map (Token.relocate v.place))) := by
  have hwhole : Carries v (Expression.relocate v.place)
      (do
        let expression ← inner
        Functor.discard (expect Kind.isEnd "end of the f-string expression")
        return expression) :=
    hinner.bind fun _ =>
      (carries_expect (fun _ _ => rfl) _).discard.bind fun _ => carries_pure rfl
  intro r
  have hnested := hwhole (.ofTokens tokens r.names)
  rw [← ofTokens_vary] at hnested
  unfold embeddedWith
  dsimp only [vary]
  rw [hnested]
  generalize (inner >>= _) (ofTokens tokens r.names) = outcome
  cases outcome <;> rfl

theorem carries_formattedWith (fragments : List Fragment) :
    Carries v (map (FormattedPart.relocate v.place)) (formattedWith inner fragments)
      (formattedWith inner (fragments.map (Fragment.relocate v.place))) := by
  induction fragments with
  | nil => exact carries_pure rfl
  | cons fragment rest ih =>
    cases fragment with
    | literal text => exact ih.bind fun _ => carries_pure rfl
    | embedded tokens =>
      rw [map_cons, Fragment.relocate, Token.relocateAll_eq_map]
      exact (carries_embeddedWith hinner tokens).bind fun _ => ih.bind fun _ => carries_pure rfl

theorem carries_atomWith : Carries v (Atom.relocate v.place) (atomWith inner) := by
  have hsingle (atom : Atom) (hatom : atom = atom.relocate v.place) :
      Carries v (Atom.relocate v.place) (do Functor.discard advance; return atom) :=
    carries_advance.discard.bind fun _ => carries_pure hatom
  refine carries_location.bind fun start => carries_peek.bind fun kind => ?_
  cases kind with
  | identifier name =>
    refine .get fun r => .ite ?_ ?_ ?_
    · have hpeek : (r.vary v).stream.peekAt 1 = (r.stream.peekAt 1).relocate v.place :=
        r.stream.peekAt_relocate v.place 1
      have hopen (kind : Kind) : (kind.relocate v.place).isDelimiter .parenOpen =
          kind.isDelimiter .parenOpen := by
        cases kind <;> rfl
      rw [hpeek, hopen]
    · exact (carries_superCallWith hinner).bind fun _ => carries_pure rfl
    · exact hsingle _ rfl
  | keyword word =>
    cases word with
    | trueKw => exact hsingle _ rfl
    | falseKw => exact hsingle _ rfl
    | noneKw => exact hsingle _ rfl
    | _ => exact carries_unexpected _
  | integer value => exact hsingle _ rfl
  | float value => exact hsingle _ rfl
  | str text => exact hsingle _ rfl
  | formatted fragments =>
    refine carries_advance.discard.bind fun _ => ?_
    rw [Fragment.relocateAll_eq_map]
    refine (carries_formattedWith hinner fragments).bind fun parts => carries_pure ?_
    rw [Atom.relocate, FormattedPart.relocateAll_eq_map]
  | delimiter mark =>
    cases mark with
    | parenOpen =>
      exact carries_advance.discard.bind fun _ => hinner.bind fun _ =>
        (carries_expectDelimiter _).discard.bind fun _ => carries_pure rfl
    | bracketOpen =>
      refine (carries_bracketed hinner _ _ _).bind fun elements => carries_pure ?_
      rw [Atom.relocate, Expression.relocateAll_eq_map]
    | _ => exact carries_unexpected _
  | library =>
    have hcall (name : String) : Carries v (Atom.relocate v.place)
        (do
          Functor.discard advance
          let arguments ← argumentsWith inner
          return .library ⟨name, arguments, ← spanFrom start⟩)
        (do
          Functor.discard advance
          let arguments ← argumentsWith inner
          return .library ⟨name, arguments, ← spanFrom (v.place start)⟩) :=
      carries_advance.discard.bind fun _ => (carries_argumentsWith hinner).bind fun _ =>
        (carries_spanFrom start).bind fun _ => carries_pure rfl
    refine carries_advance.discard.bind fun _ => (carries_expectDelimiter _).discard.bind fun _ =>
      carries_peek.bind fun kind => ?_
    cases kind with
    | function name => exact hcall name
    | identifier name => exact hcall name
    | _ => exact carries_unexpected _
  | function name =>
    refine carries_advance.discard.bind fun _ => .test (fun _ _ => rfl) ?_ ?_
    · exact (carries_argumentsWith hinner).bind fun _ => (carries_spanFrom start).bind fun _ =>
        carries_pure rfl
    · exact (carries_intern name).bind fun _ => carries_pure rfl
  | _ => exact carries_unexpected _

theorem carries_primaryWith :
    Carries v (Primary.relocate v.place) (primaryWith inner) := by
  refine carries_location.bind fun start => (carries_atomWith hinner).bind fun atom =>
    (carries_many (carries_trailerWith hinner) fun _ _ => rfl).bind fun trailers =>
      (carries_spanFrom start).bind fun span => carries_pure ?_
  rw [Primary.relocate, Trailer.relocateAll_eq_map]

theorem carries_factorWithin (bound : Nat) :
    Carries v (Expr.relocate v.place) (factorWithin inner bound) := by
  induction bound with
  | zero => exact carries_unexpected _
  | succ bound ih =>
    refine carries_peek.bind fun kind => ?_
    have hsign (kind : Kind) : (kind.relocate v.place).sumOp? = kind.sumOp? :=
      Kind.test_relocate v.place (fun _ _ => rfl) kind
    rw [hsign]
    cases kind.sumOp? with
    | some op => exact carries_advance.discard.bind fun _ => ih.bind fun _ => carries_pure rfl
    | none =>
      refine (carries_primaryWith hinner).bind fun base =>
        .test (fun _ _ => rfl) ?_ (carries_pure rfl)
      exact carries_advance.discard.bind fun _ => ih.bind fun _ => carries_pure rfl

end Levels

/-! ### Operators -/

/-- Operands that are joined at one level of the grammar. -/
theorem carries_joined {β : Type} {operator : Kind → Option β} {operand : Read Expr}
    {join : Expr × List (β × Expr) → Expr}
    (hoperator : Kind.SkipsFragments operator)
    (hoperand : Carries v (Expr.relocate v.place) operand)
    (hjoin : ∀ first rest,
      join (first.relocate v.place, rest.map (Prod.map id (Expr.relocate v.place))) =
      (join (first, rest)).relocate v.place) :
    Carries v (Expr.relocate v.place)
      (chain operator operand >>= fun joined => pure (join joined)) :=
  (carries_chain hoperand hoperator).bind fun joined => carries_pure (hjoin joined.1 joined.2)

section Operators

variable {inner : Read Expression} (hinner : Carries v (Expression.relocate v.place) inner)

include hinner

theorem carries_comparisonWith :
    Carries v (Expr.relocate v.place) (comparisonWith inner) := by
  have hfactor : Carries v (Expr.relocate v.place) (factorWith inner) :=
    carries_remaining.bind fun bound => carries_factorWithin hinner bound
  have hproduct : Carries v (Expr.relocate v.place) (productWith inner) :=
    carries_joined (fun _ _ => rfl) hfactor fun first rest => by
      cases rest <;> simp [Expr.ofProduct, Expr.relocate]
  have hsum : Carries v (Expr.relocate v.place) (sumWith inner) :=
    carries_joined (fun _ _ => rfl) hproduct fun first rest => by
      cases rest <;> simp [Expr.ofSum, Expr.relocate]
  exact carries_joined (fun _ _ => rfl) hsum fun first rest => by
    cases rest <;> simp [Expr.ofCompare, Expr.relocate]

theorem carries_inversionWithin (bound : Nat) :
    Carries v (Expr.relocate v.place) (inversionWithin inner bound) := by
  induction bound with
  | zero => exact carries_unexpected _
  | succ bound ih =>
    exact .test (fun _ _ => rfl) (carries_advance.discard.bind fun _ => ih.bind fun _ =>
      carries_pure rfl)
      (carries_comparisonWith hinner)

theorem carries_expressionWith :
    Carries v (Expression.relocate v.place) (expressionWith inner) := by
  have hinversion : Carries v (Expr.relocate v.place) (inversionWith inner) :=
    carries_remaining.bind fun bound => carries_inversionWithin hinner bound
  have hconjunction :
      Carries v (Expr.relocate v.place) (conjunctionWith inner) :=
    carries_joined (fun _ _ => rfl) hinversion fun first rest => by
      cases rest <;> simp [Expr.ofAnd, Expr.relocate]
  have hdisjunction :
      Carries v (Expr.relocate v.place) (disjunctionWith inner) :=
    carries_joined (fun _ _ => rfl) hconjunction fun first rest => by
      cases rest <;> simp [Expr.ofOr, Expr.relocate]
  exact carries_location.bind fun start => hdisjunction.bind fun _ =>
    (carries_spanFrom start).bind fun _ => carries_pure rfl

end Operators

theorem carries_expressionWithin (depth : Nat) :
    Carries v (Expression.relocate v.place) (expressionWithin depth) := by
  induction depth with
  | zero => exact carries_unexpected _
  | succ depth ih => exact carries_expressionWith ih

theorem carries_expression : Carries v (Expression.relocate v.place) expression := by
  refine .get fun r => ?_
  have hweight : (r.vary v).stream.weight = r.stream.weight := r.stream.weight_relocate v.place
  rw [hweight]
  exact carries_expressionWithin _

theorem carries_expressionList :
    Carries v (map (Expression.relocate v.place)) expressionList :=
  carries_commaSeparated carries_expression

end Reader

end Offside
