import Offside.Proofs.Reader.Consumption
import Offside.Proofs.Reader.Levels

/-!
# The tokens of what is read

The tokens that the rules for expressions pass are renderings of what they give.  As in the reader,
what stands in brackets or in a formatted string is read by the parameter `inner`; with another
parameter that does the same on fewer tokens, a rule does the same.  Each rule has a lemma that says
which tokens it passes; a reader of a level of operators is known by the level of what it gives and
by how tightly the token behind it may bind (`AtLevel`).

So the bound on the depth of an expression is never met: an expression is read as if its inner
expressions were read without a bound (`expression_eq`).
-/

namespace Offside

open List

theorem Trailer.Renders.ne_nil {trailer : Trailer} {ks : List Kind} (h : trailer.Renders ks) :
    ks ≠ [] := by
  cases h with
  | member hk => exact cons_ne_nil _ _
  | call h =>
    cases h
    exact cons_ne_nil _ _
  | subscript h => exact cons_ne_nil _ _

namespace Reader

/-! ## Atoms and accesses -/

theorem peek_advance (s : TokenStream) : s.advance.peek = s.peekAt 1 := by
  obtain ⟨current, upcoming, stop⟩ := s
  cases upcoming <;> rfl

theorem binding_le_of_startsTrailer {kind : Kind} (h : startsTrailer kind = false) :
    kind.binding ≤ 7 := by
  fun_cases Kind.binding kind with
  | case7 => cases h
  | case8 => cases h
  | case9 => cases h
  | _ => decide

/-- The tokens of further parts of a subscript, whatever part stands in front of them. -/
def SlicesBehind (rest : List (Unit × Slice)) (ks : List Kind) : Prop :=
  ∀ (slice : Slice) (front : List Kind), slice.Renders front →
    Slice.Items (slice :: rest.map Prod.snd) (front ++ ks)

theorem slicesBehind_nil : SlicesBehind [] [] := by
  intro slice front hslice
  rw [append_nil]
  exact .last hslice

/-- What is known of an atom: its tokens, and that a word that would be taken for the function of a
call does not stand before a parenthesis. -/
def GivenAtom (atom : Atom) (ks : List Kind) (r : Reader) : Prop :=
  atom.Renders ks ∧ (Kind.areCallWord ks = true → r.stream.peek ≠ .delimiter .parenOpen)

/-- Tokens that are no single word need no look at what follows. -/
theorem givenAtom_of_renders {atom : Atom} {ks : List Kind} (h : atom.Renders ks)
    (hks : Kind.areCallWord ks = false) (r : Reader) : GivenAtom atom ks r :=
  ⟨h, fun htrue => absurd htrue (by simp [hks])⟩

/-- The tokens of an embedded expression are fewer than those with the formatted string. -/
theorem Fits.embedded {t : Terms} {s : TokenStream} (h : Fits t s) (hnested : t.counting = .nested)
    {fragments : List Fragment} (hpeek : s.peek = .formatted fragments) {tokens : List Token}
    (hmem : .embedded tokens ∈ fragments) : Fits t.less (.ofTokens tokens) := by
  obtain ⟨named, counting, bound, behind⟩ := t
  obtain rfl : counting = .nested := hnested
  obtain ⟨⟨kind, span⟩, upcoming, previousStop⟩ := s
  obtain rfl : kind = _ := hpeek
  have hlexical (hasked : named) : Fragment.areLexical fragments := h.named hasked _ mem_cons_self
  have hbounded : Fragment.totalWeight fragments + 1 + Token.totalWeight upcoming + behind.toNat ≤
      bound := h.bounded
  refine fits_ofTokens (fun hasked => ?_)
    (Nat.le_trans (Nat.succ_le_succ (weight_ofTokens_le tokens)) ?_)
  · replace hlexical := hlexical hasked
    clear hbounded h
    induction hmem with
    | head rest => exact (Bool.and_eq_true_iff.mp hlexical).1
    | tail fragment _ ih => cases fragment with
      | literal text => exact ih hlexical
      | embedded tokens => exact ih (Bool.and_eq_true_iff.mp hlexical).2
  · have hle : Token.totalWeight tokens + 1 ≤ Fragment.totalWeight fragments := by
      clear hbounded hlexical h
      induction hmem with
      | head rest => exact Nat.le_add_right _ _
      | tail fragment _ ih => exact Nat.le_add_left_of_le ih
    change Token.totalWeight tokens + 1 + 1 ≤ bound
    omega

/-- An inner expression is read from a rendering, up to a token that cannot go on with it.  Embedded
tokens are counted. -/
structure GivesExpression (t : Terms) (inner inner' : Read Expression) : Prop where
  nested : t.counting = .nested
  gives : ∀ r, Gives t inner inner' r fun e ks r' => e.Renders ks ∧ r'.stream.peek.binding = 0

section Levels

variable {t : Terms} {inner inner' : Read Expression} {r : Reader}
  (hinner : GivesExpression t.less inner inner')

include hinner

theorem gives_itemsWithin (closing : Delimiter) {expected : String}
    (hexpected : Target.isPrintable expected) (bound : Nat) :
    Gives t.less (itemsWithin closing expected inner bound)
      (itemsWithin closing expected inner' bound) r
      fun es ks _ => Expression.Items es ks := by
  induction bound generalizing r with
  | zero => exact .pure .nil
  | succ bound ih =>
    refine .peek (.ite (fun _ => .pure .nil) fun _ => ?_)
    refine (hinner.gives r).bind fun e ks r₁ ⟨he, _⟩ _ => .eat (fun r₂ => ?_) fun _ => ?_
    · exact ih.bindPure fun es more _ hes => .cons he hes
    · refine .peek (.ite (fun _ => .pure ?_) fun _ => gives_unexpected hexpected)
      rw [append_nil]
      exact .last he

/-- What stands between brackets. -/
theorem gives_bracketed (opening closing : Delimiter) {expected : String}
    (hexpected : Target.isPrintable expected) :
    Gives t (bracketed opening closing expected inner) (bracketed opening closing expected inner') r
      fun es ks _ =>
      ∃ inside, ks = .delimiter opening :: (inside ++ [.delimiter closing]) ∧
        Expression.Items es inside := by
  refine .expectDelimiter fun r₁ => .remaining ?_
  refine (gives_itemsWithin hinner closing hexpected _).bind fun es inside r₂ hes _ => ?_
  exact .expectDelimiter fun r₃ => .pure ⟨inside, rfl, hes⟩

theorem gives_argumentsWith :
    Gives t (argumentsWith inner) (argumentsWith inner') r fun a ks _ => a.Renders ks := by
  refine .location fun start => ?_
  refine (gives_bracketed hinner _ _ (by decide)).bind fun values ks r₁ hvalues _ =>
    .spanFrom fun span => .pure ?_
  obtain ⟨inside, rfl, hvalues⟩ := hvalues
  rw [append_nil]
  exact .mk hvalues

theorem gives_optionalWith :
    Gives t.less (optionalWith inner) (optionalWith inner') r fun e ks _ =>
      Expression.MayRender e ks :=
  .peek (.ite (fun _ => (hinner.gives r).bindPure fun _ _ _ he => .some he.1) fun _ => .pure .none)

theorem gives_sliceWith :
    Gives t.less (sliceWith inner) (sliceWith inner') r fun s ks _ => s.Renders ks := by
  refine (gives_optionalWith hinner).bind fun lower ks r₁ hlower _ =>
    .eat (fun r₂ => ?_) fun _ => ?_
  · refine (gives_optionalWith hinner).bind fun upper more r₃ hupper _ =>
      .eat (fun r₄ => ?_) fun _ => ?_
    · exact (gives_optionalWith hinner).bindPure fun step last r₅ hstep => .long hlower hupper hstep
    · refine .pure ?_
      rw [append_nil]
      exact .short hlower hupper
  · cases hlower with
    | none => exact gives_unexpected (by decide)
    | some h =>
      refine .pure ?_
      rw [append_nil]
      exact .index h

/-- The parts of a subscript, with commas between them. -/
theorem gives_slices :
    Gives t.less (commaSeparated (sliceWith inner)) (commaSeparated (sliceWith inner')) r
      fun slices ks _ => Slice.Items slices ks := by
  refine (gives_chain (S := SlicesBehind) (fun _ => .delimiter .comma) (fun _ => True)
    slicesBehind_nil ?_ ?_
    fun r => (gives_sliceWith hinner).imp fun _ _ _ h => ⟨h, trivial⟩).bindPure fun x ks r' hx => ?_
  · intro op slice rest ks more hslice hrest first front hfirst
    exact .cons hfirst (hrest slice ks hslice)
  · intro kind op hkind
    rw [Kind.eq_delimiter_of_isDelimiter (of_separator_eq_some hkind)]
    exact ⟨rfl, rfl⟩
  obtain ⟨⟨front, back, rfl, hfirst, hrest⟩, -⟩ := hx
  exact hrest _ _ hfirst

theorem gives_trailerWith :
    Gives t (trailerWith inner) (trailerWith inner') r fun t ks _ => t.Renders ks := by
  refine .peek ?_
  split
  · rename_i hpeek
    refine .advance hpeek rfl fun r₁ _ _ => .location fun start =>
      .expectName (by decide) fun name kind r₂ hkind => ?_
    exact .spanFrom fun span => .pure (.member hkind)
  · exact (gives_argumentsWith hinner).bindPure fun _ _ _ h => .call h
  · rename_i hpeek
    refine .advance hpeek rfl fun r₁ _ _ =>
      (gives_slices hinner).bind fun slices ks r₂ hslices _ => ?_
    exact .expectDelimiter fun r₃ => .pure (.subscript hslices)
  · exact gives_unexpected (by decide)

/-- A call of a method of a superclass, from the word `super` on. -/
theorem gives_superCallWith (hpeek : r.stream.peek = .identifier "super") :
    Gives t (superCallWith inner) (superCallWith inner') r fun call ks _ => call.Renders ks := by
  let finish (inner : Read Expression) (start : Location) (superclass : Option String) : Read
      SuperCall := do
    discard (expectDelimiter .parenClose)
    discard (expectDelimiter .dot)
    let method ← expectName "a method name after super()"
    let arguments ← argumentsWith inner
    return ⟨superclass, method, arguments, ← spanFrom start⟩
  have hend (start : Location) (r : Reader) {superclass : Option String} {names : List Kind}
      (hnames : SuperCall.Names superclass names) :
      Gives t.less (finish inner start superclass) (finish inner' start superclass) r
        fun call ks _ =>
        call.Renders (.identifier "super" :: .delimiter .parenOpen :: (names ++ ks)) := by
    refine .expectDelimiter fun r₁ => .expectDelimiter fun r₂ =>
      .expectName (by decide) fun method k r₃ hk => ?_
    refine (gives_argumentsWith hinner).less.bind fun arguments ks r₄ harguments _ =>
      .spanFrom fun span => .pure ?_
    rw [append_nil]
    exact .mk hnames hk harguments
  refine .location fun start => .advance hpeek rfl fun r₁ _ _ => .expectDelimiter fun r₂ => ?_
  refine .peek (.ite (fun _ => ?_) fun _ => ?_)
  · exact hend start r₂ .none
  · refine .expectName (by decide) fun name k r₃ hk => .eat (fun r₄ => ?_) fun _ => ?_
    · refine (hinner.gives r₄).discard.bind fun _ ks r₅ ⟨e, he, _⟩ _ => ?_
      refine (hend start r₅ (.dropped hk he)).imp fun call more _ hcall => ?_
      simpa using hcall
    · exact hend start r₃ (.named hk)

/-- The tokens of an embedded expression are those before the end of its input. -/
theorem gives_embeddedWith {tokens : List Token} (hfits : Fits t.less (.ofTokens tokens)) :
    Gives t.less (embeddedWith inner tokens) (embeddedWith inner' tokens) r fun e ks _ =>
      ks = [] ∧ e.Renders ((tokens.takeWhile fun t => !t.kind.isEnd).map Token.kind) := by
  let whole (inner : Read Expression) : Read Expression := do
    let expression ← inner
    discard (expect Kind.isEnd "end of the f-string expression")
    return expression
  have hwhole : Same t.named (fun e _ =>
    e.Renders ((tokens.takeWhile fun t => !t.kind.isEnd).map Token.kind))
      (whole inner (.ofTokens tokens r.names)) (whole inner' (.ofTokens tokens r.names)) := by
    refine Same.bind (hinner.gives _ hfits) fun e mid ⟨passed, ⟨hpassed, hlexemes, _⟩, he, _⟩ => ?_
    change (TokenStream.ofTokens tokens).toList = _ at hpassed
    refine Same.bind ((same_expect Kind.isEnd (by decide) (hfits.of_append hpassed)).map
      (Q := fun _ _ => mid.stream.current.kind.isEnd) fun _ _ h => h.1) fun _ _ hlast => .ok ?_
    have hinside : ∀ t ∈ passed, (!t.kind.isEnd) := fun t ht => by
      rw [(Kind.of_isLexeme (hlexemes t ht)).1]
      rfl
    have hbefore : tokens.takeWhile (fun t => !t.kind.isEnd) = passed := by
      rw [← TokenStream.takeWhile_toList_ofTokens tokens, hpassed, takeWhile_append_of_pos hinside,
        TokenStream.toList, takeWhile_cons_of_neg (by simpa using hlast), append_nil]
    rwa [hbefore]
  intro _
  have heq := hwhole.eq
  unfold embeddedWith
  dsimp only [whole] at hwhole heq ⊢
  rw [heq]
  split
  · rename_i hrun
    rw [hrun] at hwhole
    exact .ok ⟨[], ⟨rfl, forall_mem_nil _, rfl, rfl⟩, rfl, hwhole.of_ok⟩
  · rename_i hrun
    rw [hrun] at hwhole
    exact .error hwhole.of_error

theorem gives_formattedWith {fragments : List Fragment}
    (hfits : ∀ tokens, .embedded tokens ∈ fragments → Fits t.less (.ofTokens tokens)) :
    Gives t.less (formattedWith inner fragments) (formattedWith inner' fragments) r
      fun parts ks _ =>
      ks = [] ∧ FormattedPart.AllRender parts fragments := by
  induction fragments generalizing r with
  | nil => exact .pure ⟨rfl, .nil⟩
  | cons fragment fragments ih =>
    have hrest (r : Reader) := ih (r := r) fun tokens hmem => hfits tokens (mem_cons_of_mem _ hmem)
    cases fragment with
    | literal text => exact (hrest r).bindPure fun _ _ _ h => ⟨h.1, .literal h.2⟩
    | embedded tokens =>
      refine (gives_embeddedWith hinner (hfits tokens mem_cons_self)).bind fun e ks r₁
        ⟨hks, he⟩ _ => ?_
      exact (hrest r₁).bindPure fun _ _ _ h => ⟨by rw [hks, h.1]; rfl, .embedded he h.2⟩

/-- The tokens of an atom that is read render it. -/
theorem gives_atomWith : Gives t (atomWith inner) (atomWith inner') r GivenAtom := by
  -- an atom of one token that is no word
  have hsingle {kind : Kind} (hpeek : r.stream.peek = kind) (hkind : kind.isLexeme) {atom : Atom}
      (hatom : atom.Renders [kind]) (hword : Kind.areCallWord [kind] = false) :
      Gives t (do discard advance; return atom) (do discard advance; return atom) r GivenAtom :=
    .advance hpeek hkind fun r₁ _ _ => .pure (givenAtom_of_renders hatom hword r₁)
  let called (inner : Read Expression) (start : Location) (name : String) : Read Atom := do
    discard advance
    let arguments ← argumentsWith inner
    return .library ⟨name, arguments, ← spanFrom start⟩
  have hlibrary (start : Location) (r : Reader) {name : String} {kind : Kind}
      (hpeek : r.stream.peek = kind) (hkind : kind.isLexeme) (hname : kind.Spells name) :
      Gives t.less (called inner start name) (called inner' start name) r fun atom ks r' =>
        GivenAtom atom (.library :: .delimiter .dot :: ks) r' := by
    refine .advance hpeek hkind fun r₁ _ _ => (gives_argumentsWith hinner).less.bind
      fun arguments ks r₂ harguments _ => .spanFrom fun span => .pure ?_
    rw [append_nil]
    exact givenAtom_of_renders (.library hname harguments) rfl r₂
  refine .location fun start => .peek ?_
  split
  · rename_i name hpeek
    refine .get (.ite (fun hsuper => ?_) fun hsuper => ?_)
    · obtain ⟨rfl, -⟩ := hsuper
      refine (gives_superCallWith hinner hpeek).bindPure fun call ks r₁ hcall => ?_
      refine givenAtom_of_renders (.super hcall) ?_ r₁
      cases hcall
      rfl
    · refine .advance hpeek rfl fun r₁ hstream _ =>
        .pure ⟨.name .identifier, fun hword hparen => ?_⟩
      rw [hstream, peek_advance] at hparen
      exact hsuper ⟨by simpa [Kind.areCallWord] using hword, by rw [hparen]; rfl⟩
  · rename_i hpeek
    exact hsingle hpeek rfl (.boolean true) rfl
  · rename_i hpeek
    exact hsingle hpeek rfl (.boolean false) rfl
  · rename_i hpeek
    exact hsingle hpeek rfl .none rfl
  · rename_i value hpeek
    exact hsingle hpeek rfl (.integer value) rfl
  · rename_i value hpeek
    exact hsingle hpeek rfl (.float value) rfl
  · rename_i text hpeek
    exact hsingle hpeek rfl (.str text) rfl
  · rename_i fragments hpeek
    refine .assume fun hr => .advance hpeek rfl fun r₁ _ _ =>
      (gives_formattedWith hinner fun tokens hmem =>
      hr.embedded hinner.nested hpeek hmem).bindPure fun parts ks r₂ hparts => ?_
    rw [hparts.1]
    exact givenAtom_of_renders (.formatted hparts.2) rfl r₂
  · rename_i hpeek
    refine .advance hpeek rfl fun r₁ _ _ => (hinner.gives r₁).bind fun e ks r₂ he _ => ?_
    exact .expectDelimiter fun r₃ => .pure (givenAtom_of_renders (.group he.1) rfl r₃)
  · refine (gives_bracketed hinner _ _ (by decide)).bindPure fun elements ks r₁ helements => ?_
    obtain ⟨inside, rfl, helements⟩ := helements
    exact givenAtom_of_renders (.list helements) rfl r₁
  · rename_i hpeek
    refine .advance hpeek rfl fun r₁ _ _ => .expectDelimiter fun r₂ => .peek ?_
    split
    · rename_i name hname
      exact hlibrary start r₂ hname rfl .function
    · rename_i name hname
      exact hlibrary start r₂ hname rfl .identifier
    · exact gives_unexpected (by decide)
  · rename_i name hpeek
    refine .advance hpeek rfl fun r₁ _ _ => .peek (.ite (fun _ => ?_) fun hparen => ?_)
    · refine (gives_argumentsWith hinner).less.bind fun arguments ks r₂ harguments _ =>
        .spanFrom fun span => .pure ?_
      rw [append_nil]
      refine givenAtom_of_renders (.builtin harguments) ?_ r₂
      cases harguments
      rfl
    · refine .intern fun r₂ hstream => .pure ⟨.name .function, fun _ hopen => hparen ?_⟩
      rw [← hstream, hopen]
      rfl
  · exact gives_unexpected (by decide)

theorem gives_primaryWith :
    Gives t (primaryWith inner) (primaryWith inner') r fun p ks r' =>
      p.Renders ks ∧ r'.stream.peek.binding ≤ 7 := by
  refine .location fun start => (gives_atomWith hinner).bind fun atom ks r₁ ⟨hatom, hcall⟩ _ => ?_
  have htrailers : Gives t (many startsTrailer (trailerWith inner))
    (many startsTrailer (trailerWith inner')) r₁
      fun trailers more r' => Trailer.AllRender trailers more ∧
        startsTrailer r'.stream.peek = false :=
    gives_many .nil (fun h hrest => .cons h hrest) fun r =>
      (gives_trailerWith hinner).imp fun _ _ _ h => ⟨h, h.ne_nil⟩
  refine htrailers.head.bind fun trailers more r₂ ⟨⟨htrailers, hstop⟩, hhead⟩ _ => ?_
  refine .spanFrom fun span => .pure ⟨?_, binding_le_of_startsTrailer hstop⟩
  rw [append_nil]
  exact .mk hatom htrailers fun hword hparen => hcall hword (hhead _ hparen).symm

end Levels

/-! ## Operators -/

/-- What is known of an expression that is read on a level: its operators are at least as tight, and
the token behind it is one at which the reader of the level stops. -/
structure AtLevel (level : Nat) (e : Expr) (ks : List Kind) (r : Reader) : Prop where
  rank : level ≤ e.rank
  renders : e.Renders ks
  stops : r.stream.peek.binding ≤ level

/-- How operands of the next level are joined on a level to a node that is rendered by its operands
in a row. -/
structure ChainRenders {β : Type} (level : Nat) (operator : Kind → Option β) (token : β → Kind)
    (node : Expr → List (β × Expr) → Expr) : Prop extends Joining level operator token node where
  isSome : ∀ kind : Kind, kind.binding = level + 1 → (operator kind).isSome = true
  rank : ∀ first x rest, (node first (x :: rest)).rank = level
  renders : ∀ {first x rest ks more}, level + 1 ≤ first.rank → first.Renders ks →
    Expr.Chains (level + 1) token (x :: rest) more → (node first (x :: rest)).Renders (ks ++ more)

section ChainRenders

variable {t : Terms} {β : Type} {level : Nat} {operator : Kind → Option β} {token : β → Kind}
  {node : Expr → List (β × Expr) → Expr}

/-- A token that is no operator of the level, and binds no tighter than one, binds looser. -/
theorem ChainRenders.stops (h : ChainRenders level operator token node) {kind : Kind}
    (hnone : operator kind = none) (hbinding : kind.binding ≤ level + 1) :
    kind.binding ≤ level := by
  have hne : kind.binding ≠ level + 1 := by
    intro heq
    have hsome := h.isSome kind heq
    rw [hnone] at hsome
    cases hsome
  omega

/-- Operands of one level are read one by one; the operands themselves are read on the next level.
-/
theorem ChainRenders.gives (h : ChainRenders level operator token node)
    {operand operand' : Read Expr}
    (hoperand : ∀ r, Gives t operand operand' r (AtLevel (level + 1))) (r : Reader) :
    Gives t (do let operands ← chain operator operand; return node operands.1 operands.2)
      (do let operands ← chain operator operand'; return node operands.1 operands.2) r
        (AtLevel level) := by
  have hchain := gives_chain (r := r) (R := fun e ks => level + 1 ≤ e.rank ∧ e.Renders ks)
    (S := Expr.Chains (level + 1) token) token (·.binding ≤ level + 1) .nil
    (fun ha hrest => .cons ha.1 ha.2 hrest) h.token_eq
    fun r => (hoperand r).imp fun _ _ _ he => ⟨⟨he.rank, he.renders⟩, he.stops⟩
  refine hchain.bindPure fun ⟨first, rest⟩ ks r' ⟨hoperands, hnone, hbinding⟩ => ?_
  obtain ⟨front, back, rfl, ⟨hrank, hfirst⟩, hrest⟩ := hoperands
  cases rest with
  | nil =>
    cases hrest
    rw [append_nil, h.single]
    exact ⟨Nat.le_of_succ_le hrank, hfirst, h.stops hnone hbinding⟩
  | cons x rest =>
    exact ⟨Nat.le_of_eq (h.rank first x rest).symm, h.renders hrank hfirst hrest,
      h.stops hnone hbinding⟩

end ChainRenders

theorem chainRenders_product : ChainRenders 5 Kind.termOp? Kind.termOp Expr.ofProduct where
  toJoining := joining_product
  rank _ _ _ := rfl
  isSome kind := by
    fun_cases Kind.binding kind with
    | case5 => exact fun _ => rfl
    | _ => exact nofun
  renders hrank hfirst hrest := .product hrank hfirst (cons_ne_nil _ _) hrest

theorem chainRenders_sum : ChainRenders 4 Kind.sumOp? Kind.sumOp Expr.ofSum where
  toJoining := joining_sum
  rank _ _ _ := rfl
  isSome kind := by
    fun_cases Kind.binding kind with
    | case4 => exact fun _ => rfl
    | _ => exact nofun
  renders hrank hfirst hrest := .sum hrank hfirst (cons_ne_nil _ _) hrest

theorem chainRenders_comparison :
    ChainRenders 3 Kind.comparison? Kind.comparison Expr.ofCompare where
  toJoining := joining_comparison
  rank _ _ _ := rfl
  isSome kind := by
    fun_cases Kind.binding kind with
    | case3 => exact fun _ => rfl
    | _ => exact nofun
  renders hrank hfirst hrest := .compare hrank hfirst (cons_ne_nil _ _) hrest

/-- Operands that are joined by a word, without the word. -/
theorem map_unit_map_snd (rest : List (Unit × Expr)) :
    (rest.map Prod.snd).map (fun e => ((), e)) = rest := by
  rw [map_map]
  exact map_id rest

theorem chainRenders_and :
    ChainRenders 1 (separator (·.isKeyword .andKw)) (fun _ => .keyword .andKw)
    fun first rest => Expr.ofAnd first (rest.map Prod.snd) where
  toJoining := joining_and
  rank _ _ _ := rfl
  isSome kind := by
    fun_cases Kind.binding kind with
    | case2 => exact fun _ => rfl
    | _ => exact nofun
  renders {first x rest ks more} hrank hfirst hrest := by
    refine .and hrank hfirst (cons_ne_nil _ _) ?_
    rwa [map_unit_map_snd]

theorem chainRenders_or : ChainRenders 0 (separator (·.isKeyword .orKw)) (fun _ => .keyword .orKw)
    fun first rest => Expr.ofOr first (rest.map Prod.snd) where
  toJoining := joining_or
  rank _ _ _ := rfl
  isSome kind := by
    fun_cases Kind.binding kind with
    | case1 => exact fun _ => rfl
    | _ => exact nofun
  renders {first x rest ks more} hrank hfirst hrest := by
    refine .or hrank hfirst (cons_ne_nil _ _) ?_
    rwa [map_unit_map_snd]

/-- Of the tokens that bind as tightly as a power or looser, only the power binds so tightly. -/
theorem binding_le_of_isPower {kind : Kind} (h : kind.isPower = false) (hle : kind.binding ≤ 7) :
    kind.binding ≤ 6 := by
  revert hle
  fun_cases Kind.binding kind with
  | case6 => cases h
  | _ => decide

/-- No token binds as tightly as a negation. -/
theorem binding_le_two {kind : Kind} (hle : kind.binding ≤ 3) : kind.binding ≤ 2 := by
  revert hle
  fun_cases Kind.binding kind <;> decide

section Levels

variable {t : Terms} {inner inner' : Read Expression} (hinner : GivesExpression t.less inner inner')
  {r : Reader} {bound bound' : Nat}

include hinner

/-- Signs and powers, whatever bounds them. -/
theorem gives_factorWithin (h : r.stream.size ≤ bound) (h' : r.stream.size ≤ bound') :
    Gives t (factorWithin inner bound) (factorWithin inner' bound') r (AtLevel 6) := by
  induction bound generalizing r bound' with
  | zero => cases h
  | succ bound ih =>
    obtain ⟨bound', rfl⟩ := Nat.exists_eq_succ_of_ne_zero (Nat.ne_zero_of_lt h')
    refine .peek ?_
    split
    · rename_i op hop
      obtain ⟨hkind, hlexeme⟩ := chainRenders_sum.token_eq hop
      refine .advance hkind (hkind ▸ hlexeme) fun r₁ _ hsize => ?_
      refine (ih (by omega) (by omega)).less.bindPure fun operand ks r₂ h => ?_
      exact ⟨Nat.le_refl 6, .sign h.rank h.renders, h.stops⟩
    · refine (gives_primaryWith hinner).bind fun base ks r₁ ⟨hbase, hbinding⟩ hsize => .peek ?_
      refine .ite (fun hpower => ?_) fun hpower => .pure ?_
      · have hpeek : r₁.stream.peek = .power := by
          generalize r₁.stream.peek = kind at hpower
          cases kind with
          | power => rfl
          | _ => cases hpower
        refine .advance hpeek rfl fun r₂ _ hsize' => ?_
        refine (ih (by omega) (by omega)).less.bindPure fun exponent more r₃ h => ?_
        exact ⟨Nat.le_refl 6, .power hbase h.rank h.renders, h.stops⟩
      · rw [append_nil]
        exact ⟨Nat.le_refl 6, .primary hbase,
          binding_le_of_isPower (Bool.eq_false_iff.mpr hpower) hbinding⟩

theorem gives_comparisonWith (r : Reader) :
    Gives t (comparisonWith inner) (comparisonWith inner') r (AtLevel 3) := by
  have hfactor (r : Reader) : Gives t (factorWith inner) (factorWith inner') r (AtLevel 6) :=
    .remaining (gives_factorWithin hinner (Nat.le_refl _) (Nat.le_refl _))
  exact chainRenders_comparison.gives
    (chainRenders_sum.gives (chainRenders_product.gives hfactor)) r

theorem gives_inversionWithin (h : r.stream.size ≤ bound) (h' : r.stream.size ≤ bound') :
    Gives t (inversionWithin inner bound) (inversionWithin inner' bound') r (AtLevel 2) := by
  induction bound generalizing r bound' with
  | zero => cases h
  | succ bound ih =>
    obtain ⟨bound', rfl⟩ := Nat.exists_eq_succ_of_ne_zero (Nat.ne_zero_of_lt h')
    refine .peek (.ite (fun hnot => ?_) fun _ => ?_)
    · have hpeek : r.stream.peek = .keyword .notKw := (token_of_separator (if_pos hnot)).1
      refine .advance hpeek rfl fun r₁ _ hsize => ?_
      refine (ih (by omega) (by omega)).less.bindPure fun operand ks r₂ h => ?_
      exact ⟨Nat.le_refl 2, .not h.rank h.renders, h.stops⟩
    · exact (gives_comparisonWith hinner r).imp fun _ _ _ h =>
        ⟨Nat.le_of_succ_le h.rank, h.renders, binding_le_two h.stops⟩

/-- What the reader of a level gives. -/
theorem gives_level (n : Nat) (r : Reader) :
    Gives t (level inner n) (level inner' n) r (AtLevel (min n 6)) := by
  have hfactor (r : Reader) : Gives t (factorWith inner) (factorWith inner') r (AtLevel 6) :=
    .remaining (gives_factorWithin hinner (Nat.le_refl _) (Nat.le_refl _))
  have hinversion (r : Reader) : Gives t (inversionWith inner) (inversionWith inner') r
      (AtLevel 2) :=
    .remaining (gives_inversionWithin hinner (Nat.le_refl _) (Nat.le_refl _))
  match n with
  | 0 => exact chainRenders_or.gives (chainRenders_and.gives hinversion) r
  | 1 => exact chainRenders_and.gives hinversion r
  | 2 => exact hinversion r
  | 3 => exact gives_comparisonWith hinner r
  | 4 => exact chainRenders_sum.gives (chainRenders_product.gives hfactor) r
  | 5 => exact chainRenders_product.gives hfactor r
  | n + 6 =>
    rw [Nat.min_eq_right (Nat.le_add_left 6 n)]
    exact hfactor r

theorem gives_expressionWith :
    GivesExpression t (expressionWith inner) (expressionWith inner') := by
  refine ⟨hinner.nested, fun r => ?_⟩
  refine .location fun start => (gives_level hinner 0 r).bind fun tree ks r₁ h _ =>
    .spanFrom fun span => .pure ?_
  rw [append_nil]
  exact ⟨.mk h.renders, Nat.le_zero.mp h.stops⟩

end Levels

/-- What is read does not depend on the bound on the depth, if that is large enough for the tokens
that are left. -/
theorem gives_expressionWithin (named : Prop) {n depth depth' : Nat} (h : n ≤ depth)
    (h' : n ≤ depth') :
    GivesExpression ⟨named, .nested, n, false⟩ (expressionWithin depth)
      (expressionWithin depth') := by
  induction n generalizing depth depth' with
  | zero => exact ⟨rfl, fun r hr => absurd hr.bound_pos (Nat.lt_irrefl 0)⟩
  | succ n ih =>
    obtain ⟨depth, rfl⟩ := Nat.exists_eq_succ_of_ne_zero (Nat.ne_zero_of_lt h)
    obtain ⟨depth', rfl⟩ := Nat.exists_eq_succ_of_ne_zero (Nat.ne_zero_of_lt h')
    refine gives_expressionWith ⟨rfl, fun r hr => ?_⟩
    exact (ih (Nat.le_of_succ_le_succ h) (Nat.le_of_succ_le_succ h')).gives r
      ⟨hr.ended, hr.named, Nat.le_of_succ_le_succ hr.bounded⟩

theorem givesExpression_expression {t : Terms} (ht : t.counting = .nested) :
    GivesExpression t expression expression := by
  refine ⟨ht, fun r hr => ?_⟩
  exact (gives_expressionWithin t.named (Nat.le_refl _) (Nat.le_refl _)).gives r
    ⟨hr.ended, hr.named, Nat.le_refl _⟩

/-- The bound on the depth of an expression is never met. -/
theorem expression_eq {r : Reader} (h : r.stream.IsEnded) :
    expression r = expressionWith expression r := by
  obtain ⟨n, hn⟩ :=
    Nat.exists_eq_add_of_lt (Counting.total_pos .nested r.stream.current r.stream.upcoming)
  rw [Nat.zero_add] at hn
  have hinner : GivesExpression (Terms.less ⟨False, .nested, n + 1, false⟩)
      (expressionWithin n) expression :=
    ⟨rfl, fun r' hr' =>
      (gives_expressionWithin False (Nat.le_of_succ_le_succ hr'.bounded) (Nat.le_refl _)).gives r'
      ⟨hr'.ended, hr'.named, Nat.le_refl _⟩⟩
  have hsame := ((gives_expressionWith hinner).gives r ⟨h, False.elim, Nat.le_of_eq hn⟩).eq
  change expressionWithin (Counting.total .nested r.stream.toList) r = _
  rw [hsame, TokenStream.toList, hn]
  rfl

end Reader

end Offside
