import Offside.Proofs.Outcome
import Offside.Proofs.Reader.Messages
import Offside.Proofs.Token.Spelling
import Offside.Proofs.Tree.Renderings

/-!
# The tokens that a reader consumes

What a successful step of a reader has passed, and how that is related to what it gives.  `Gives t x
y r P` says of the step `x` from the reader `r`: if it succeeds, then it has passed some lexemes,
and `P` relates its result, the kinds of these tokens and the reader that is left; if it fails, its
error can be shown.  The step `y` does the same from `r`: it may read what is nested in an
expression with another bound on the depth, as long as both bounds are large enough for the tokens
that are left (`Terms`).  The tokens of steps in a row are put together by `Gives.bind`, and a
repetition by an induction on its bound, which is never met as every round passes a token.

The last token that is left is always the end of input (`IsEnded`): so a token that is not the end
of input can be passed.
-/

namespace Offside

open List

variable {expected : String} {d : Delimiter}

/-! ## Streams at a position -/

/-- The stream of some tokens at a position. -/
def TokenStream.ofTokensAt (tokens : List Token) : Nat → TokenStream
  | 0 => .ofTokens tokens
  | n + 1 => (ofTokensAt tokens n).advance

/-- The last token that is left is the end of input. -/
def TokenStream.IsEnded (s : TokenStream) : Prop :=
  ∃ t, s.toList.getLast? = some t ∧ t.kind = .endOfInput

theorem Kind.eq_endOfInput_of_isEnd {kind : Kind} (h : kind.isEnd) : kind = .endOfInput := by
  cases kind with
  | endOfInput => rfl
  | _ => cases h

theorem Kind.eq_delimiter_of_isDelimiter {kind : Kind} (h : kind.isDelimiter d) :
    kind = .delimiter d := by
  cases kind with
  | delimiter mark => exact congrArg Kind.delimiter (by simpa [Kind.isDelimiter] using h)
  | _ => cases h

namespace TokenStream

theorem isEnded_ofTokens (tokens : List Token) : (ofTokens tokens).IsEnded := by
  cases tokens with
  | nil => exact ⟨_, rfl, rfl⟩
  | cons first rest =>
    unfold ofTokens IsEnded toList
    dsimp only
    split
    · rename_i hlast
      refine ⟨rest.getLastD first, ?_, Kind.eq_endOfInput_of_isEnd hlast⟩
      rw [getLast?_cons, getLastD_eq_getLast?]
    · exact ⟨_, by rw [← cons_append, getLast?_concat], rfl⟩

/-- The end of input that is added comes behind all that stands before an end of input. -/
theorem takeWhile_toList_ofTokens (tokens : List Token) :
    (ofTokens tokens).toList.takeWhile (fun t => !t.kind.isEnd) = tokens.takeWhile fun t =>
      !t.kind.isEnd := by
  have hadded (t : Token) (ht : t.kind.isEnd) (tokens : List Token) :
      (tokens ++ [t]).takeWhile (fun t => !t.kind.isEnd) = tokens.takeWhile fun t =>
        !t.kind.isEnd := by
    induction tokens with
    | nil => simp [ht]
    | cons first rest ih => rw [cons_append, takeWhile_cons, takeWhile_cons, ih]
  cases tokens with
  | nil => rfl
  | cons first rest =>
    unfold ofTokens toList
    dsimp only
    split
    · rfl
    · rw [← cons_append, hadded _ rfl]

/-- A token that is not the end of input is passed: the stream goes on to the tokens behind it. -/
theorem toList_advance {s : TokenStream} (h : s.IsEnded) (hpeek : s.peek.isEnd = false) :
    s.toList = s.current :: s.advance.toList := by
  obtain ⟨current, upcoming, previous⟩ := s
  cases upcoming with
  | nil =>
    obtain ⟨t, hlast, hend⟩ := h
    obtain rfl : current = t := by simpa [toList] using hlast
    exact absurd hpeek (by simp [peek, hend, Kind.isEnd])
  | cons next upcoming => rfl

theorem IsEnded.of_append {s s' : TokenStream} (h : s.IsEnded) {passed : List Token}
    (hpassed : s.toList = passed ++ s'.toList) : s'.IsEnded := by
  obtain ⟨t, hlast, hend⟩ := h
  refine ⟨t, ?_, hend⟩
  rw [hpassed, getLast?_append, toList, getLast?_cons] at hlast
  rwa [toList, getLast?_cons]

theorem IsEnded.advance {s : TokenStream} (h : s.IsEnded) : s.advance.IsEnded := by
  obtain ⟨current, upcoming, previous⟩ := s
  cases upcoming with
  | nil => exact h
  | cons next upcoming =>
    have hpassed : toList ⟨current, next :: upcoming, previous⟩ = [current] ++ next :: upcoming :=
      rfl
    exact h.of_append hpassed

theorem isEnded_ofTokensAt (tokens : List Token) (n : Nat) : (ofTokensAt tokens n).IsEnded := by
  induction n with
  | zero => exact isEnded_ofTokens tokens
  | succ n ih => exact ih.advance

end TokenStream

/-- An error of a reader can be shown: if names are of their kinds, its message is on one line. -/
def ReadError.IsShown (named : Prop) (e : ReadError) : Prop :=
  named → Target.isPrintable e.message = true

namespace Reader

/-! ## Outcomes of two steps -/

/-- Two steps end the same way.  If they succeed, `P` relates the result and the reader that is
left; if they fail, the error can be shown. -/
inductive Same (named : Prop) {α : Type} (P : α → Reader → Prop) :
    EStateM.Result ReadError Reader α → EStateM.Result ReadError Reader α → Prop
  | ok {a : α} {r : Reader} (h : P a r) : Same named P (.ok a r) (.ok a r)
  | error {e : ReadError} {r : Reader} (h : e.IsShown named) :
    Same named P (.error e r) (.error e r)

section Same

variable {named : Prop} {α β : Type} {r : Reader} {x y : Read α} {P : α → Reader → Prop}
  {Q : β → Reader → Prop} {outcome outcome' : EStateM.Result ReadError Reader α}

theorem Same.eq (h : Same named P outcome outcome') : outcome' = outcome := by
  cases h <;> rfl

theorem Same.of_ok {a : α} (h : Same named P (.ok a r) outcome') : P a r := by
  cases h
  assumption

theorem Same.of_error {e : ReadError} (h : Same named P (.error e r) outcome') :
    e.IsShown named := by
  cases h
  assumption

/-- What is done behind a step may rely on what the step did. -/
theorem Same.bind {f g : α → Read β} (h : Same named P (x r) (y r))
    (hf : ∀ a r', P a r' → Same named Q (f a r') (g a r')) :
    Same named Q ((x >>= f) r) ((y >>= g) r) := by
  change Same named Q (EStateM.bind x f r) (EStateM.bind y g r)
  unfold EStateM.bind
  generalize x r = outcome at h
  generalize y r = outcome' at h
  cases h with
  | ok h => exact hf _ _ h
  | error h => exact .error h

theorem Same.imp {P' : α → Reader → Prop} (h : Same named P outcome outcome')
    (hP : ∀ a r', P a r' → P' a r') :
    Same named P' outcome outcome' := by
  cases h with
  | ok h => exact .ok (hP _ _ h)
  | error h => exact .error h

theorem Same.map {f : α → β} (h : Same named P (x r) (y r)) (hf : ∀ a r', P a r' → Q (f a) r') :
    Same named Q ((f <$> x) r) ((f <$> y) r) := by
  rw [map_eq_pure_bind, map_eq_pure_bind]
  exact h.bind fun a r' ha => .ok (hf a r' ha)

end Same

/-! ## What is left to read -/

/-- How tokens are counted: each of them, or also those of embedded expressions. -/
inductive Counting
  | tokens
  | nested

def Counting.total : Counting → List Token → Nat
  | tokens => length
  | nested => Token.totalWeight

/-- What is asked of the tokens that are left: that names are of their kinds, and that there are at
most so many, and fewer behind the first token. -/
structure Terms where
  named : Prop
  counting : Counting
  bound : Nat
  behind : Bool := false

/-- What is asked behind a token. -/
abbrev Terms.less (t : Terms) : Terms := { t with behind := true }

/-- What is asked with a token less. -/
abbrev Terms.lower (t : Terms) : Terms := { t with bound := t.bound - 1 }

/-- The tokens that are left are as asked, and the last of them is the end of input. -/
structure Fits (t : Terms) (s : TokenStream) : Prop where
  ended : s.IsEnded
  named : t.named → ∀ token ∈ s.toList, token.kind.isLexical = true
  bounded : t.counting.total s.toList + t.behind.toNat ≤ t.bound

/-- Between two states some lexemes are passed; no class is met and as many blocks are around. -/
def Crosses (r : Reader) (passed : List Token) (r' : Reader) : Prop :=
  r.stream.toList = passed ++ r'.stream.toList ∧ (∀ t ∈ passed, t.kind.isLexeme = true) ∧
    r'.registry = r.registry ∧ r'.blockDepth = r.blockDepth

section Fits

variable {t : Terms} {s s' : TokenStream} {passed : List Token}

theorem Counting.total_append (counting : Counting) (tokens more : List Token) :
    counting.total (tokens ++ more) = counting.total tokens + counting.total more := by
  cases counting with
  | tokens => exact length_append
  | nested =>
    induction tokens with
    | nil => exact (Nat.zero_add _).symm
    | cons t tokens ih =>
      change t.weight + total nested (tokens ++ more) = t.weight + total nested tokens + _
      rw [ih, Nat.add_assoc]

theorem Counting.total_pos (counting : Counting) (token : Token) (tokens : List Token) :
    0 < counting.total (token :: tokens) := by
  cases counting with
  | tokens => exact Nat.succ_pos _
  | nested =>
    obtain ⟨kind, span⟩ := token
    exact Nat.lt_add_right _ (Nat.succ_pos _)

section

variable (h : Fits t s) (hpassed : s.toList = passed ++ s'.toList)
include h hpassed

theorem Fits.of_append : Fits t s' where
  ended := h.ended.of_append hpassed
  named hasked token htoken := h.named hasked token (hpassed ▸ mem_append_right _ htoken)
  bounded := by
    have hbounded := h.bounded
    rw [hpassed, Counting.total_append] at hbounded
    omega

theorem Fits.bounded_past (hne : passed ≠ []) :
    t.counting.total s'.toList + t.behind.toNat < t.bound := by
  have hbounded := h.bounded
  obtain ⟨token, more, rfl⟩ := exists_cons_of_ne_nil hne
  have hpos := t.counting.total_pos token more
  rw [hpassed, Counting.total_append] at hbounded
  omega

theorem Fits.past (hne : passed ≠ []) : Fits t.less s' := by
  have hrest := h.of_append hpassed
  exact ⟨hrest.ended, hrest.named,
    Nat.lt_of_le_of_lt (Nat.le_add_right _ _) (h.bounded_past hpassed hne)⟩

theorem Fits.lower (hne : passed ≠ []) : Fits t.lower s' := by
  have hrest := h.of_append hpassed
  exact ⟨hrest.ended, hrest.named, Nat.le_sub_one_of_lt (h.bounded_past hpassed hne)⟩

end

/-- Nothing is left that fits in no token. -/
theorem Fits.bound_pos (h : Fits t s) : 0 < t.bound :=
  Nat.lt_of_lt_of_le (t.counting.total_pos s.current s.upcoming)
    (Nat.le_trans (Nat.le_add_right _ _) h.bounded)

theorem fits_ofTokens {tokens : List Token} (h : t.named → Token.areLexical tokens)
    (hbound : t.counting.total (TokenStream.ofTokens tokens).toList + t.behind.toNat ≤ t.bound) :
    Fits t (.ofTokens tokens) := by
  refine ⟨TokenStream.isEnded_ofTokens tokens, fun hasked t ht => ?_, hbound⟩
  have h := Token.areLexical_iff.mp (h hasked)
  cases tokens with
  | nil =>
    rw [mem_singleton.mp ht]
    rfl
  | cons first rest =>
    obtain ⟨hfirst, hrest⟩ := forall_mem_cons.mp h
    rcases mem_cons.mp ht with rfl | ht
    · exact hfirst
    · change t ∈ (if (rest.getLastD first).kind.isEnd then rest else rest ++ [_]) at ht
      split at ht
      · exact hrest t ht
      · rcases mem_append.mp ht with ht | ht
        · exact hrest t ht
        · rw [mem_singleton.mp ht]
          rfl

/-- At most the end of input is added. -/
theorem weight_ofTokens_le (tokens : List Token) :
    (TokenStream.ofTokens tokens).weight ≤ Token.totalWeight tokens + 1 := by
  cases tokens with
  | nil => exact Nat.le_refl 1
  | cons first rest =>
    unfold TokenStream.ofTokens TokenStream.weight TokenStream.toList
    dsimp only
    split
    · exact Nat.le_succ _
    · exact Nat.le_of_eq (Counting.total_append .nested (first :: rest) _)

end Fits

/-! ## What a step gives -/

/-- From a reader that is left with what is asked, the two steps do the same.  If they succeed, they
pass lexemes; `P` relates the result, the kinds of these tokens, and the reader that is left. -/
def Gives (t : Terms) {α : Type} (x y : Read α) (r : Reader) (P : α → List Kind → Reader → Prop) :
    Prop :=
  Fits t r.stream → Same t.named (fun a r' => ∃ passed : List Token, Crosses r passed r' ∧
    P a (passed.map Token.kind) r') (x r) (y r)

section Steps

variable {t : Terms} {α β : Type} {r : Reader} {x y : Read α} {P : α → List Kind → Reader → Prop}
  {Q : β → List Kind → Reader → Prop}

theorem Gives.pure {a : α} (h : P a [] r) : Gives t (pure a) (pure a) r P :=
  fun _ => .ok ⟨[], ⟨rfl, forall_mem_nil _, rfl, rfl⟩, h⟩

theorem same_unexpected (h : Target.isPrintable expected) (hr : Fits t r.stream)
    {P : α → Reader → Prop} : Same t.named P (unexpected expected r) (unexpected expected r) :=
  .error fun hasked => isPrintable_unexpected h (hr.named hasked _ mem_cons_self) _

theorem same_expect (accepts : Kind → Bool) (h : Target.isPrintable expected)
    (hr : Fits t r.stream) : Same t.named (fun _ r' => accepts r.stream.peek ∧
      r' = { r with stream := r.stream.advance }) (expect accepts expected r)
        (expect accepts expected r) := by
  change Same _ _ ((if accepts r.stream.peek then advance else unexpected expected : Read Token) r)
    ((if accepts r.stream.peek then advance else unexpected expected : Read Token) r)
  split
  · exact .ok ⟨‹_›, rfl⟩
  · exact same_unexpected h hr

theorem gives_unexpected (h : Target.isPrintable expected) :
    Gives t (unexpected expected) (unexpected expected) r P := fun hr => same_unexpected h hr

/-- What is asked of the tokens that are left may be used. -/
theorem Gives.assume (h : Fits t r.stream → Gives t x y r P) : Gives t x y r P := fun hr => h hr hr

/-- Fewer tokens are left. -/
theorem Gives.less (h : Gives t x y r P) : Gives t.less x y r P := fun hr =>
  h ⟨hr.ended, hr.named, Nat.le_trans (Nat.add_le_add_left (Bool.toNat_le _) _) hr.bounded⟩

/-- Steps in a row pass their tokens in a row. -/
theorem Gives.bind {f g : α → Read β} (hstep : Gives t x y r P)
    (hf : ∀ a ks r', P a ks r' → r'.stream.size + ks.length = r.stream.size →
      Gives t (f a) (g a) r' fun b more => Q b (ks ++ more)) : Gives t (x >>= f) (y >>= g) r Q := by
  intro hr
  refine (hstep hr).bind fun a r' ⟨passed, ⟨hpassed, hlexemes, hregistry, hdepth⟩, ha⟩ => ?_
  have hsize : r'.stream.size + (passed.map Token.kind).length = r.stream.size := by
    have hlength := congrArg length hpassed
    simp only [TokenStream.toList, length_append, length_cons] at hlength
    simp only [TokenStream.size, length_map]
    omega
  refine (hf a _ r' ha hsize (hr.of_append hpassed)).imp
    fun b r'' ⟨more, ⟨hmore, hlexemes', hregistry', hdepth'⟩, hb⟩ => ?_
  refine ⟨passed ++ more,
    ⟨?_, forall_mem_append.mpr ⟨hlexemes, hlexemes'⟩, hregistry'.trans hregistry,
    hdepth'.trans hdepth⟩, ?_⟩
  · rw [hpassed, hmore, append_assoc]
  · rwa [map_append]

theorem Gives.imp {P' : α → List Kind → Reader → Prop} (hstep : Gives t x y r P)
    (h : ∀ a ks r', P a ks r' → P' a ks r') : Gives t x y r P' := fun hr =>
  (hstep hr).imp fun _ _ ⟨passed, hpassed, ha⟩ => ⟨passed, hpassed, h _ _ _ ha⟩

/-- A step whose result is used by a function. -/
theorem Gives.bindPure {f : α → β} (hstep : Gives t x y r P)
    (hf : ∀ a ks r', P a ks r' → Q (f a) ks r') :
    Gives t (x >>= fun a => Pure.pure (f a)) (y >>= fun a => Pure.pure (f a)) r Q := by
  refine hstep.bind fun a ks r' ha _ => .pure ?_
  rw [append_nil]
  exact hf a ks r' ha

theorem Gives.discard (hstep : Gives t x y r P) :
    Gives t (discard x) (discard y) r fun _ ks r' => ∃ a, P a ks r' := fun hr =>
  (hstep hr).map fun a _ ⟨passed, hpassed, ha⟩ => ⟨passed, hpassed, a, ha⟩

/-- The first token that a step passes is the current one. -/
theorem Gives.head (hstep : Gives t x y r P) :
    Gives t x y r fun a ks r' => P a ks r' ∧ ∀ k ∈ ks.head?, k = r.stream.peek := by
  refine fun hr => (hstep hr).imp fun a r' ⟨passed, hpassed, ha⟩ =>
    ⟨passed, hpassed, ha, fun k hk => ?_⟩
  cases passed with
  | nil => cases hk
  | cons t passed =>
    have hcurrent : r.stream.current = t := (cons.inj hpassed.1).1
    rw [← Option.some.inj hk, ← hcurrent]
    rfl

/-! ## Looking ahead -/

theorem Gives.peek {f g : Kind → Read β} (h : Gives t (f r.stream.peek) (g r.stream.peek) r Q) :
    Gives t (Reader.peek >>= f) (Reader.peek >>= g) r Q :=
  h

theorem Gives.get {f g : Reader → Read β} (h : Gives t (f r) (g r) r Q) :
    Gives t (MonadState.get >>= f) (MonadState.get >>= g) r Q :=
  h

theorem Gives.location {f g : Location → Read β} (h : ∀ l, Gives t (f l) (g l) r Q) :
    Gives t (Reader.location >>= f) (Reader.location >>= g) r Q :=
  h r.stream.location

theorem Gives.spanFrom {start : Location} {f g : Span → Read β}
    (h : ∀ span, Gives t (f span) (g span) r Q) :
    Gives t (Reader.spanFrom start >>= f) (Reader.spanFrom start >>= g) r Q :=
  h ⟨start, r.stream.stop⟩

theorem Gives.remaining {f g : Nat → Read β} (h : Gives t (f r.stream.size) (g r.stream.size) r Q) :
    Gives t (Reader.remaining >>= f) (Reader.remaining >>= g) r Q :=
  h

theorem Gives.intern {name : String} {f g : Unit → Read β}
    (h : ∀ r' : Reader, r'.stream = r.stream → Gives t (f ()) (g ()) r' Q) :
    Gives t (Reader.intern name >>= f) (Reader.intern name >>= g) r Q :=
  h { r with names := r.names.intern name } rfl

theorem Gives.ite {p : Prop} [Decidable p] {x' y' : Read α} (hx : p → Gives t x y r P)
    (hy : ¬p → Gives t x' y' r P) :
    Gives t (if p then x else x') (if p then y else y') r P := by
  by_cases hp : p
  · rw [if_pos hp, if_pos hp]
    exact hx hp
  · rw [if_neg hp, if_neg hp]
    exact hy hp

/-! ## Passing tokens -/

/-- Fewer tokens are left behind a step that passes one. -/
theorem Gives.passing (hstep : Gives t x y r P) :
    Gives t x y r fun a ks r' => P a ks r' ∧ (ks ≠ [] → Fits t.less r'.stream) := fun hr =>
  (hstep hr).imp fun _ _ ⟨passed, hpassed, ha⟩ =>
    ⟨passed, hpassed, ha, fun hne => hr.past hpassed.1 (mt (congrArg (map Token.kind)) hne)⟩

/-- A lexeme is passed. -/
theorem gives_advance (hpeek : r.stream.peek.isLexeme) :
    Gives t advance advance r fun _ ks r' => ks = [r.stream.peek] ∧ r'.stream = r.stream.advance :=
      fun hr =>
  .ok ⟨[r.stream.current], ⟨TokenStream.toList_advance hr.ended (Kind.of_isLexeme hpeek).1,
    forall_mem_singleton.mpr hpeek, rfl, rfl⟩, rfl, rfl⟩

section Tokens

variable {f g : Unit → Read β}

/-- A token of a known kind is passed. -/
theorem Gives.advance {kind : Kind} (hpeek : r.stream.peek = kind) (hkind : kind.isLexeme)
    (h : ∀ r' : Reader, r'.stream = r.stream.advance → r'.stream.size + 1 = r.stream.size →
      Gives t.less (f ()) (g ()) r' fun b more => Q b (kind :: more)) :
    Gives t (Functor.discard Reader.advance >>= f) (Functor.discard Reader.advance >>= g) r Q := by
  subst hpeek
  refine (gives_advance hkind).discard.passing.bind fun _ ks r'
    ⟨⟨_, hks, hstream⟩, hfits⟩ hsize _ => ?_
  subst hks
  exact h r' hstream hsize (hfits (cons_ne_nil _ _))

/-- A delimiter that is expected is passed. -/
theorem Gives.expectDelimiter
    (h : ∀ r', Gives t.less (f ()) (g ()) r' fun b more => Q b (.delimiter d :: more)) :
    Gives t (Functor.discard (Reader.expectDelimiter d) >>= f)
      (Functor.discard (Reader.expectDelimiter d) >>= g) r
      Q := by
  have hexpect : Gives t (Reader.expectDelimiter d) (Reader.expectDelimiter d) r fun _ ks _ =>
      ks = [.delimiter d] := by
    refine .peek (.ite (fun hpeek => ?_) fun _ =>
      gives_unexpected (isPrintable_quoted d.isPrintable_spelling))
    have hkind := Kind.eq_delimiter_of_isDelimiter hpeek
    rw [← hkind]
    exact (gives_advance (by rw [hkind]; rfl)).imp fun _ _ _ h => h.1
  refine hexpect.discard.passing.bind fun _ ks r' ⟨⟨_, hks⟩, hfits⟩ _ _ => ?_
  subst hks
  exact h r' (hfits (cons_ne_nil _ _))

end Tokens

/-- A delimiter is passed if it is there. -/
theorem Gives.eat {f g : Bool → Read β}
    (htrue : ∀ r', Gives t.less (f true) (g true) r' fun b more => Q b (.delimiter d :: more))
    (hfalse : r.stream.peek.isDelimiter d = false → Gives t (f false) (g false) r Q) :
    Gives t (Reader.eat d >>= f) (Reader.eat d >>= g) r Q := by
  have heat : Gives t (Reader.eat d) (Reader.eat d) r fun found ks r' =>
      found ∧ ks = [.delimiter d] ∨ found = false ∧ ks = [] ∧ r' = r ∧
        r.stream.peek.isDelimiter d = false := by
    refine .peek (.ite (fun hpeek => ?_) fun hpeek => ?_)
    · exact .advance (Kind.eq_delimiter_of_isDelimiter hpeek) rfl fun _ _ _ =>
        .pure (.inl ⟨rfl, rfl⟩)
    · exact .pure (.inr ⟨rfl, rfl, rfl, Bool.eq_false_iff.mpr hpeek⟩)
  refine heat.passing.bind fun found ks r' ⟨h, hfits⟩ _ => ?_
  rcases h with ⟨rfl, rfl⟩ | ⟨rfl, rfl, rfl, hpeek⟩
  · exact fun _ => htrue r' (hfits (cons_ne_nil _ _))
  · exact hfalse hpeek

/-- The name that is expected is passed, and what is done behind it is told its token. -/
theorem Gives.expectName (hexpected : Target.isPrintable expected)
    {f g : String → Read β}
    (h : ∀ name kind r', kind.Spells name → Gives t.less (f name) (g name) r' fun b more =>
      Q b (kind :: more)) :
    Gives t (Reader.expectName expected >>= f) (Reader.expectName expected >>= g) r Q := by
  have hname : Gives t (Reader.expectName expected) (Reader.expectName expected) r fun name ks _ =>
      ∃ kind : Kind, kind.Spells name ∧ ks = [kind] := by
    refine .peek ?_
    split
    · rename_i name hpeek
      exact .advance hpeek rfl fun _ _ _ => .pure ⟨_, .identifier, rfl⟩
    · rename_i name hpeek
      exact .advance hpeek rfl fun _ _ _ => .intern fun _ _ => .pure ⟨_, .function, rfl⟩
    · exact gives_unexpected hexpected
  refine hname.passing.bind fun name ks r' ⟨⟨kind, hkind, hks⟩, hfits⟩ _ _ => ?_
  subst hks
  exact h name kind r' hkind (hfits (cons_ne_nil _ _))

end Steps

/-! ## Repetitions -/

section Repetitions

variable {t : Terms} {α β : Type} {r : Reader} {item item' : Read α} {R : α → List Kind → Prop}

section Many

variable {starts : Kind → Bool} {S : List α → List Kind → Prop} (hnil : S [] [])
  (hcons : ∀ {a as ks more}, R a ks → S as more → S (a :: as) (ks ++ more))
  (hitem : ∀ r : Reader, Gives t item item' r fun a ks _ => R a ks ∧ ks ≠ [])
include hnil hcons hitem

/-- Items in a row: `S` holds of no items and of one more item in front. -/
theorem gives_manyWithin {bound : Nat} (hbound : r.stream.size ≤ bound) :
    Gives t (manyWithin starts item bound) (manyWithin starts item' bound) r fun as ks r' =>
      S as ks ∧ starts r'.stream.peek = false := by
  induction bound generalizing r with
  | zero => cases hbound
  | succ bound ih =>
    refine .peek (.ite (fun _ => ?_) fun hstarts => .pure ⟨hnil, Bool.eq_false_iff.mpr hstarts⟩)
    refine (hitem r).bind fun a ks r' ⟨ha, hne⟩ hsize => ?_
    have hpos := length_pos_iff.mpr hne
    refine (ih (by omega)).bindPure fun as more r'' ⟨has, hend⟩ => ?_
    exact ⟨hcons ha has, hend⟩

theorem gives_many :
    Gives t (many starts item) (many starts item') r fun as ks r' => S as ks ∧
      starts r'.stream.peek = false :=
  .remaining (gives_manyWithin hnil hcons hitem (Nat.le_refl _))

end Many

variable {operator : Kind → Option β} (token : β → Kind) (N : Kind → Prop)
  {S : List (β × α) → List Kind → Prop} (hnil : S [] [])
  (hcons : ∀ {op a rest ks more}, R a ks → S rest more →
    S ((op, a) :: rest) (token op :: (ks ++ more)))
  (htoken : ∀ {kind op}, operator kind = some op → kind = token op ∧ kind.isLexeme)
  (hitem : ∀ r : Reader, Gives t item item' r fun a ks r' => R a ks ∧ N r'.stream.peek)
include hnil hcons htoken hitem

/-- Operands behind operators: `S` holds of none, and of one more operator and operand in front.
`N` is what is known of the token behind an operand. -/
theorem gives_chainWithin {bound : Nat} (hbound : r.stream.size ≤ bound) (hnext : N r.stream.peek) :
    Gives t (chainWithin operator item bound) (chainWithin operator item' bound) r fun rest ks r' =>
      S rest ks ∧ operator r'.stream.peek = none ∧ N r'.stream.peek := by
  induction bound generalizing r with
  | zero => cases hbound
  | succ bound ih =>
    refine .peek ?_
    split
    · rename_i hoperator
      exact .pure ⟨hnil, hoperator, hnext⟩
    · rename_i op hoperator
      obtain ⟨hkind, hlexeme⟩ := htoken hoperator
      refine .advance hkind (hkind ▸ hlexeme) fun r₁ _ hsize => ?_
      refine (hitem r₁).less.bind fun a ks r₂ ⟨ha, hnext⟩ hsize' => ?_
      refine (ih (by omega) hnext).less.bindPure fun rest more r₃ ⟨hrest, hstop⟩ => ?_
      exact ⟨hcons ha hrest, hstop⟩

theorem gives_chain :
    Gives t (chain operator item) (chain operator item') r fun x ks r' =>
      (∃ front back, ks = front ++ back ∧ R x.1 front ∧ S x.2 back) ∧
        operator r'.stream.peek = none ∧ N r'.stream.peek := by
  refine (hitem r).bind fun first front r₁ ⟨hfirst, hnext⟩ _ => .remaining ?_
  refine (gives_chainWithin token N hnil hcons htoken hitem (Nat.le_refl _) hnext).bindPure
    fun rest back r₂ ⟨hrest, hstop⟩ => ?_
  exact ⟨⟨front, back, rfl, hfirst, hrest⟩, hstop⟩

end Repetitions

end Reader

end Offside
