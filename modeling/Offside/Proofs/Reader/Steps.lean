import Offside.Proofs.Tree.Render
import Offside.Proofs.Tree.Relocation
import Offside.Reader.Basic

/-!
# Steps of a reader

What a reader does on tokens that are known by their kinds.  `Reads item ts rest a` says that the
step `item` succeeds on the tokens `ts`, that it gives `a`, and that the tokens `rest` are left.
Such facts are put together along the steps of a reader (`Reads.bind`), and there is one for every
way a reader passes a token or repeats a step.

Here tokens have no spans, so neither has what is read from them.
-/

namespace Offside

open List

namespace Reader

/-- A reader stands before tokens of the given kinds.  They have no spans, and the last of them is
the end of input. -/
structure Before (r : Reader) (ts : List Kind) : Prop where
  tokens : r.stream.toList = ts.map fun kind => Token.relocate nowhere ⟨kind, {}⟩
  stop : r.stream.stop = {}
  last : ts.getLast? = some .endOfInput

theorem before_ofTokens (kinds : List Kind) (names : NameTable) :
    Before (ofTokens ((Token.complete kinds).map (Token.relocate nowhere)) names)
      (kinds ++ [.endOfInput]) := by
  rw [Token.complete, map_map, Function.comp_def]
  cases kinds with
  | nil => exact ⟨rfl, rfl, rfl⟩
  | cons first kinds =>
    have hend :
      (((kinds ++ [Kind.endOfInput]).map fun kind => Token.relocate nowhere ⟨kind, {}⟩).getLastD
        (Token.relocate nowhere ⟨first, {}⟩)).kind.isEnd := by
      simp [Token.relocate, Kind.relocate, Kind.isEnd]
    refine ⟨?_, rfl, getLast?_concat⟩
    simp only [ofTokens, cons_append, map_cons, TokenStream.ofTokens, hend, if_true,
      TokenStream.toList]

/-- A reader goes on to where the given tokens are left, and keeps its classes and its blocks. -/
structure Passes (r r' : Reader) (rest : List Kind) : Prop where
  before : r'.Before rest
  registry : r'.registry = r.registry
  blockDepth : r'.blockDepth = r.blockDepth

theorem Passes.trans {r r' r'' : Reader} {mid rest : List Kind} (h : Passes r r' mid)
    (h' : Passes r' r'' rest) : Passes r r'' rest :=
  ⟨h'.before, h'.registry.trans h.registry, h'.blockDepth.trans h.blockDepth⟩

/-- A step succeeds before the given tokens. -/
def Reads {α : Type} (item : Read α) (ts rest : List Kind) (a : α) : Prop :=
  ∀ r : Reader, r.Before ts → ∃ r', item r = .ok a r' ∧ Passes r r' rest

variable {α β : Type} {a : α} {b : β} {k : Kind} {ts mid rest : List Kind}

/-! ## Putting steps together -/

variable {closing : Delimiter} {r : Reader} {expected : String}

/-- A step behind another one starts in the state that the first one ends in. -/
theorem bind_eq_of_ok {x : Read α} {f : α → Read β} {r' : Reader} (h : x r = .ok a r') :
    (x >>= f) r = f a r' := by
  change EStateM.bind x f r = f a r'
  rw [EStateM.bind, h]

theorem Reads.pure : Reads (pure a) ts ts a := fun r hr => ⟨r, rfl, hr, rfl, rfl⟩

theorem Reads.bind {x : Read α} {f : α → Read β} (hx : Reads x ts mid a)
    (hf : Reads (f a) mid rest b) :
    Reads (x >>= f) ts rest b := by
  intro r hr
  obtain ⟨r', hrun, hpasses⟩ := hx r hr
  obtain ⟨r'', hrun', hpasses'⟩ := hf r' hpasses.before
  exact ⟨r'', (bind_eq_of_ok hrun).trans hrun', hpasses.trans hpasses'⟩

theorem Reads.map {x : Read α} (hx : Reads x ts rest a) (f : α → β) :
    Reads (f <$> x) ts rest (f a) := by
  intro r hr
  obtain ⟨r', hrun, hpasses⟩ := hx r hr
  refine ⟨r', ?_, hpasses⟩
  change EStateM.map f x r = _
  rw [EStateM.map, hrun]

/-- A step that is discarded only moves on. -/
theorem Reads.discardBind {x : Read α} {f : Unit → Read β} (hx : Reads x ts mid a)
    (hf : Reads (f ()) mid rest b) : Reads (Functor.discard x >>= f) ts rest b :=
  (hx.map _).bind hf

/-! ## Looking ahead -/

/-- A look at the reader changes nothing. -/
theorem Reads.get {f : Reader → Read β} (h : ∀ r : Reader, r.Before ts → Reads (f r) ts rest b) :
    Reads (MonadState.get >>= f) ts rest b :=
  fun r hr => h r hr r hr

theorem reads_location : Reads Reader.location ts ts {} := by
  intro r hr
  refine ⟨r, congrArg (EStateM.Result.ok · r) ?_, hr, rfl, rfl⟩
  cases ts with
  | nil => cases hr.last
  | cons k ts => exact congrArg (·.span.start) (cons.inj hr.tokens).1

theorem Reads.location {f : Location → Read β} (h : Reads (f {}) ts rest b) :
    Reads (Reader.location >>= f) ts rest b :=
  reads_location.bind h

theorem reads_spanFrom : Reads (Reader.spanFrom {}) ts ts {} := fun r hr =>
  ⟨r, congrArg (fun stop => EStateM.Result.ok (⟨{}, stop⟩ : Span) r) hr.stop, hr, rfl, rfl⟩

theorem Reads.spanFrom {f : Span → Read β} (h : Reads (f {}) ts rest b) :
    Reads (Reader.spanFrom {} >>= f) ts rest b :=
  reads_spanFrom.bind h

theorem size_stream (h : r.Before ts) : r.stream.size = ts.length := by
  have hlength := congrArg length h.tokens
  rwa [length_map] at hlength

theorem reads_remaining : Reads Reader.remaining ts ts ts.length := fun r hr =>
  ⟨r, congrArg (EStateM.Result.ok · r) (size_stream hr), hr, rfl, rfl⟩

theorem Reads.remaining {f : Nat → Read β} (h : Reads (f ts.length) ts rest b) :
    Reads (Reader.remaining >>= f) ts rest b :=
  reads_remaining.bind h

/-- The current token is the first one ahead. -/
theorem peek_of_before (h : r.Before (k :: ts)) : r.stream.peek = k.relocate nowhere :=
  congrArg Token.kind (cons.inj h.tokens).1

theorem reads_peek : Reads Reader.peek (k :: ts) (k :: ts) (k.relocate nowhere) :=
  fun r hr => ⟨r, congrArg (EStateM.Result.ok · r) (peek_of_before hr), hr, rfl, rfl⟩

theorem Reads.peek {f : Kind → Read β} (h : Reads (f (k.relocate nowhere)) (k :: ts) rest b) :
    Reads (Reader.peek >>= f) (k :: ts) rest b :=
  reads_peek.bind h

/-- The first token passes a test. -/
def Heads (test : Kind → Bool) : List Kind → Prop
  | [] => False
  | k :: _ => test (k.relocate nowhere) = true

section Heads

variable {test test' : Kind → Bool}

theorem Heads.cons (h : test (k.relocate nowhere)) : Heads test (k :: ts) := h

theorem Heads.mono (h : Heads test ts) (htest : ∀ kind, test kind → test' kind) :
    Heads test' ts := by
  cases ts with
  | nil => exact h
  | cons k ts => exact htest _ h

theorem Heads.append (h : Heads test ts) (more : List Kind) : Heads test (ts ++ more) := by
  cases ts with
  | nil => cases h
  | cons k ts => exact h

theorem Heads.ne_nil (h : Heads test ts) : ts ≠ [] := by
  rintro rfl
  exact h

/-- A test of the token behind the current one. -/
theorem test_peekAt_one (h : r.Before (k :: ts)) (htest : Heads test ts) :
    test (r.stream.peekAt 1) := by
  obtain ⟨⟨current, upcoming, previous⟩, names, registry, depth, reported⟩ := r
  obtain ⟨-, rfl⟩ := cons.inj h.tokens
  cases ts with
  | nil => cases htest
  | cons next ts => exact htest

/-- The tokens behind an item of a list: a comma, or the delimiter that ends the list. -/
def Ends (closing : Delimiter) (ts : List Kind) : Prop :=
  ∃ more, ts = .delimiter .comma :: more ∨ ts = .delimiter closing :: more

theorem Ends.heads (h : Ends closing ts) (hcomma : test (.delimiter .comma))
    (hclosing : test (.delimiter closing)) : Heads test ts := by
  obtain ⟨more, rfl | rfl⟩ := h
  · exact hcomma
  · exact hclosing

/-- A look at the first token, of which only a test is known. -/
theorem Reads.peekHeads (htest : Heads test ts) {f : Kind → Read β}
    (h : ∀ kind, test kind → Reads (f kind) ts rest b) : Reads (Reader.peek >>= f) ts rest b := by
  cases ts with
  | nil => cases htest
  | cons k ts => exact .peek (h _ htest)

/-- A choice by the first token, which passes the test. -/
theorem Reads.ifHeads (htest : Heads test ts) {x y : Read β} (h : Reads x ts rest b) :
    Reads (Reader.peek >>= fun kind => if test kind = true then x else y) ts rest b := by
  refine .peekHeads htest fun kind hkind => ?_
  rw [if_pos hkind]
  exact h

/-- A choice by the first token, which does not pass the test. -/
theorem Reads.ifNotHeads (htest : Heads (fun kind => !test kind) ts) {x y : Read β}
    (h : Reads y ts rest b) :
    Reads (Reader.peek >>= fun kind => if test kind = true then x else y) ts rest b := by
  refine .peekHeads htest fun kind hkind => ?_
  rw [if_neg (by simpa using hkind)]
  exact h

end Heads

/-! ## Passing tokens -/

/-- A token that is not the end of the input is passed. -/
theorem reads_advance (hk : k ≠ .endOfInput) (ts : List Kind) :
    Reads advance (k :: ts) ts (Token.relocate nowhere ⟨k, {}⟩) := by
  intro r hr
  obtain ⟨⟨current, upcoming, previous⟩, names, registry, depth, reported⟩ := r
  obtain ⟨rfl, rfl⟩ := cons.inj hr.tokens
  have hlast := hr.last
  cases ts with
  | nil => exact absurd (Option.some.inj hlast) hk
  | cons next ts => exact ⟨_, rfl, ⟨rfl, rfl, getLast?_cons_cons.symm.trans hlast⟩, rfl, rfl⟩

/-- A token that is passed without a look at it. -/
theorem Reads.advance (hk : k ≠ .endOfInput) {f : Unit → Read β} (h : Reads (f ()) ts rest b) :
    Reads (Functor.discard Reader.advance >>= f) (k :: ts) rest b :=
  (reads_advance hk ts).discardBind h

theorem reads_expect {accepts : Kind → Bool} (hk : k ≠ .endOfInput)
    (haccepts : accepts (k.relocate nowhere)) (ts : List Kind) :
    Reads (expect accepts expected) (k :: ts) ts (Token.relocate nowhere ⟨k, {}⟩) :=
  .ifHeads (.cons haccepts) (reads_advance hk ts)

theorem reads_expectDelimiter (d : Delimiter) (ts : List Kind) :
    Reads (expectDelimiter d) (.delimiter d :: ts) ts ⟨.delimiter d, {}⟩ :=
  reads_expect (by simp) (by simp [Kind.relocate, Kind.isDelimiter]) ts

theorem reads_expectKeyword (k : Keyword) (ts : List Kind) :
    Reads (expectKeyword k) (.keyword k :: ts) ts ⟨.keyword k, {}⟩ :=
  reads_expect (by simp) (by simp [Kind.relocate, Kind.isKeyword]) ts

/-- A delimiter that is there is passed. -/
theorem reads_eat (d : Delimiter) (ts : List Kind) :
    Reads (eat d) (.delimiter d :: ts) ts true := by
  have hd : (Kind.delimiter d).isDelimiter d := by simp [Kind.isDelimiter]
  exact .ifHeads (.cons hd) (.advance (by simp) .pure)

/-- A delimiter that is not there is not passed. -/
theorem reads_eat_of_heads {d : Delimiter} (h : Heads (fun kind => !kind.isDelimiter d) ts) :
    Reads (eat d) ts ts false :=
  .ifNotHeads h .pure

/-- The end of the input is accepted and stays ahead. -/
theorem reads_expectEnd (expected : String) :
    Reads (expect Kind.isEnd expected) [.endOfInput] [.endOfInput] ⟨.endOfInput, {}⟩ := by
  refine .ifHeads (.cons rfl) fun r hr => ?_
  obtain ⟨⟨current, upcoming, previous⟩, names, registry, depth, reported⟩ := r
  obtain ⟨rfl, rfl⟩ := cons.inj hr.tokens
  exact ⟨_, rfl, hr, rfl, rfl⟩

theorem reads_intern (name : String) (ts : List Kind) : Reads (intern name) ts ts () :=
  fun _ hr => ⟨_, rfl, ⟨hr.tokens, hr.stop, hr.last⟩, rfl, rfl⟩

/-! ## Repetitions

What a repetition reads is known by the lists of tokens of its items.  `Next` says which tokens may
follow an item. -/

section Repetitions

variable {γ : Type} {item : Read α} {f : γ → α} {kinds : γ → List Kind} {Next : List Kind → Prop}

/-- The step reads an item in front of all tokens that may follow it. -/
def ReadsItem (item : Read α) (f : γ → α) (kinds : γ → List Kind) (Next : List Kind → Prop)
    (x : γ) : Prop :=
  ∀ rest, Next rest → Reads item (kinds x ++ rest) rest (f x)

theorem length_le_length_flatMap {xs : List γ} (h : ∀ x ∈ xs, kinds x ≠ []) :
    xs.length ≤ (xs.flatMap kinds).length := by
  induction xs with
  | nil => simp
  | cons x xs ih =>
    have hx := length_pos_iff.mpr (h x (by simp))
    have hxs := ih fun y hy => h y (by simp [hy])
    rw [flatMap_cons, length_append, length_cons]
    omega

section Many

variable {starts : Kind → Bool} {xs : List γ} (hitem : ∀ x ∈ xs, ReadsItem item f kinds Next x)
  (hstart : ∀ x ∈ xs, Heads starts (kinds x)) (hnext : ∀ x ∈ xs, ∀ ts, Next (kinds x ++ ts))
  (hrest : Next rest) (hend : Heads (fun kind => !starts kind) rest)
include hitem hstart hnext hrest hend

/-- Items in a row, one step for each. -/
theorem reads_manyWithin {bound : Nat} (hbound : xs.length ≤ bound) :
    Reads (manyWithin starts item bound) (xs.flatMap kinds ++ rest) rest (xs.map f) := by
  induction xs generalizing bound with
  | nil =>
    cases bound with
    | zero => exact .pure
    | succ bound => exact .ifNotHeads hend .pure
  | cons x xs ih =>
    obtain ⟨bound, rfl⟩ : ∃ n, bound = n + 1 := ⟨bound - 1, by simp at hbound; omega⟩
    have hxs := ih (fun y hy => hitem y (by simp [hy])) (fun y hy => hstart y (by simp [hy]))
      (fun y hy => hnext y (by simp [hy])) (Nat.le_of_succ_le_succ hbound)
    -- what follows the first item is the next item, or the rest
    have hfollow : Next (xs.flatMap kinds ++ rest) := by
      cases xs with
      | nil => exact hrest
      | cons y xs =>
        rw [flatMap_cons, append_assoc]
        exact hnext y (by simp) _
    rw [flatMap_cons, append_assoc]
    refine .ifHeads ((hstart x (by simp)).append _) ?_
    exact (hitem x (by simp) _ hfollow).bind (hxs.bind .pure)

theorem reads_many :
    Reads (many starts item) (xs.flatMap kinds ++ rest) rest (xs.map f) := by
  have hlength := length_le_length_flatMap fun x hx => (hstart x hx).ne_nil
  refine .remaining (reads_manyWithin hitem hstart hnext hrest hend ?_)
  rw [length_append]
  omega

end Many

/-- The tokens of operators and the operands behind them. -/
def behind {β : Type} (token : β → Kind) (kinds : α → List Kind) (xs : List (β × α)) : List Kind :=
  xs.flatMap fun x => token x.1 :: kinds x.2

section Chain

variable (operator : Kind → Option β) (token : β → Kind)
  (htoken : ∀ op, token op ≠ .endOfInput ∧ operator ((token op).relocate nowhere) = some op)
  {xs : List (β × γ)} (hitem : ∀ x ∈ xs, ReadsItem item f kinds Next x.2)
  (hnext : ∀ op ts, Next (token op :: ts)) (hrest : Next rest)
  (hend : Heads (fun kind => (operator kind).isNone) rest)
include htoken hitem hnext hrest hend

/-- Operands behind operators, one step for each. -/
theorem reads_chainWithin {bound : Nat} (hbound : xs.length ≤ bound) :
    Reads (chainWithin operator item bound) (behind token kinds xs ++ rest) rest
      (xs.map (Prod.map id f)) := by
  induction xs generalizing bound with
  | nil =>
    cases bound with
    | zero => exact .pure
    | succ bound =>
      refine .peekHeads hend fun kind hkind => ?_
      rw [Option.isNone_iff_eq_none.mp hkind]
      exact .pure
  | cons x xs ih =>
    obtain ⟨op, e⟩ := x
    obtain ⟨bound, rfl⟩ : ∃ n, bound = n + 1 := ⟨bound - 1, by simp at hbound; omega⟩
    have hxs := ih (fun y hy => hitem y (by simp [hy])) (Nat.le_of_succ_le_succ hbound)
    have hfollow : Next (behind token kinds xs ++ rest) := by
      cases xs with
      | nil => exact hrest
      | cons y xs => exact hnext y.1 _
    obtain ⟨hinput, hop⟩ := htoken op
    have htokens : behind token kinds ((op, e) :: xs) ++ rest =
        token op :: (kinds e ++ (behind token kinds xs ++ rest)) := by
      simp [behind]
    rw [htokens]
    refine .peek ?_
    rw [hop]
    exact .advance hinput ((hitem (op, e) (by simp) _ hfollow).bind (hxs.bind .pure))

/-- An operand, and further operands behind operators. -/
theorem reads_chain {first : γ} (hfirst : ReadsItem item f kinds Next first) :
    Reads (chain operator item) (kinds first ++ (behind token kinds xs ++ rest)) rest
      (f first, xs.map (Prod.map id f)) := by
  have hfollow : Next (behind token kinds xs ++ rest) := by
    cases xs with
    | nil => exact hrest
    | cons y xs => exact hnext y.1 _
  have hlength : xs.length ≤ (behind token kinds xs ++ rest).length := by
    have hflat : xs.length ≤ (xs.flatMap fun x => token x.1 :: kinds x.2).length :=
      length_le_length_flatMap (by simp)
    rw [length_append, behind]
    omega
  refine (hfirst _ hfollow).bind (.remaining ?_)
  exact (reads_chainWithin operator token htoken hitem hnext hrest hend hlength).bind .pure

end Chain

/-- Lists of tokens with commas between them are the first one and further ones behind commas. -/
theorem withCommas_cons (x : γ) (xs : List γ) :
    withCommas ((x :: xs).map kinds) =
      kinds x ++ behind (fun _ : Unit => .delimiter .comma) kinds (xs.map fun y => ((), y)) := by
  induction xs generalizing x with
  | nil => simp [withCommas, behind]
  | cons y xs ih =>
    rw [map_cons, map_cons, withCommas, ← map_cons, ih y]
    · simp [behind]
    · simp

theorem sublist_withCommas {ks : List Kind} {lists : List (List Kind)} (h : ks ∈ lists) :
    ks.Sublist (withCommas lists) := by
  induction lists with
  | nil => cases h
  | cons first lists ih =>
    cases lists with
    | nil =>
      rw [mem_singleton.mp h]
      exact List.Sublist.refl first
    | cons second lists =>
      rw [withCommas]
      · rcases mem_cons.mp h with rfl | hmem
        · exact sublist_append_left _ _
        · exact ((ih hmem).cons _).trans (sublist_append_right _ _)
      · exact cons_ne_nil _ _

theorem isNone_separator (is : Kind → Bool) (kind : Kind) :
    (separator is kind).isNone = !is kind := by
  unfold separator
  cases is kind <;> rfl

/-- Items with commas between them. -/
theorem reads_commaSeparated {xs : List γ} (hne : xs ≠ [])
    (hitem : ∀ x ∈ xs, ReadsItem item f kinds Next x) (hnext : ∀ ts, Next (.delimiter .comma :: ts))
    (hrest : Next rest) (hend : Heads (fun kind => !kind.isDelimiter .comma) rest) :
    Reads (commaSeparated item) (withCommas (xs.map kinds) ++ rest) rest (xs.map f) := by
  cases xs with
  | nil => exact absurd rfl hne
  | cons x xs =>
    rw [withCommas_cons, append_assoc]
    have hmem : ∀ y ∈ xs.map fun y => ((), y), ReadsItem item f kinds Next y.2 := by
      intro y hy
      obtain ⟨z, hz, rfl⟩ := mem_map.mp hy
      exact hitem z (by simp [hz])
    have hnone : Heads (fun kind => (separator (·.isDelimiter .comma) kind).isNone) rest := by
      simpa only [isNone_separator] using hend
    have hchain := reads_chain (separator (·.isDelimiter .comma)) (fun _ => .delimiter .comma)
      (fun _ => ⟨by simp, rfl⟩) hmem (fun _ => hnext) hrest hnone (hitem x (by simp))
    have hmap : f x :: ((xs.map fun y => ((), y)).map (Prod.map id f)).map Prod.snd =
        (x :: xs).map f := by
      simp [Function.comp_def]
    rw [← hmap]
    exact hchain.bind .pure

theorem length_le_length_withCommas {xs : List γ} (h : ∀ x ∈ xs, kinds x ≠ []) :
    xs.length ≤ (withCommas (xs.map kinds)).length := by
  cases xs with
  | nil => simp
  | cons x xs =>
    have hx := length_pos_iff.mpr (h x (by simp))
    have hflat : (xs.map fun y => ((), y)).length ≤
        (behind (fun _ : Unit => .delimiter .comma) kinds (xs.map fun y => ((), y))).length :=
      length_le_length_flatMap (by simp)
    rw [withCommas_cons, length_append, length_cons]
    rw [length_map] at hflat
    omega

variable (hclosing : closing ≠ .comma) {xs : List γ}
  (hitem : ∀ x ∈ xs, ReadsItem item f kinds Next x)
  (hstart : ∀ x ∈ xs, Heads (fun kind => !kind.isDelimiter closing) (kinds x))
  (hcomma : ∀ ts, Next (.delimiter .comma :: ts)) (hnext : ∀ ts, Next (.delimiter closing :: ts))
include hclosing hitem hstart hcomma hnext

/-- Items and commas up to a closing bracket. -/
theorem reads_itemsWithin {bound : Nat} (hbound : xs.length ≤ bound) :
    Reads (itemsWithin closing expected item bound)
      (withCommas (xs.map kinds) ++ .delimiter closing :: rest) (.delimiter closing :: rest)
        (xs.map f) := by
  have hclose : Heads (·.isDelimiter closing) (.delimiter closing :: rest) := by
    simp [Heads, Kind.relocate, Kind.isDelimiter]
  have hnoComma : Heads (fun kind => !kind.isDelimiter .comma) (.delimiter closing :: rest) := by
    simpa [Heads, Kind.relocate, Kind.isDelimiter] using hclosing
  induction xs generalizing bound with
  | nil =>
    cases bound with
    | zero => exact .pure
    | succ bound => exact .ifHeads hclose .pure
  | cons x xs ih =>
    obtain ⟨bound, rfl⟩ : ∃ n, bound = n + 1 := ⟨bound - 1, by simp at hbound; omega⟩
    have hx := hitem x (by simp)
    cases xs with
    | nil =>
      refine .ifNotHeads ((hstart x (by simp)).append _) ?_
      exact (hx _ (hnext rest)).bind ((reads_eat_of_heads hnoComma).bind (.ifHeads hclose .pure))
    | cons y xs =>
      have hxs := ih (fun z hz => hitem z (by simp [hz])) (fun z hz => hstart z (by simp [hz]))
        (Nat.le_of_succ_le_succ hbound)
      have htokens : withCommas ((x :: y :: xs).map kinds) ++ .delimiter closing :: rest =
          kinds x ++ .delimiter .comma :: (withCommas ((y :: xs).map kinds) ++
            .delimiter closing :: rest) := by
        simp [withCommas]
      rw [htokens]
      refine .ifNotHeads ((hstart x (by simp)).append _) ?_
      exact (hx _ (hcomma _)).bind ((reads_eat .comma _).bind (hxs.bind .pure))

/-- Items between brackets, with commas between them. -/
theorem reads_bracketed {opening : Delimiter} :
    Reads (bracketed opening closing expected item)
      (.delimiter opening :: (withCommas (xs.map kinds) ++ .delimiter closing :: rest)) rest
        (xs.map f) := by
  refine (reads_expectDelimiter opening _).discardBind (.remaining ?_)
  have hlength := length_le_length_withCommas fun x hx => (hstart x hx).ne_nil
  refine (reads_itemsWithin hclosing hitem hstart hcomma hnext ?_).bind ?_
  · rw [length_append]
    omega
  · exact (reads_expectDelimiter closing _).discardBind .pure

end Repetitions

end Reader

end Offside
