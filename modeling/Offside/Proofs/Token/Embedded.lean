import Offside.Proofs.Token.Spelling
import Offside.Proofs.Token.Words
import Offside.Token.Formatted

/-!
# Tokens in a text

Tokens lie in a text one behind the other, each between two places of the text, and the tokens of an
embedded expression lie within the formatted string around them.  A formatted string is read in
pieces; an embedded expression is cut into tokens where it stands, by a scanner that sees nothing
behind it and enters the identifiers that it meets.
-/

namespace Offside

open List

/-- The tokens of the expression that a fragment embeds. -/
def Fragment.tokens : Fragment → List Token
  | literal _ => []
  | embedded tokens => tokens

/-- The tokens of the expressions that a formatted string embeds, in order. -/
def Kind.embedded : Kind → List Token
  | formatted fragments => fragments.flatMap Fragment.tokens
  | _ => []

theorem Fragment.areLexical_eq (fragments : List Fragment) :
    Fragment.areLexical fragments = Token.areLexical (fragments.flatMap Fragment.tokens) := by
  induction fragments with
  | nil => rfl
  | cons fragment fragments ih =>
    rw [flatMap_cons, Token.areLexical_append, ← ih]
    cases fragment <;> rfl

theorem Fragment.identifiers_eq (fragments : List Fragment) :
    Fragment.identifiers fragments = Token.allIdentifiers (fragments.flatMap Fragment.tokens) := by
  induction fragments with
  | nil => rfl
  | cons fragment fragments ih =>
    rw [flatMap_cons, Token.allIdentifiers_append, ← ih]
    cases fragment <;> rfl

/-- Tokens lie in a source from one offset to another: each starts and stops at a place of the
source and starts no earlier than the one before it stops, and the tokens embedded in it lie within
it. -/
inductive LieIn (source : List Char) : Nat → Nat → List Token → Prop
  | nil {first last : Nat} (h : first ≤ last) : LieIn source first last []
  | cons {first last : Nat} {token : Token} {rest : List Token}
    (hstart : token.span.start.IsPlaceOf source) (hstop : token.span.stop.IsPlaceOf source)
    (hfirst : first ≤ token.span.start.offset.toNat)
    (hembedded : LieIn source token.span.start.offset.toNat token.span.stop.offset.toNat
      token.kind.embedded)
    (hrest : LieIn source token.span.stop.offset.toNat last rest) :
    LieIn source first last (token :: rest)

variable {c next : Cursor} {result : Except LexicalError (List Fragment)} {more text : List Char}
  {entered names : NameTable}

namespace LieIn

variable {source : List Char} {first last : Nat} {tokens : List Token}

theorem from_le (h : LieIn source first last tokens) {earlier : Nat} (hle : earlier ≤ first) :
    LieIn source earlier last tokens := by
  cases h with
  | nil h => exact .nil (Nat.le_trans hle h)
  | cons hstart hstop hfirst hembedded hrest =>
    exact .cons hstart hstop (Nat.le_trans hle hfirst) hembedded hrest

theorem append (h : LieIn source first last tokens) {next final : Nat} {more : List Token}
    (hle : last ≤ next) (hmore : LieIn source next final more) :
    LieIn source first final (tokens ++ more) := by
  induction h with
  | nil h => exact hmore.from_le (Nat.le_trans h hle)
  | cons hstart hstop hfirst hembedded _ _ ih => exact .cons hstart hstop hfirst hembedded (ih hle)

/-- Tokens of a part of a source lie in the source, if no newline sequence reaches out of the part.
-/
theorem extend (h : LieIn source first last tokens) (hmore : more.head? ≠ some '\n') :
    LieIn (source ++ more) first last tokens := by
  induction h with
  | nil h => exact .nil h
  | cons hstart hstop hfirst _ _ ihembedded ihrest =>
    exact .cons (hstart.append hmore) (hstop.append hmore) hfirst ihembedded ihrest

end LieIn

/-- The tokens that come of reading lie in the text that was passed, wherever that text stands in a
source whose offsets do not wrap. -/
def LieInPassed (c : Cursor) (text : List Char) (tokens : List Token) : Prop :=
  ∀ before, c.Follows before → byteLength (before ++ c.rest) < UInt32.size →
    LieIn (before ++ c.rest) (byteLength before) (byteLength (before ++ text)) tokens

theorem lieInPassed_nil (c : Cursor) (text : List Char) : LieInPassed c text [] := by
  intro before _ _
  refine .nil ?_
  rw [byteLength_append]
  exact Nat.le_add_right _ _

/-- What is passed in front of tokens that lie behind it. -/
theorem Cursor.Passes.lieInPassed (h : c.Passes text next) {tokens : List Token}
    (htokens : LieInPassed next more tokens) : LieInPassed c (text ++ more) tokens := by
  intro before hbefore hsize
  rw [h.rest, ← append_assoc] at hsize ⊢
  have hnext := htokens _ (h.follows hbefore) hsize
  rw [← append_assoc]
  refine hnext.from_le ?_
  rw [byteLength_append]
  exact Nat.le_add_right _ _

/-- The tokens that come of reading lie in the text that was passed, the names in them are of their
kinds, and their identifiers are entered. -/
structure Yields (c : Cursor) (names : NameTable) (text : List Char) (tokens : List Token)
    (entered : NameTable) : Prop where
  lie : LieInPassed c text tokens
  lexical : Token.areLexical tokens = true
  entered_eq : entered = names.internAll (Token.allIdentifiers tokens)

theorem yields_nil (c : Cursor) (names : NameTable) (text : List Char) :
    Yields c names text [] names :=
  ⟨lieInPassed_nil c text, rfl, rfl⟩

theorem Cursor.Passes.yields (h : c.Passes text next) {tokens : List Token}
    (htokens : Yields next names more tokens entered) :
    Yields c names (text ++ more) tokens entered :=
  ⟨h.lieInPassed htokens.lie, htokens.lexical, htokens.entered_eq⟩

/-- The scanner of embedded expressions yields tokens of the text that it is given. -/
def EmbeddedScanner.IsSound (nested : EmbeddedScanner) : Prop :=
  ∀ c names tokens, (nested c names).1 = .ok tokens →
    Yields c names c.rest tokens (nested c names).2

/-- An embedded expression holds no newline. -/
theorem isNewline_of_splitEmbedded {mark : Char} {depth : Nat} {quote : Option Char}
    (hquote : ∀ q ∈ quote, isNewline q = false) {inside after : List Char}
    (h : splitEmbedded mark depth quote text = some (inside, after)) :
    ∀ d ∈ inside, isNewline d = false := by
  induction text generalizing depth quote inside with
  | nil => simp [splitEmbedded] at h
  | cons d rest ih =>
    have step {depth : Nat} {quote : Option Char} {f : List Char × List Char →
      List Char × List Char}
        (hf : ∀ t r, f (t, r) = (d :: t, r)) (hquote : ∀ q ∈ quote, isNewline q = false)
        (hd : isNewline d = false)
        (h : (splitEmbedded mark depth quote rest).map f = some (inside, after)) :
        ∀ d ∈ inside, isNewline d = false := by
      obtain ⟨⟨t, r⟩, hs, ht⟩ := Option.map_eq_some_iff.mp h
      rw [hf] at ht
      cases ht
      exact forall_mem_cons.mpr ⟨hd, ih hquote hs⟩
    have hnone : ∀ q ∈ (none : Option Char), isNewline q = false :=
      fun q hq => absurd hq (Option.not_mem_none q)
    cases quote with
    | some q =>
      rw [splitEmbedded] at h
      split at h
      · rename_i hd
        exact step (fun _ _ => rfl) hnone (hd ▸ hquote q rfl) h
      · split at h
        · simp at h
        · rename_i hd
          exact step (fun _ _ => rfl) hquote (Bool.eq_false_iff.mpr hd) h
    | none =>
      rw [splitEmbedded] at h
      split at h
      · simp at h
      · rename_i hd
        have hd : isNewline d = false := Bool.eq_false_iff.mpr fun hnewline => hd (.inl hnewline)
        split at h
        · rw [← (Prod.mk.inj (Option.some.inj h)).1]
          exact forall_mem_nil _
        · split at h
          · exact step (fun _ _ => rfl) (fun q hq => Option.some.inj hq ▸ hd) hd h
          · exact step (fun _ _ => rfl) hnone hd h

theorem tokens_literalFragment (literal : List Char) :
    (literalFragment literal).flatMap Fragment.tokens = [] := by
  unfold literalFragment
  split <;> rfl

/-- A reading of fragments passes a text and yields the tokens that are embedded in it. -/
def ReadsFragments (c : Cursor) (names : NameTable) (result : Except LexicalError (List Fragment))
    (entered : NameTable) (next : Cursor) : Prop :=
  ∃ text, c.Passes text next ∧ ∀ fragments, result = .ok fragments →
    Yields c names text (fragments.flatMap Fragment.tokens) entered

theorem Cursor.Reaches.readsError (h : c.Reaches next) (names entered : NameTable)
    (e : LexicalError) :
    ReadsFragments c names (.error e) entered next := by
  obtain ⟨text, htext⟩ := h
  exact ⟨text, htext, nofun⟩

theorem Cursor.Reaches.readsFragments {mid : Cursor} (h : c.Reaches mid)
    (hmid : ReadsFragments mid names result entered next) :
    ReadsFragments c names result entered next := by
  obtain ⟨text, htext⟩ := h
  obtain ⟨more, hmore, hyields⟩ := hmid
  exact ⟨text ++ more, htext.trans hmore, fun fragments hf => htext.yields (hyields fragments hf)⟩

/-- The tokens of an embedded expression come before those of the fragments behind it. -/
theorem readsFragments_embedded {mid : NameTable} {inside after : List Char} {tokens : List Token}
    (hrest : c.rest = '\x7b' :: (inside ++ '\x7d' :: after))
    (hinside : ∀ d ∈ inside, isNewline d = false)
    (htokens : Yields ⟨inside, c.location.along ['\x7b']⟩ names inside tokens mid)
    (hafter : ReadsFragments
      ⟨after, (c.location.along ['\x7b']).along (inside ++ ['\x7d'])⟩ mid result
      entered next) (literal : List Char) :
    ReadsFragments c names (result.map (literalFragment literal ++ .embedded tokens :: ·))
      entered next := by
  have hbrace : c.Passes ['\x7b'] ⟨inside ++ '\x7d' :: after, c.location.along ['\x7b']⟩ :=
    Cursor.passes_along hrest (forall_mem_singleton.mpr rfl)
  have hclose : Cursor.Passes ⟨inside ++ '\x7d' :: after, c.location.along ['\x7b']⟩
    (inside ++ ['\x7d'])
      ⟨after, (c.location.along ['\x7b']).along (inside ++ ['\x7d'])⟩ := by
    refine Cursor.passes_along (by simp) fun d hd => ?_
    rcases mem_append.mp hd with hd | hd
    · exact hinside d hd
    · rw [mem_singleton.mp hd]
      decide
  obtain ⟨more, hmore, hyields⟩ := hafter
  refine ⟨['\x7b'] ++ (inside ++ ['\x7d'] ++ more), hbrace.trans (hclose.trans hmore), ?_⟩
  intro fragments hfragments
  cases result with
  | error e => cases hfragments
  | ok found =>
    rw [← Except.ok.inj hfragments, flatMap_append, tokens_literalFragment,
      nil_append, flatMap_cons]
    obtain ⟨hlie, hlexical, rfl⟩ := hyields found rfl
    obtain ⟨htokens, hlexical', rfl⟩ := htokens
    refine hbrace.yields ⟨fun before hbefore hsize => ?_, ?_, ?_⟩
    rotate_left
    · rw [Token.areLexical_append, Fragment.tokens, hlexical, hlexical']
      rfl
    · rw [Token.allIdentifiers_append, NameTable.internAll_append]
      rfl
    -- the nested scanner stands at the same place and sees nothing behind the closing brace
    have hinner : Cursor.Follows ⟨inside, c.location.along ['\x7b']⟩ before := by
      refine ⟨hbefore.location, ?_⟩
      rintro ⟨hlast, hhead⟩
      refine hbefore.whole ⟨hlast, ?_⟩
      rw [head?_append, hhead]
      rfl
    have hinside : byteLength (before ++ inside) < UInt32.size := by
      simp only [byteLength_append] at hsize ⊢
      omega
    have hfirst :=
      (htokens before hinner hinside).extend (show ('\x7d' :: after).head? ≠ some '\n' by simp)
    have hrest' := hlie _ (hclose.follows hbefore) (by rwa [append_assoc, ← hclose.rest])
    rw [append_assoc] at hfirst
    rw [append_assoc, ← hclose.rest] at hrest'
    refine hfirst.append ?_ (by simpa only [append_assoc] using hrest')
    simp only [byteLength_append]
    omega

/-- Fragment by fragment, a formatted string passes a text and yields the tokens embedded in it. -/
theorem readsFragments_scanFragments {nested : EmbeddedScanner} (hnested : nested.IsSound)
    (start : Location) (q : Quotes) (names : NameTable) (literal : List Char) (c : Cursor) :
    ReadsFragments c names (scanFragments nested start q names literal c).1
      (scanFragments nested start q names literal c).2.1
      (scanFragments nested start q names literal c).2.2 := by
  fun_induction scanFragments nested start q names literal c with
  | case1 names literal c rest hrest ih | case2 names literal c rest hrest ih =>
    have hbraces :=
      Cursor.passes_along hrest (forall_mem_cons.mpr ⟨rfl, forall_mem_singleton.mpr rfl⟩)
    exact Cursor.Reaches.readsFragments ⟨_, hbraces⟩ ih
  | case3 names literal c rest _ hrest => exact (Cursor.Reaches.refl c).readsError _ _ _
  | case4 names literal c rest _ hrest inner hsplit
  | case5 names literal c rest _ hrest inner inside after hsplit hblank
  | case6 names literal c rest _ hrest inner inside after hsplit hblank e names' hscan =>
    exact Cursor.Reaches.readsError
      ⟨_, Cursor.passes_along hrest (forall_mem_singleton.mpr rfl)⟩ _ _ _
  | case7 names literal c rest _ hrest inner inside after hsplit hblank tokens names'
    hscan result final
      hresult ih =>
    rw [hresult] at ih
    rw [eq_append_of_splitEmbedded hsplit] at hrest
    have htokens := hnested ⟨inside, inner.location⟩ names tokens (by rw [hscan])
    rw [hscan] at htokens
    have hinside := isNewline_of_splitEmbedded (by simp) hsplit
    exact readsFragments_embedded hrest hinside htokens ih literal
  | case8 names literal c next hpiece =>
    have hnext := reaches_scanPiece start q c
    rw [hpiece] at hnext
    obtain ⟨text, htext⟩ := hnext
    refine ⟨text, htext, fun fragments hfragments => ?_⟩
    rw [← Except.ok.inj hfragments, tokens_literalFragment]
    exact yields_nil c names text
  | case9 names literal c e next hpiece =>
    have hnext := reaches_scanPiece start q c
    rw [hpiece] at hnext
    exact hnext.readsError _ _ e
  | case10 names literal c text next hshorter hpiece _ _ _ _ ih =>
    have hnext := reaches_scanPiece start q c
    rw [hpiece] at hnext
    exact hnext.readsFragments ih

/-- A formatted string passes a text and yields the tokens embedded in it. -/
theorem scanFormatted_reads {nested : EmbeddedScanner} (hnested : nested.IsSound) (start : Location)
    (names : NameTable) (c : Cursor) :
    ∃ text, c.Passes text (scanFormatted nested start names c).2.2 ∧
      ∀ kind, (scanFormatted nested start names c).1 = .ok kind →
        (∃ fragments, kind = .formatted fragments) ∧
        Yields c names text kind.embedded (scanFormatted nested start names c).2.1 := by
  have hopen : c.Reaches (Quotes.openAt c).2 := (Cursor.reaches_skip c).trans (reaches_openAt c)
  obtain ⟨text, htext, hyields⟩ := hopen.readsFragments
    (readsFragments_scanFragments hnested start (Quotes.openAt c).1 names [] (Quotes.openAt c).2)
  refine ⟨text, htext, fun kind hkind => ?_⟩
  have hmap : (scanFormatted nested start names c).1 =
      (scanFragments nested start (Quotes.openAt c).1 names [] (Quotes.openAt c).2).1.map
        .formatted := rfl
  rw [hmap] at hkind
  cases hresult :
    (scanFragments nested start (Quotes.openAt c).1 names [] (Quotes.openAt c).2).1 with
  | error e => rw [hresult] at hkind; cases hkind
  | ok fragments =>
    rw [hresult] at hkind
    cases hkind
    exact ⟨⟨fragments, rfl⟩, hyields fragments hresult⟩

end Offside
