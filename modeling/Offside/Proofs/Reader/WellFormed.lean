import Offside.Proofs.Reader.Rendered
import Offside.Proofs.Token.Runs

/-!
# Expressions that are read are well-formed

Tokens whose names are of their kinds render well-formed expressions only
(`Expression.Renders.isWellFormed`), and an expression is read from a rendering of it.  So a reader
that passes such tokens gives a well-formed expression, and such tokens are left behind it.
Whatever the tokens are, it leaves the classes and the blocks around alone (`Builds`).  It passes no
indent, so the blocks without statements among the tokens are left too (`IsHollow`).
-/

namespace Offside

open List

variable {expected name : String}

/-! ## Names -/

theorem isPlainName_of_identifier (h : (Kind.identifier name).isLexical) :
    isPlainName name :=
  (Bool.and_eq_true_iff.mp h).1

theorem isPlainName_of_function (h : (Kind.function name).isLexical) :
    isPlainName name :=
  isPlainName_of_mem_knownFunctions (contains_iff_mem.mp h)

theorem Kind.Spells.isPlainName {k : Kind} (h : k.Spells name) (hk : k.isLexical) :
    isPlainName name := by
  cases h with
  | identifier => exact isPlainName_of_identifier hk
  | function => exact isPlainName_of_function hk

/-- A name that would be taken for the function of a call is not followed by one. -/
theorem takesCall_eq_false {atom : Atom} {trailers : List Trailer} {ks more : List Kind}
    (hatom : atom.Renders ks) (hks : ks.all Kind.isLexical)
    (htrailers : Trailer.AllRender trailers more)
    (hcall : Kind.areCallWord ks → more.head? ≠ some (.delimiter .parenOpen)) :
    takesCall atom trailers = false := by
  fun_cases takesCall atom trailers with
  | case1 name arguments rest =>
    have hparen : more.head? = some (.delimiter .parenOpen) := by
      cases htrailers with
      | cons hcalled hrest =>
        cases hcalled with
        | call harguments =>
          cases harguments
          rfl
    have hword := mt hcall (not_not_intro hparen)
    cases hatom with
    | name hk =>
      cases hk with
      | identifier =>
        rw [all_cons, Bool.and_eq_true, Kind.isLexical, Bool.and_eq_true, Bool.not_eq_true'] at hks
        rw [isCallWord, hks.1.2, Bool.or_false]
        exact Bool.eq_false_iff.mpr hword
      | function => exact absurd rfl hword
  | case2 => rfl

/-! ## Lists of well-formed trees -/

theorem Slice.areWellFormed_cons (s : Slice) (slices : List Slice) :
    Slice.areWellFormed (s :: slices) =
      (Slice.areWellFormed [s] && Slice.areWellFormed slices) := by
  cases s <;> simp [Slice.areWellFormed]

theorem Trailer.areWellFormed_cons (t : Trailer) (trailers : List Trailer) :
    Trailer.areWellFormed (t :: trailers) =
      (Trailer.areWellFormed [t] && Trailer.areWellFormed trailers) := by
  cases t <;> simp [Trailer.areWellFormed]

theorem Trailer.areWellFormed_iff {trailers : List Trailer} :
    Trailer.areWellFormed trailers ↔ ∀ t ∈ trailers, Trailer.areWellFormed [t] :=
  test_iff_of_cons rfl fun _ _ => by rw [Trailer.areWellFormed_cons, Bool.and_eq_true]

/-! ## Renderings -/

mutual

/-- What renders as lexical tokens is well-formed. -/
theorem Expr.Renders.isWellFormed :
    ∀ {e : Expr} {ks : List Kind}, e.Renders ks → ks.all Kind.isLexical →
    e.isWellFormed
  | _, _, .or hlevel hfirst hne hrest, h | _, _, .and hlevel hfirst hne hrest, h => by
    rw [all_append, Bool.and_eq_true] at h
    have hall := Expr.areWellFormed_iff.mpr (forall_mem_map.mp (hrest.areWellFormed h.2))
    simp [Expr.isWellFormed, hlevel, hfirst.isWellFormed h.1, hne, hall]
  | _, _, .not hlevel hoperand, h | _, _, .sign hlevel hoperand, h =>
    Bool.and_eq_true_iff.mpr ⟨decide_eq_true hlevel, hoperand.isWellFormed h⟩
  | _, _, .compare hlevel hfirst hne hrest, h => by
    rw [all_append, Bool.and_eq_true] at h
    have hall := Expr.comparedWellFormed_iff.mpr (hrest.areWellFormed h.2)
    simp [Expr.isWellFormed, hlevel, hfirst.isWellFormed h.1, hne, hall]
  | _, _, .sum hlevel hfirst hne hrest, h => by
    rw [all_append, Bool.and_eq_true] at h
    have hall := Expr.addedWellFormed_iff.mpr (hrest.areWellFormed h.2)
    simp [Expr.isWellFormed, hlevel, hfirst.isWellFormed h.1, hne, hall]
  | _, _, .product hlevel hfirst hne hrest, h => by
    rw [all_append, Bool.and_eq_true] at h
    have hall := Expr.multipliedWellFormed_iff.mpr (hrest.areWellFormed h.2)
    simp [Expr.isWellFormed, hlevel, hfirst.isWellFormed h.1, hne, hall]
  | _, _, .power hbase hlevel hexponent, h => by
    rw [all_append, Bool.and_eq_true] at h
    have hright := hexponent.isWellFormed h.2
    simp [Expr.isWellFormed, hbase.isWellFormed h.1, hlevel, hright]
  | _, _, .primary hoperand, h => hoperand.isWellFormed h

theorem Expr.Chains.areWellFormed :
    ∀ {β : Type} {level : Nat} {token : β → Kind} {rest : List (β × Expr)}
    {ks : List Kind}, Expr.Chains level token rest ks → ks.all Kind.isLexical →
    ∀ x ∈ rest, level ≤ x.2.rank ∧ x.2.isWellFormed
  | _, _, _, _, _, .nil, _ => forall_mem_nil _
  | _, _, _, _, _, .cons hlevel he hrest, h => by
    rw [all_cons, all_append, Bool.and_eq_true, Bool.and_eq_true] at h
    exact forall_mem_cons.mpr ⟨⟨hlevel, he.isWellFormed h.2.1⟩, hrest.areWellFormed h.2.2⟩

theorem Expression.Renders.isWellFormed : ∀ {e : Expression} {ks : List Kind}, e.Renders ks →
    ks.all Kind.isLexical → e.isWellFormed
  | _, _, .mk htree, h => htree.isWellFormed h

theorem Expression.MayRender.isWellFormed :
    ∀ {e : Option Expression} {ks : List Kind}, Expression.MayRender e ks →
    ks.all Kind.isLexical → Expression.isWellFormed? e
  | _, _, .none, _ => rfl
  | _, _, .some he, h => he.isWellFormed h

theorem Expression.Items.areWellFormed :
    ∀ {es : List Expression} {ks : List Kind}, Expression.Items es ks →
    ks.all Kind.isLexical → Expression.areWellFormed es
  | _, _, .nil, _ => rfl
  | _, _, .last he, h => Bool.and_eq_true_iff.mpr ⟨he.isWellFormed h, rfl⟩
  | _, _, .cons he hrest, h => by
    rw [all_append, Bool.and_eq_true] at h
    exact Bool.and_eq_true_iff.mpr ⟨he.isWellFormed h.1, hrest.areWellFormed h.2⟩

theorem Primary.Renders.isWellFormed : ∀ {p : Primary} {ks : List Kind}, p.Renders ks →
    ks.all Kind.isLexical → p.isWellFormed
  | _, _, .mk hatom htrailers hcall, h => by
    rw [all_append, Bool.and_eq_true] at h
    have htakes := takesCall_eq_false hatom h.1 htrailers hcall
    simp [Primary.isWellFormed, hatom.isWellFormed h.1, htrailers.areWellFormed h.2, htakes]

theorem Atom.Renders.isWellFormed : ∀ {atom : Atom} {ks : List Kind}, atom.Renders ks →
    ks.all Kind.isLexical → atom.isWellFormed
  | _, _, .name hk, h => hk.isPlainName (Bool.and_eq_true_iff.mp h).1
  | _, _, .boolean _, _ | _, _, .none, _ | _, _, .integer _, _ | _, _, .float _, _ | _, _,
    .str _, _ => rfl
  | _, _, .formatted hparts, h => hparts.areWellFormed (Bool.and_eq_true_iff.mp h).1
  | _, _, .group hinner, h => by
    rw [all_cons, all_append, Bool.and_eq_true, Bool.and_eq_true] at h
    exact hinner.isWellFormed h.2.1
  | _, _, .list helements, h => by
    rw [all_cons, all_append, Bool.and_eq_true, Bool.and_eq_true] at h
    exact helements.areWellFormed h.2.1
  | _, _, .library hk harguments, h => by
    simp only [all_cons, Bool.and_eq_true] at h
    exact Bool.and_eq_true_iff.mpr ⟨hk.isPlainName h.2.2.1, harguments.isWellFormed h.2.2.2⟩
  | _, _, .builtin harguments, h => by
    obtain ⟨hname, h⟩ := Bool.and_eq_true_iff.mp h
    exact Bool.and_eq_true_iff.mpr
      ⟨hname, Bool.and_eq_true_iff.mpr ⟨isPlainName_of_function hname, harguments.isWellFormed h⟩⟩
  | _, _, .super hcall, h => hcall.isWellFormed h

theorem FormattedPart.AllRender.areWellFormed :
    ∀ {parts : List FormattedPart} {fragments : List Fragment},
    FormattedPart.AllRender parts fragments → Fragment.areLexical fragments →
    FormattedPart.areWellFormed parts
  | _, _, .nil, _ => rfl
  | _, _, .literal hrest, h => hrest.areWellFormed h
  | _, _, .embedded he hrest, h => by
    obtain ⟨htokens, h⟩ := Bool.and_eq_true_iff.mp h
    have hall := Token.areLexical_iff.mp htokens
    refine Bool.and_eq_true_iff.mpr ⟨he.isWellFormed (all_eq_true.mpr ?_), hrest.areWellFormed h⟩
    exact forall_mem_map.mpr fun t ht => hall t (takeWhile_subset _ ht)

theorem Trailer.Renders.isWellFormed : ∀ {t : Trailer} {ks : List Kind}, t.Renders ks →
    ks.all Kind.isLexical → Trailer.areWellFormed [t]
  | _, _, .member hk, h => by
    simp only [all_cons, Bool.and_eq_true] at h
    exact Bool.and_eq_true_iff.mpr ⟨hk.isPlainName h.2.1, rfl⟩
  | _, _, .call harguments, h => Bool.and_eq_true_iff.mpr ⟨harguments.isWellFormed h, rfl⟩
  | _, _, .subscript hslices, h => by
    rw [all_cons, all_append, Bool.and_eq_true, Bool.and_eq_true] at h
    have hslices := hslices.areWellFormed h.2.1
    simp [Trailer.areWellFormed, hslices]

theorem Trailer.AllRender.areWellFormed : ∀ {trailers : List Trailer} {ks : List Kind},
    Trailer.AllRender trailers ks → ks.all Kind.isLexical → Trailer.areWellFormed trailers
  | _, _, .nil, _ => rfl
  | _, _, .cons ht hrest, h => by
    rw [all_append, Bool.and_eq_true] at h
    rw [Trailer.areWellFormed_cons, ht.isWellFormed h.1, hrest.areWellFormed h.2]
    rfl

theorem Slice.Renders.isWellFormed : ∀ {s : Slice} {ks : List Kind}, s.Renders ks →
    ks.all Kind.isLexical → Slice.areWellFormed [s]
  | _, _, .index he, h => Bool.and_eq_true_iff.mpr ⟨he.isWellFormed h, rfl⟩
  | _, _, .short hlower hupper, h => by
    rw [all_append, all_cons, Bool.and_eq_true, Bool.and_eq_true] at h
    simp [Slice.areWellFormed, hlower.isWellFormed h.1, hupper.isWellFormed h.2.2,
      Expression.isWellFormed?]
  | _, _, .long hlower hupper hstep, h => by
    simp only [all_append, all_cons, Bool.and_eq_true] at h
    simp [Slice.areWellFormed, hlower.isWellFormed h.1, hupper.isWellFormed h.2.2.1,
      hstep.isWellFormed h.2.2.2.2]

theorem Slice.Items.areWellFormed :
    ∀ {slices : List Slice} {ks : List Kind}, Slice.Items slices ks →
    ks.all Kind.isLexical → slices.isEmpty = false ∧ Slice.areWellFormed slices
  | _, _, .last hs, h => ⟨rfl, hs.isWellFormed h⟩
  | _, _, .cons hs hrest, h => by
    rw [all_append, Bool.and_eq_true] at h
    rw [Slice.areWellFormed_cons, hs.isWellFormed h.1, (hrest.areWellFormed h.2).2]
    exact ⟨rfl, rfl⟩

theorem Arguments.Renders.isWellFormed :
    ∀ {arguments : Arguments} {ks : List Kind}, arguments.Renders ks →
    ks.all Kind.isLexical → arguments.isWellFormed
  | _, _, .mk hvalues, h => by
    rw [all_cons, all_append, Bool.and_eq_true, Bool.and_eq_true] at h
    exact hvalues.areWellFormed h.2.1

theorem SuperCall.Renders.isWellFormed : ∀ {call : SuperCall} {ks : List Kind}, call.Renders ks →
    ks.all Kind.isLexical → call.isWellFormed
  | _, _, .mk hnames hk harguments, h => by
    simp only [all_cons, all_append, Bool.and_eq_true] at h
    obtain ⟨-, -, hsuperclass, -, -, hmethod, hvalues⟩ := h
    have hsuperclass := hnames.isPlainName hsuperclass
    simp [SuperCall.isWellFormed, hsuperclass, hk.isPlainName hmethod,
      harguments.isWellFormed hvalues]

theorem SuperCall.Names.isPlainName : ∀ {superclass : Option String} {ks : List Kind},
    SuperCall.Names superclass ks → ks.all Kind.isLexical → superclass.all isPlainName
  | _, _, .none, _ => rfl
  | _, _, .named hk, h | _, _, .dropped hk _, h => hk.isPlainName (Bool.and_eq_true_iff.mp h).1

end

namespace Reader

/-! ## Steps -/

/-- An indent stands directly before a dedent: a block without statements starts there. -/
def HasHollow (kinds : List Kind) : Prop := [Kind.indent, .dedent] <:+: kinds

/-- A block without statements is among the tokens that are left. -/
def IsHollow (r : Reader) : Prop := HasHollow (r.stream.toList.map Token.kind)

theorem hasHollow_append_iff {passed kinds : List Kind}
    (h : ∀ kind ∈ passed, kind.isIndent = false) :
    HasHollow (passed ++ kinds) ↔ HasHollow kinds := by
  induction passed with
  | nil => exact Iff.rfl
  | cons kind passed ih =>
    obtain ⟨hkind, hpassed⟩ := forall_mem_cons.mp h
    rw [← ih hpassed, HasHollow, cons_append, infix_cons_iff]
    refine or_iff_right fun hprefix => ?_
    rw [← (cons_prefix_cons.mp hprefix).1] at hkind
    cases hkind

/-- Between two states no class is met and as many blocks are around.  At least `n` tokens are
passed, and a block without statements is among them or not, as `E` tells. -/
structure Keeps (E : Prop) (n : Nat) (r r' : Reader) : Prop where
  registry : r'.registry = r.registry
  blockDepth : r'.blockDepth = r.blockDepth
  passes : ∃ passed : List Token, r.stream.toList = passed ++ r'.stream.toList ∧ n ≤ passed.length ∧
    (r.IsHollow ↔ E ∨ r'.IsHollow)

section Keeps

variable {E E' : Prop} {n m : Nat} {r mid r' : Reader}

theorem Keeps.refl (r : Reader) : Keeps False 0 r r :=
  ⟨rfl, rfl, [], rfl, Nat.le_refl 0, (or_iff_right id).symm⟩

theorem Keeps.trans (h : Keeps E n r mid) (h' : Keeps E' m mid r') :
    Keeps (E ∨ E') (n + m) r r' := by
  obtain ⟨passed, hpassed, hn, hhollow⟩ := h.passes
  obtain ⟨more, hmore, hm, hhollow'⟩ := h'.passes
  refine ⟨h'.registry.trans h.registry, h'.blockDepth.trans h.blockDepth, passed ++
    more, ?_, ?_, ?_⟩
  · rw [hpassed, hmore, append_assoc]
  · rw [length_append]
    exact Nat.add_le_add hn hm
  · rw [hhollow, hhollow', or_assoc]

theorem Keeps.imp (h : Keeps E n r r') (hE : E' ↔ E) (hm : m ≤ n) : Keeps E' m r r' := by
  obtain ⟨passed, hpassed, hn, hhollow⟩ := h.passes
  exact ⟨h.registry, h.blockDepth, passed, hpassed, Nat.le_trans hm hn, by rw [hhollow, hE]⟩

/-- Behind a step that passes no block. -/
theorem Keeps.behind (h' : Keeps E n mid r') (h : Keeps False m r mid) : Keeps E n r r' :=
  (h.trans h').imp (or_iff_right id).symm (Nat.le_add_left n m)

/-- A token that is neither an indent nor the end of input is passed. -/
theorem keeps_advance (hr : r.stream.IsEnded) (hindent : r.stream.peek.isIndent = false)
    (hend : r.stream.peek.isEnd = false) :
    Keeps False 1 r { r with stream := r.stream.advance } := by
  have hpassed := TokenStream.toList_advance hr hend
  refine ⟨rfl, rfl, [r.stream.current], hpassed, Nat.le_refl 1, ?_⟩
  rw [or_iff_right id, IsHollow, hpassed]
  exact hasHollow_append_iff (forall_mem_singleton.mpr hindent)

end Keeps

/-- Two steps do the same from every reader that is left with what is asked, and that may have a
property `G`.  If they succeed, they read on, and `R` relates the states around them and the result.
-/
def Relates (t : Terms) {α : Type} (R : Reader → α → Reader → Prop) (x : Read α) (y : Read α := x)
    (G : Reader → Prop := fun _ => True) : Prop :=
  ∀ r, G r → Fits t r.stream →
    Same t.named (fun a r' => r'.stream.toList <:+ r.stream.toList ∧ R r a r') (x r) (y r)

/-- A step that succeeds leaves the classes and the blocks around alone, and its result has the
property.  At least `n` tokens are passed, and the result tells whether a block without statements
is among them. -/
abbrev Forms (t : Terms) {α : Type} (E : α → Prop) (n : Nat) (P : α → Prop) (x : Read α)
    (y : Read α := x) (G : Reader → Prop := fun _ => True) : Prop :=
      Relates t (fun r a r' => Keeps (E a) n r r' ∧ P a) x y G

/-- A step that passes no block. -/
abbrev Builds (t : Terms) {α : Type} (P : α → Prop) (x : Read α) (y : Read α := x) : Prop :=
  Forms t (fun _ => False) 0 P x y

section Steps

variable {t : Terms} {α β : Type} {P : α → Prop} {Q : β → Prop} {R : Reader → α → Reader → Prop}
  {S : Reader → β → Reader → Prop} {E : β → Prop} {n : Nat} {x y : Read α} {f g : α → Read β}
  {G : Reader → Prop}

theorem relates_pure {a : α} (h : ∀ r, R r a r) : Relates t R (pure a) :=
  fun r _ _ => .ok ⟨suffix_refl _, h r⟩

theorem builds_pure {a : α} (h : P a) : Builds t P (pure a) := relates_pure fun r => ⟨.refl r, h⟩

theorem relates_throw {e : ReadError} (h : e.IsShown t.named) : Relates t R (throw e) :=
  fun _ _ _ => .error h

theorem relates_unexpected (h : Target.isPrintable expected) :
    Relates t R (unexpected expected) (G := G) := fun _ _ hr => same_unexpected h hr

/-- Steps in a row, where what the second one does may depend on the result of the first one. -/
theorem Relates.bind {S : α → Reader → β → Reader → Prop} {T : Reader → β → Reader → Prop}
    (hx : Relates t R x y G) (hf : ∀ {r a mid}, R r a mid → Relates t (S a) (f a) (g a))
    (hT : ∀ {r a mid b r'}, R r a mid → S a mid b r' → T r b r') :
    Relates t T (x >>= f) (y >>= g) G := by
  refine fun r hG hr => (hx r hG hr).bind fun a mid ⟨hmid, ha⟩ => ?_
  refine ((hf ha) mid trivial (hr.of_append hmid.choose_spec.symm)).imp fun b r' ⟨hr', hb⟩ => ?_
  exact ⟨hr'.trans hmid, hT ha hb⟩

/-- Behind a step that never succeeds. -/
theorem Relates.refused (hx : Relates t (fun _ _ _ => False) x y G) :
    Relates t S (x >>= f) (y >>= g) G :=
  hx.bind (S := fun _ => S) False.elim fun h => h.elim

theorem Relates.imp {R' : Reader → α → Reader → Prop} (hx : Relates t R x y G)
    (h : ∀ {r a r'}, R r a r' → R' r a r') : Relates t R' x y G :=
  fun r hG hr => (hx r hG hr).imp fun _ _ ha => ⟨ha.1, h ha.2⟩

theorem Relates.map {f : α → β} (hx : Relates t R x y G)
    (hf : ∀ {r a r'}, R r a r' → S r (f a) r') :
    Relates t S (f <$> x) (f <$> y) G :=
      fun r hG hr => (hx r hG hr).map fun _ _ ha => ⟨ha.1, hf ha.2⟩

theorem Relates.guarded {R' : Reader → α → Reader → Prop} (hx : Relates t R x y)
    (h : ∀ {r a r'}, G r → R r a r' → R' r a r') : Relates t R' x y G :=
  fun r hG hr => (hx r trivial hr).imp fun _ _ ha => ⟨ha.1, h hG ha.2⟩

theorem Relates.whatever (hx : Relates t R x y) : Relates t R x y G := hx.guarded fun _ h => h

/-- Fewer tokens are left. -/
theorem Relates.mono (hx : Relates t R x y G) {m : Nat} (hm : m ≤ t.bound) :
    Relates { t with bound := m } R x y G :=
  fun r hG hr => hx r hG ⟨hr.ended, hr.named, Nat.le_trans hr.bounded hm⟩

theorem Builds.lower (hx : Builds t P x y) : Builds t.lower P x y :=
  Relates.mono hx (Nat.sub_le _ _)

/-- What holds from the state behind a step holds from the state before it, if it does not depend on
what the step changes. -/
theorem Builds.relates (hS : ∀ {r mid b r'}, Keeps False 0 r mid → S mid b r' → S r b r')
    (hx : Builds t P x y) (hf : ∀ a, P a → Relates t S (f a) (g a)) :
    Relates t S (x >>= f) (y >>= g) :=
  Relates.bind hx (fun h => hf _ h.2) fun h h' => hS h.1 h'

theorem Builds.bind (hx : Builds t P x y) (hf : ∀ a, P a → Forms t E n Q (f a) (g a)) :
    Forms t E n Q (x >>= f) (y >>= g) :=
  hx.relates (fun hkeeps h => ⟨h.1.behind hkeeps, h.2⟩) hf

/-- The blocks of the result are those of both steps. -/
theorem Forms.bind {E : α → Prop} {D E' : β → Prop} (hx : Forms t E n P x y)
    (hf : ∀ a, P a → Forms t D 0 (fun b => Q b ∧ (E' b ↔ E a ∨ D b)) (f a) (g a)) :
    Forms t E' n Q (x >>= f) (y >>= g) :=
  Relates.bind hx (fun h => hf _ h.2) fun h h' =>
    ⟨(h.1.trans h'.1).imp h'.2.2 (Nat.le_refl n), h'.2.1⟩

theorem Forms.andThen {E : α → Prop} {E' : β → Prop} (hx : Forms t E n P x y)
    (hf : ∀ a, P a → Builds t (fun b => Q b ∧ (E' b ↔ E a)) (f a) (g a)) :
    Forms t E' n Q (x >>= f) (y >>= g) :=
  hx.bind fun a ha => (hf a ha).imp fun h => ⟨h.1, h.2.1, by rw [h.2.2, or_false]⟩

theorem Builds.map {f : α → β} (hx : Builds t P x y) (hf : ∀ a, P a → Q (f a)) :
    Builds t Q (f <$> x) (f <$> y) :=
  Relates.map hx fun h => ⟨h.1, hf _ h.2⟩

theorem Builds.imp {P' : α → Prop} (hx : Builds t P x y) (h : ∀ a, P a → P' a) : Builds t P' x y :=
  Relates.imp hx fun hrun => ⟨hrun.1, h _ hrun.2⟩

theorem Relates.ite {p : Prop} [Decidable p] {x' y' : Read α} (hx : p → Relates t R x y G)
    (hy : ¬p → Relates t R x' y' G) :
    Relates t R (if p then x else x') (if p then y else y') G := by
  by_cases hp : p
  · rw [if_pos hp, if_pos hp]
    exact hx hp
  · rw [if_neg hp, if_neg hp]
    exact hy hp

/-- A look at the reader changes nothing. -/
theorem builds_look (look : Reader → α) : Builds t (fun _ => True) (do return look (← get)) :=
  fun r _ _ => .ok ⟨suffix_refl _, .refl r, trivial⟩

theorem relates_pure_bind {a : α} (hf : Relates t S (f a) (g a) G) :
    Relates t S (pure a >>= f) (pure a >>= g) G := hf

/-- Behind a step whose result does not matter. -/
theorem Builds.andThen (hx : Builds t P x y) (hf : ∀ a, Forms t E n Q (f a) (g a)) :
    Forms t E n Q (x >>= f) (y >>= g) :=
  hx.bind fun a _ => hf a

theorem Relates.discard {R : Reader → Reader → Prop} (hx : Relates t (fun r _ r' => R r r') x y) :
    Relates t (fun r _ r' => R r r') (Functor.discard x) (Functor.discard y) := hx.map fun h => h

end Steps

/-! ## Single tokens -/

variable {t : Terms} {β : Type} {kind : Kind} {S : Reader → β → Reader → Prop}

/-- A look at the current token.  What is done then may depend on it. -/
theorem relates_peek {f g : Kind → Read β} (hf : ∀ kind, (t.named → kind.isLexical) →
    Relates t S (f kind) (g kind) (·.stream.peek = kind)) : Relates t S (peek >>= f) (peek >>= g) :=
      fun r _ hr =>
  hf r.stream.peek (fun hasked => hr.named hasked _ mem_cons_self) r rfl hr

theorem relates_get {f g : Reader → Read β} (hf : ∀ s, Relates t S (f s) (g s) (· = s)) :
    Relates t S (get >>= f) (get >>= g) := fun r _ hr => hf r r rfl hr

/-- What is done with the number of tokens that are left. -/
theorem relates_remaining {f g : Nat → Read β} (hf : ∀ n, (t.counting = .tokens → n ≤ t.bound) →
    Relates ⟨t.named, .tokens, n, false⟩ S (f n) (g n)) : Relates t S (remaining >>= f)
      (remaining >>= g) := by
  refine fun r _ hr => hf r.stream.size (fun ht => ?_) r trivial ⟨hr.ended, hr.named, Nat.le_refl _⟩
  have hbounded := hr.bounded
  rw [ht] at hbounded
  exact Nat.le_of_add_right_le hbounded

theorem advance_suffix (s : TokenStream) : s.advance.toList <:+ s.toList := by
  obtain ⟨current, upcoming, previousStop⟩ := s
  cases upcoming with
  | nil => exact suffix_refl _
  | cons next rest => exact suffix_cons _ _

/-- A token of a known kind is passed. -/
theorem builds_advance (hindent : kind.isIndent = false) (hend : kind.isEnd = false) {E : β → Prop}
    {n : Nat} {Q : β → Prop} {f g : Unit → Read β} (hf : Forms t.lower E n Q (f ()) (g ())) :
    Forms t E n Q (Functor.discard advance >>= f) (Functor.discard advance >>= g)
      (·.stream.peek = kind) := by
  intro r hpeek hr
  subst hpeek
  have hpassed : r.stream.toList = [r.stream.current] ++ r.stream.advance.toList :=
    TokenStream.toList_advance hr.ended hend
  refine (hf { r with stream := r.stream.advance } trivial (hr.lower hpassed (cons_ne_nil _ _))).imp
    fun b r' ⟨hr', hkeeps, hb⟩ => ?_
  exact ⟨hr'.trans (advance_suffix _), hkeeps.behind (keeps_advance hr.ended hindent hend), hb⟩

theorem builds_location : Builds t (fun _ => True) location := builds_look _

theorem builds_spanFrom (start : Location) : Builds t (fun _ => True) (spanFrom start) :=
  builds_look _

theorem builds_remaining : Builds t (fun _ => True) remaining := builds_look _

theorem builds_intern (name : String) : Builds t (fun _ => True) (intern name) :=
  fun r _ _ => .ok ⟨suffix_refl _, ⟨rfl, rfl, (Keeps.refl r).passes⟩, trivial⟩

section Expected

variable {accepts : Kind → Bool}
  (haccepts : ∀ kind, accepts kind → kind.isIndent = false ∧ kind.isEnd = false) {expected : String}
  (hexpected : Target.isPrintable expected)
include haccepts hexpected

/-- A token that is expected is passed. -/
theorem moves_expect :
    Relates t (fun r _ r' => Keeps False 1 r r' ∧ accepts r.stream.peek)
      (Functor.discard (expect accepts expected)) := by
  refine Relates.discard fun r _ hr =>
    (same_expect accepts hexpected hr).imp fun _ r' ⟨hkind, hr'⟩ => ?_
  subst hr'
  exact ⟨advance_suffix r.stream,
    keeps_advance hr.ended (haccepts _ hkind).1 (haccepts _ hkind).2, hkind⟩

theorem builds_expect : Builds t (fun _ => True) (Functor.discard (expect accepts expected)) :=
  (moves_expect haccepts hexpected).imp fun h => ⟨h.1.imp Iff.rfl (Nat.zero_le 1), trivial⟩

end Expected

theorem builds_expectDelimiter (d : Delimiter) :
    Builds t (fun _ => True) (Functor.discard (expectDelimiter d)) := by
  refine builds_expect (fun kind h => ?_) (isPrintable_quoted d.isPrintable_spelling)
  rw [Kind.eq_delimiter_of_isDelimiter h]
  exact ⟨rfl, rfl⟩

theorem builds_expectKeyword (k : Keyword) :
    Builds t (fun _ => True) (Functor.discard (expectKeyword k)) := by
  refine builds_expect (fun kind h => ?_) (isPrintable_quoted k.isPrintable_spelling)
  cases kind with
  | keyword => exact ⟨rfl, rfl⟩
  | _ => cases h

theorem builds_eat (d : Delimiter) : Builds t (fun _ => True) (eat d) := by
  refine relates_peek fun kind _ => .ite (fun h => ?_) fun _ => (builds_pure trivial).whatever
  obtain rfl := Kind.eq_delimiter_of_isDelimiter h
  exact builds_advance rfl rfl (builds_pure trivial)

theorem builds_expectName (hexpected : Target.isPrintable expected) :
    Builds t (t.named → isPlainName ·) (expectName expected) := by
  refine relates_peek fun kind hkind => ?_
  cases kind with
  | identifier =>
    exact builds_advance rfl rfl (builds_pure fun hasked =>
      isPlainName_of_identifier (hkind hasked))
  | function =>
    exact builds_advance rfl rfl ((builds_intern _).andThen fun _ =>
      builds_pure fun hasked => isPlainName_of_function (hkind hasked))
  | _ => exact relates_unexpected hexpected

/-! ## Repetitions -/

section Repetitions

variable {α : Type} {P : α → Prop} {item item' : Read α} (hitem : Builds t P item item')

include hitem

theorem builds_manyWithin (starts : Kind → Bool) (bound : Nat) :
    Builds t (∀ a ∈ ·, P a) (manyWithin starts item bound) (manyWithin starts item' bound) := by
  induction bound with
  | zero => exact builds_pure (forall_mem_nil _)
  | succ bound ih =>
    refine relates_peek fun _ _ =>
      .whatever (.ite (fun _ => ?_) fun _ => builds_pure (forall_mem_nil _))
    exact hitem.bind fun _ hfirst => ih.bind fun _ hrest =>
      builds_pure (forall_mem_cons.mpr ⟨hfirst, hrest⟩)

theorem builds_many (starts : Kind → Bool) :
    Builds t (∀ a ∈ ·, P a) (many starts item) (many starts item') :=
  builds_remaining.andThen fun bound => builds_manyWithin hitem starts bound

theorem builds_behindCommas (bound : Nat) :
    Builds t (∀ x ∈ ·, P x.2) (chainWithin (separator (·.isDelimiter .comma)) item bound)
      (chainWithin (separator (·.isDelimiter .comma)) item' bound) := by
  induction bound with
  | zero => exact builds_pure (forall_mem_nil _)
  | succ bound ih =>
    refine relates_peek fun kind _ => ?_
    split
    · exact (builds_pure (forall_mem_nil _)).whatever
    · rename_i hcomma
      obtain rfl := Kind.eq_delimiter_of_isDelimiter (of_separator_eq_some hcomma)
      exact builds_advance rfl rfl (hitem.lower.bind fun _ hfirst => ih.lower.bind fun _ hrest =>
        builds_pure (forall_mem_cons.mpr ⟨hfirst, hrest⟩))

theorem builds_commaSeparated : Builds t (fun items => items ≠ [] ∧ ∀ a ∈ items, P a)
    (commaSeparated item) (commaSeparated item') := by
  have hchain : Builds t (fun x => P x.1 ∧ ∀ y ∈ x.2, P y.2)
    (chain (separator (·.isDelimiter .comma)) item)
      (chain (separator (·.isDelimiter .comma)) item') :=
    hitem.bind fun _ hfirst => builds_remaining.andThen fun bound =>
      (builds_behindCommas hitem bound).bind fun _ hrest => builds_pure ⟨hfirst, hrest⟩
  refine hchain.bind fun x hx => builds_pure ⟨cons_ne_nil _ _, forall_mem_cons.mpr ⟨hx.1, ?_⟩⟩
  exact forall_mem_map.mpr hx.2

theorem builds_itemsWithin (closing : Delimiter) (hexpected : Target.isPrintable expected)
    (bound : Nat) :
    Builds t (∀ a ∈ ·, P a) (itemsWithin closing expected item bound)
      (itemsWithin closing expected item' bound) := by
  induction bound with
  | zero => exact builds_pure (forall_mem_nil _)
  | succ bound ih =>
    refine relates_peek fun _ _ =>
      .whatever (.ite (fun _ => builds_pure (forall_mem_nil _)) fun _ => ?_)
    refine hitem.bind fun first hfirst => (builds_eat .comma).andThen fun _ =>
      .ite (fun _ => ?_) fun _ => ?_
    · exact ih.bind fun _ hrest => builds_pure (forall_mem_cons.mpr ⟨hfirst, hrest⟩)
    · exact relates_peek fun _ _ => .whatever
        (.ite (fun _ => builds_pure (forall_mem_singleton.mpr hfirst)) fun _ =>
          relates_unexpected hexpected)

theorem builds_bracketed (opening closing : Delimiter) (hexpected : Target.isPrintable expected) :
    Builds t (∀ a ∈ ·, P a) (bracketed opening closing expected item)
      (bracketed opening closing expected item') :=
  (builds_expectDelimiter opening).andThen fun _ => builds_remaining.andThen fun bound =>
    (builds_itemsWithin hitem closing hexpected bound).bind fun _ hitems =>
      (builds_expectDelimiter closing).andThen fun _ => builds_pure hitems

end Repetitions

/-! ## Expressions -/

/-- What is read from a rendering is as the tokens of the rendering make it. -/
theorem builds_of_gives {α : Type} {x : Read α} {R : α → List Kind → Prop} {P : α → Prop}
    (h : ∀ r, Gives ⟨t.named, .nested, r.stream.weight, false⟩ x x r fun a ks _ => R a ks)
    (hR : ∀ {a ks}, R a ks → ks.all Kind.isLexical → P a) : Builds t (t.named → P ·) x := by
  refine fun r _ hr => (h r ⟨hr.ended, hr.named, Nat.le_refl _⟩).imp
    fun a r' ⟨passed, ⟨hpassed, hlexemes, hregistry, hdepth⟩, ha⟩ => ?_
  refine ⟨⟨passed, hpassed.symm⟩, ⟨hregistry, hdepth, passed, hpassed, Nat.zero_le _, ?_⟩,
    fun hasked => hR ha ?_⟩
  · rw [or_iff_right id, IsHollow, hpassed, map_append]
    refine hasHollow_append_iff (forall_mem_map.mpr fun t ht => ?_)
    exact (Kind.of_isLexeme (hlexemes t ht)).2.2.2
  · refine all_eq_true.mpr (forall_mem_map.mpr fun t ht => ?_)
    exact hr.named hasked t (hpassed ▸ mem_append_left _ ht)

/-- An expression that is read is well-formed. -/
theorem builds_expression : Builds t (t.named → ·.isWellFormed) expression :=
  builds_of_gives
    (fun r =>
      ((gives_expressionWithin _ (Nat.le_refl _) (Nat.le_refl _)).gives r).imp fun _ _ _ he => he.1)
    Expression.Renders.isWellFormed

theorem builds_trailerWith :
    Builds t (fun a => t.named → Trailer.areWellFormed [a]) (trailerWith expression) :=
  builds_of_gives (fun _ => gives_trailerWith (givesExpression_expression rfl))
    Trailer.Renders.isWellFormed

end Reader

end Offside
