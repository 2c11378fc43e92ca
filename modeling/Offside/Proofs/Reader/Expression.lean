import Offside.Proofs.Reader.Primary
import Offside.Proofs.Reader.Rendered

/-!
# Reading the tokens of an expression

An expression is read back from its tokens, wherever they stand before a token that joins nothing to
an expression (`reads_expression`).  What stands in brackets or in a formatted string is read by the
reader of expressions itself (`expression_eq`), so the proof follows the tree.
-/

namespace Offside

open List

namespace Reader

variable {ts : List Kind} {inner : Read Expression} {e : Expr}

/-! ## Operators -/

/-- The reader of a level, where the number of signs and negations in a row is bounded. -/
def levelWithin (inner : Read Expression) (bound : Nat) : Nat → Read Expr
  | 2 => inversionWithin inner bound
  | 6 => factorWithin inner bound
  | n => level inner n

/-- The reader of a level reads an expression, whatever the bound is that its tokens do not exceed.
-/
def ReadsWithin (inner : Read Expression) (n : Nat) (e : Expr) : Prop :=
  ∀ bound, e.kinds.length ≤ bound →
    ReadsItem (levelWithin inner bound n) (Expr.relocate nowhere) Expr.kinds (Stops n) e

theorem ReadsWithin.readsAt {n : Nat} (h : ReadsWithin inner n e) (hn : n ≤ 6) :
    ReadsAt inner n e := by
  intro ts hts
  have hlength : e.kinds.length ≤ (e.kinds ++ ts).length := by simp
  have hreads := h (e.kinds ++ ts).length hlength ts hts
  match n, hn with
  | 0, _ | 1, _ | 3, _ | 4, _ | 5, _ => exact hreads
  | 2, _ => exact .remaining hreads
  | 6, _ => exact .remaining hreads

/-- An operand is read on its own level and on all looser ones. -/
theorem ReadsWithin.looser {e : Expr} (hwf : e.isWellFormed) (h : ReadsWithin inner e.rank e)
    {n : Nat} (hn : n ≤ e.rank) : ReadsAt inner n e := by
  exact (h.readsAt e.rank_le).looser e.rank_le (heads_expr hwf).2 hn

theorem readsWithin_not (hwf : e.isWellFormed) (h : ReadsWithin inner e.rank e)
    (hrank : 2 ≤ e.rank) :
    ReadsWithin inner 2 (.not e) := by
  intro bound hbound ts hts
  obtain ⟨bound, rfl⟩ : ∃ n, bound = n + 1 := ⟨bound - 1, by simp [Expr.kinds] at hbound; omega⟩
  have hoperand : ReadsItem (inversionWithin inner bound) (Expr.relocate nowhere) Expr.kinds
      (Stops 2) e := by
    have hlength : e.kinds.length ≤ bound := Nat.le_of_succ_le_succ hbound
    rcases Nat.eq_or_lt_of_le hrank with heq | hlt
    · rw [← heq] at h
      exact h bound hlength
    · have hhead := (heads_expr hwf).2 hlt
      obtain ⟨bound, rfl⟩ : ∃ n, bound = n + 1 := by
        have hpos := length_pos_iff.mpr hhead.ne_nil
        exact ⟨bound - 1, by omega⟩
      exact readsItem_inversionWithin (ReadsWithin.looser hwf h hlt) hhead bound
  exact .ifHeads (.cons rfl) (.advance (by simp) ((hoperand ts hts).bind .pure))

theorem readsWithin_sign {op : SumOp} (h : ReadsWithin inner 6 e) :
    ReadsWithin inner 6 (.sign op e) := by
  intro bound hbound ts hts
  obtain ⟨bound, rfl⟩ : ∃ n, bound = n + 1 := ⟨bound - 1, by simp [Expr.kinds] at hbound; omega⟩
  exact .peek (.advance (by simp) ((h bound (Nat.le_of_succ_le_succ hbound) ts hts).bind .pure))

section Primaries

variable {p : Primary} (hwf : p.isWellFormed)
  (h : ReadsItem (primaryWith inner) (Primary.relocate nowhere) Primary.kinds (Stops 7) p)
include hwf h

/-- A factor that starts with no sign starts with a primary. -/
theorem reads_base {bound : Nat} {rest : List Kind} (hts : Stops 7 ts) (hbehind : Reads (do
      if (← peek).isPower then
        discard advance
        return .power (p.relocate nowhere) (← factorWithin inner bound)
      else return .primary (p.relocate nowhere)) ts rest e) :
    Reads (factorWithin inner (bound + 1)) (p.kinds ++ ts) rest e := by
  have hhead : Heads (fun kind => kind.sumOp?.isNone) (p.kinds ++ ts) := by
    refine ((heads_primary hwf).append ts).mono fun kind hkind => ?_
    exact (Bool.and_eq_true_iff.mp (Bool.and_eq_true_iff.mp hkind).2).2
  refine .peekHeads hhead fun kind hkind => ?_
  rw [Option.isNone_iff_eq_none.mp hkind]
  exact (h ts hts).bind hbehind

theorem readsWithin_primary : ReadsWithin inner 6 (.primary p) := by
  intro bound hbound ts hts
  obtain ⟨bound, rfl⟩ : ∃ n, bound = n + 1 := by
    have hpos := length_pos_iff.mpr (heads_primary hwf).ne_nil
    rw [Expr.kinds] at hbound
    exact ⟨bound - 1, by omega⟩
  have hpower : Heads (fun kind => !kind.isPower) ts := by
    refine Heads.mono hts fun kind hkind => ?_
    cases kind with
    | power => exact absurd (of_decide_eq_true hkind) (by decide)
    | _ => rfl
  exact reads_base hwf h (hts.mono (by decide)) (.ifNotHeads hpower .pure)

theorem readsWithin_power (hexponent : ReadsWithin inner 6 e) :
    ReadsWithin inner 6 (.power p e) := by
  intro bound hbound ts hts
  have hlength : e.kinds.length + 1 ≤ bound := by
    simp only [Expr.kinds, length_append, length_cons] at hbound
    omega
  obtain ⟨bound, rfl⟩ : ∃ n, bound = n + 1 := ⟨bound - 1, by omega⟩
  rw [Expr.kinds, append_assoc]
  refine reads_base hwf h (stops_cons (Nat.le_refl 7) _) ?_
  refine .ifHeads (.cons rfl) (.advance (by simp) ?_)
  exact (hexponent bound (Nat.le_of_succ_le_succ hlength) ts hts).bind .pure

end Primaries

/-- Operands that are read on a level are read together on the next looser one. -/
theorem Joining.readsNode {β : Type} {n : Nat} {operator : Kind → Option β} {token : β → Kind}
    {node : Expr → List (β × Expr) → Expr} (hjoining : Joining n operator token node) {first : Expr}
    {rest : List (β × Expr)} (hnode : node first rest = e) (hfirst : ReadsAt inner (n + 1) first)
    (hrest : ∀ x ∈ rest, ReadsAt inner (n + 1) x.2) :
    ReadsItem
      (do let operands ← chain operator (level inner (n + 1)); return node operands.1 operands.2)
      (Expr.relocate nowhere) Expr.kinds (Stops n) e := by
  rw [← hnode]
  exact hjoining.reads hfirst hrest

/-! ## Trees -/

theorem isEnded_of_before {r : Reader} (h : r.Before ts) : r.stream.IsEnded := by
  refine ⟨Token.relocate nowhere ⟨.endOfInput, {}⟩, ?_, rfl⟩
  rw [h.tokens, getLast?_map, h.last]
  rfl

mutual

/-- An expression is read back from its tokens. -/
theorem reads_expression : ∀ {e : Expression}, e.isWellFormed → Readable expression e
  | ⟨tree, span⟩, h => by
    refine ⟨fun ts hts r hr => ?_, heads_expression h⟩
    have htree := ReadsWithin.looser h (readsWithin_rank h) (Nat.zero_le _)
    rw [expression_eq (isEnded_of_before hr)]
    have hreads : Reads (expressionWith expression) (tree.kinds ++ ts) ts
        ⟨tree.relocate nowhere, {}⟩ :=
      .location ((htree ts hts).bind (.spanFrom .pure))
    exact hreads r hr

theorem reads_expressions :
    ∀ {es : List Expression}, Expression.areWellFormed es → ∀ e ∈ es, Readable expression e
  | [], _ => forall_mem_nil _
  | e :: es, h => by
    simp only [Expression.areWellFormed, Bool.and_eq_true] at h
    exact forall_mem_cons.mpr ⟨reads_expression h.1, reads_expressions h.2⟩

theorem reads_expression? :
    ∀ {e : Option Expression}, Expression.isWellFormed? e → ∀ x ∈ e, Readable expression x
  | none, _ => by simp
  | some e, h => by
    rintro x ⟨rfl⟩
    exact reads_expression h

/-- Operators and operands are read on their own level. -/
theorem readsWithin_rank : ∀ {e : Expr}, e.isWellFormed → ReadsWithin expression e.rank e
  | .or first rest, h => by
    simp only [Expr.isWellFormed, Bool.and_eq_true, decide_eq_true_eq, Bool.not_eq_true',
      isEmpty_eq_false_iff] at h
    have hnode : Expr.ofOr first ((rest.map fun x => ((), x)).map Prod.snd) = .or first rest := by
      simp [Expr.ofOr, Function.comp_def, h.1.2]
    exact fun _ _ => joining_or.readsNode hnode ((readsWithin_rank h.1.1.2).looser h.1.1.2 h.1.1.1)
      (forall_mem_map.mpr (reads_operands h.2))
  | .and first rest, h => by
    simp only [Expr.isWellFormed, Bool.and_eq_true, decide_eq_true_eq, Bool.not_eq_true',
      isEmpty_eq_false_iff] at h
    have hnode : Expr.ofAnd first ((rest.map fun x => ((), x)).map Prod.snd) = .and first rest := by
      simp [Expr.ofAnd, Function.comp_def, h.1.2]
    exact fun _ _ => joining_and.readsNode hnode ((readsWithin_rank h.1.1.2).looser h.1.1.2 h.1.1.1)
      (forall_mem_map.mpr (reads_operands h.2))
  | .not operand, h => by
    simp only [Expr.isWellFormed, Bool.and_eq_true, decide_eq_true_eq] at h
    exact readsWithin_not h.2 (readsWithin_rank h.2) h.1
  | .compare first rest, h => by
    simp only [Expr.isWellFormed, Bool.and_eq_true, decide_eq_true_eq, Bool.not_eq_true',
      isEmpty_eq_false_iff] at h
    have hnode : Expr.ofCompare first rest = .compare first rest := by simp [Expr.ofCompare, h.1.2]
    exact fun _ _ =>
      joining_comparison.readsNode hnode ((readsWithin_rank h.1.1.2).looser h.1.1.2 h.1.1.1)
      (reads_compared h.2)
  | .sum first rest, h => by
    simp only [Expr.isWellFormed, Bool.and_eq_true, decide_eq_true_eq, Bool.not_eq_true',
      isEmpty_eq_false_iff] at h
    have hnode : Expr.ofSum first rest = .sum first rest := by simp [Expr.ofSum, h.1.2]
    exact fun _ _ => joining_sum.readsNode hnode ((readsWithin_rank h.1.1.2).looser h.1.1.2 h.1.1.1)
      (reads_added h.2)
  | .product first rest, h => by
    simp only [Expr.isWellFormed, Bool.and_eq_true, decide_eq_true_eq, Bool.not_eq_true',
      isEmpty_eq_false_iff] at h
    have hnode : Expr.ofProduct first rest = .product first rest := by simp [Expr.ofProduct, h.1.2]
    exact fun _ _ =>
      joining_product.readsNode hnode ((readsWithin_rank h.1.1.2).looser h.1.1.2 h.1.1.1)
      (reads_multiplied h.2)
  | .sign op operand, h => by
    simp only [Expr.isWellFormed, Bool.and_eq_true, decide_eq_true_eq] at h
    have hoperand := readsWithin_rank h.2
    rw [Nat.le_antisymm operand.rank_le h.1] at hoperand
    exact readsWithin_sign hoperand
  | .power base exponent, h => by
    simp only [Expr.isWellFormed, Bool.and_eq_true, decide_eq_true_eq] at h
    have hexponent := readsWithin_rank h.2
    rw [Nat.le_antisymm exponent.rank_le h.1.2] at hexponent
    exact readsWithin_power h.1.1 (reads_wholePrimary h.1.1) hexponent
  | .primary p, h => readsWithin_primary h (reads_wholePrimary h)

theorem reads_operands :
    ∀ {n : Nat} {es : List Expr}, Expr.areWellFormed n es → ∀ e ∈ es, ReadsAt expression n e
  | _, [], _ => forall_mem_nil _
  | _, e :: es, h => by
    simp only [Expr.areWellFormed, Bool.and_eq_true, decide_eq_true_eq] at h
    exact forall_mem_cons.mpr ⟨(readsWithin_rank h.1.2).looser h.1.2 h.1.1, reads_operands h.2⟩

theorem reads_compared : ∀ {es : List (Comparison × Expr)}, Expr.comparedWellFormed es →
    ∀ x ∈ es, ReadsAt expression 4 x.2
  | [], _ => forall_mem_nil _
  | (op, e) :: es, h => by
    simp only [Expr.comparedWellFormed, Bool.and_eq_true, decide_eq_true_eq] at h
    exact forall_mem_cons.mpr ⟨(readsWithin_rank h.1.2).looser h.1.2 h.1.1, reads_compared h.2⟩

theorem reads_added :
    ∀ {es : List (SumOp × Expr)}, Expr.addedWellFormed es → ∀ x ∈ es, ReadsAt expression 5 x.2
  | [], _ => forall_mem_nil _
  | (op, e) :: es, h => by
    simp only [Expr.addedWellFormed, Bool.and_eq_true, decide_eq_true_eq] at h
    exact forall_mem_cons.mpr ⟨(readsWithin_rank h.1.2).looser h.1.2 h.1.1, reads_added h.2⟩

theorem reads_multiplied : ∀ {es : List (TermOp × Expr)}, Expr.multipliedWellFormed es →
    ∀ x ∈ es, ReadsAt expression 6 x.2
  | [], _ => forall_mem_nil _
  | (op, e) :: es, h => by
    simp only [Expr.multipliedWellFormed, Bool.and_eq_true, decide_eq_true_eq] at h
    exact forall_mem_cons.mpr ⟨(readsWithin_rank h.1.2).looser h.1.2 h.1.1, reads_multiplied h.2⟩

theorem reads_wholePrimary : ∀ {p : Primary}, p.isWellFormed →
    ReadsItem (primaryWith expression) (Primary.relocate nowhere) Primary.kinds (Stops 7) p
  | ⟨atom, trailers, span⟩, h => by
    simp only [Primary.isWellFormed, Bool.and_eq_true, Bool.not_eq_true'] at h
    exact reads_primary (reads_atom h.1.1) (reads_trailers h.1.2) h.2

/-- The tokens of an atom are read as this atom. -/
theorem reads_atom : ∀ {atom : Atom}, atom.isWellFormed → ReadsAtom expression atom
  | .name name, h => reads_name h
  | .boolean value, _ => reads_boolean value
  | .formatted parts, h => reads_formattedString (reads_parts h)
  | .group e, h => reads_group (reads_expression h)
  | .list elements, h => reads_list (reads_expressions h)
  | .library ⟨name, ⟨values, _⟩, span⟩, h => by
    simp only [Atom.isWellFormed, FunctionCall.isWellFormed, Arguments.isWellFormed,
      Bool.and_eq_true] at h
    exact reads_library h.1 (reads_expressions h.2) span
  | .builtin ⟨name, ⟨values, _⟩, span⟩, h => by
    simp only [Atom.isWellFormed, FunctionCall.isWellFormed, Arguments.isWellFormed,
      Bool.and_eq_true] at h
    exact reads_builtin h.2.1 h.1 (reads_expressions h.2.2) span
  | .super ⟨superclass, method, ⟨values, _⟩, span⟩, h => by
    simp only [Atom.isWellFormed, SuperCall.isWellFormed, Bool.and_eq_true] at h
    have hsuperclass : ∀ name ∈ superclass, isPlainName name := by
      rintro name rfl
      exact h.1.1
    exact reads_super (reads_superCall hsuperclass h.1.2 (reads_expressions h.2))
  | .none, _ | .integer _, _ | .float _, _ | .str _, _ =>
    fun ts _ => .location (.peek (.advance (by simp) .pure))

theorem reads_parts : ∀ {parts : List FormattedPart}, FormattedPart.areWellFormed parts →
    ∀ e, .embedded e ∈ parts → Readable expression e
  | [], _ => fun _ he => absurd he not_mem_nil
  | .literal text :: parts, h => by
    have hparts : FormattedPart.areWellFormed parts := h
    exact fun e he => reads_parts hparts e (by simpa using he)
  | .embedded first :: parts, h => by
    simp only [FormattedPart.areWellFormed, Bool.and_eq_true] at h
    intro e he
    rcases mem_cons.mp he with heq | hmem
    · rw [FormattedPart.embedded.inj heq]
      exact reads_expression h.1
    · exact reads_parts h.2 e hmem

theorem reads_trailers : ∀ {trailers : List Trailer}, Trailer.areWellFormed trailers →
    ∀ trailer ∈ trailers, ReadsTrailer expression trailer
  | [], _ => forall_mem_nil _
  | .member name span :: trailers, h => by
    simp only [Trailer.areWellFormed, Bool.and_eq_true] at h
    exact forall_mem_cons.mpr ⟨reads_member h.1 span, reads_trailers h.2⟩
  | .call ⟨values, span⟩ :: trailers, h => by
    simp only [Trailer.areWellFormed, Bool.and_eq_true] at h
    exact forall_mem_cons.mpr ⟨reads_call (reads_expressions h.1), reads_trailers h.2⟩
  | .subscript slices :: trailers, h => by
    simp only [Trailer.areWellFormed, Bool.and_eq_true, Bool.not_eq_true',
      isEmpty_eq_false_iff] at h
    exact forall_mem_cons.mpr ⟨reads_subscript h.1.1 (reads_slices h.1.2), reads_trailers h.2⟩

theorem reads_slices : ∀ {slices : List Slice}, Slice.areWellFormed slices →
    ∀ slice ∈ slices, ReadsSlice expression slice
  | [], _ => forall_mem_nil _
  | .index index :: slices, h => by
    simp only [Slice.areWellFormed, Bool.and_eq_true] at h
    exact forall_mem_cons.mpr ⟨reads_index (reads_expression h.1), reads_slices h.2⟩
  | .range lower upper step :: slices, h => by
    simp only [Slice.areWellFormed, Bool.and_eq_true] at h
    obtain ⟨⟨⟨hlower, hupper⟩, hstep⟩, hslices⟩ := h
    exact forall_mem_cons.mpr
      ⟨reads_rangeSlice (reads_expression? hlower) (reads_expression? hupper)
      (reads_expression? hstep), reads_slices hslices⟩

end

end Reader

end Offside
