import Offside.Proofs.Tree.Render

/-!
# Tokens of expressions

The tokens of an expression are put together from words, operators and separators, formatted strings
and brackets, so a property of lists of tokens that these keep holds of the tokens of every
expression (`Composed`).
-/

namespace Offside

open List

/-! ## What holds of the tokens of every expression -/

/-- Whether a token is a word, an operator or a separator that may stand between the parts of an
expression: it ends no line, and is neither a bracket nor an assignment. -/
def Kind.isInline : Kind → Bool
  | .newline | .endOfInput | .formatted _ => false
  | .delimiter mark => !mark.isOpening && !mark.isClosing && !mark.isAssignment
  | _ => true

theorem isInline_ofWord (word : String) : (Kind.ofWord word).isInline := by
  unfold Kind.ofWord
  split
  · rfl
  · split
    · rfl
    · split <;> rfl

/-- A property of lists of tokens that is kept when tokens are put together to an expression. -/
structure Composed (T : List Kind → Prop) : Prop where
  nil : T []
  cons : ∀ {k ks}, k.isInline = true → T ks → T (k :: ks)
  append : ∀ {ks more}, T ks → T more → T (ks ++ more)
  formatted : ∀ parts, (∀ e, .embedded e ∈ parts → T e.kinds) →
    T [.formatted (FormattedPart.fragments parts)]
  brackets : ∀ {opening closing ks}, opening.isOpening = true → closing.isClosing = true → T ks →
    T (.delimiter opening :: (ks ++ [.delimiter closing]))

namespace Composed

variable {T : List Kind → Prop}

theorem withCommas (h : Composed T) {lists : List (List Kind)} (hlists : ∀ ks ∈ lists, T ks) :
    T (withCommas lists) := by
  induction lists with
  | nil => exact h.nil
  | cons first lists ih =>
    obtain ⟨hfirst, hrest⟩ := forall_mem_cons.mp hlists
    cases lists with
    | nil => exact hfirst
    | cons second lists =>
      rw [Offside.withCommas]
      · exact h.append hfirst (h.cons rfl (ih hrest))
      · exact cons_ne_nil _ _

theorem flatMap (h : Composed T) {α : Type} {kinds : α → List Kind} {xs : List α}
    (hxs : ∀ x ∈ xs, T (kinds x)) : T (xs.flatMap kinds) := by
  induction xs with
  | nil => exact h.nil
  | cons x xs ih =>
    obtain ⟨hx, hxs⟩ := forall_mem_cons.mp hxs
    exact h.append hx (ih hxs)

mutual

theorem expr (h : Composed T) : ∀ e : Expr, T e.kinds
  | .or first rest => h.append (h.expr first) (h.joined rfl rest)
  | .and first rest => h.append (h.expr first) (h.joined rfl rest)
  | .not operand => h.cons rfl (h.expr operand)
  | .compare first rest => h.append (h.expr first) (h.compared rest)
  | .sum first rest => h.append (h.expr first) (h.added rest)
  | .product first rest => h.append (h.expr first) (h.multiplied rest)
  | .sign _ operand => h.cons rfl (h.expr operand)
  | .power base exponent => h.append (h.primary base) (h.cons rfl (h.expr exponent))
  | .primary operand => h.primary operand

theorem joined (h : Composed T) {word : Kind} (hword : word.isInline) : ∀ es :
    List Expr, T (Expr.joinedKinds word es)
  | [] => h.nil
  | e :: rest => h.cons hword (h.append (h.expr e) (h.joined hword rest))

theorem compared (h : Composed T) : ∀ es : List (Comparison × Expr), T (Expr.comparedKinds es)
  | [] => h.nil
  | (_, e) :: rest => h.cons rfl (h.append (h.expr e) (h.compared rest))

theorem added (h : Composed T) : ∀ es : List (SumOp × Expr), T (Expr.addedKinds es)
  | [] => h.nil
  | (_, e) :: rest => h.cons rfl (h.append (h.expr e) (h.added rest))

theorem multiplied (h : Composed T) : ∀ es : List (TermOp × Expr), T (Expr.multipliedKinds es)
  | [] => h.nil
  | (_, e) :: rest => h.cons rfl (h.append (h.expr e) (h.multiplied rest))

theorem expression (h : Composed T) : ∀ e : Expression, T e.kinds
  | ⟨tree, _⟩ => h.expr tree

theorem expressions (h : Composed T) : ∀ es : List Expression, ∀ ks ∈ Expression.allKinds es, T ks
  | [] => forall_mem_nil _
  | e :: rest => forall_mem_cons.mpr ⟨h.expression e, h.expressions rest⟩

theorem optional (h : Composed T) : ∀ e : Option Expression, T (Expression.kinds? e)
  | none => h.nil
  | some e => h.expression e

theorem primary (h : Composed T) : ∀ p : Primary, T p.kinds
  | ⟨atom, trailers, _⟩ => h.append (h.atom atom) (h.trailers trailers)

theorem atom (h : Composed T) : ∀ atom : Atom, T atom.kinds
  | .name name => h.cons (isInline_ofWord name) h.nil
  | .boolean _ | .none | .integer _ | .float _ | .str _ => h.cons rfl h.nil
  | .formatted parts => h.formatted parts (h.parts parts)
  | .group inner => h.brackets rfl rfl (h.expression inner)
  | .list elements => h.brackets rfl rfl (h.withCommas (h.expressions elements))
  | .library call => h.cons rfl (h.cons rfl (h.functionCall call))
  | .builtin call => h.functionCall call
  | .super call => h.superCall call

theorem parts (h : Composed T) : ∀ parts : List FormattedPart, ∀ e, .embedded e ∈ parts → T e.kinds
  | [] => nofun
  | .literal _ :: rest => fun e he => h.parts rest e (by simpa using he)
  | .embedded first :: rest => by
    intro e he
    rcases mem_cons.mp he with heq | hmem
    · rw [FormattedPart.embedded.inj heq]
      exact h.expression first
    · exact h.parts rest e hmem

theorem trailer (h : Composed T) : ∀ trailer : Trailer, T trailer.kinds
  | .member name _ => h.cons rfl (h.cons (isInline_ofWord name) h.nil)
  | .call arguments => h.arguments arguments
  | .subscript slices => h.brackets rfl rfl (h.withCommas (h.slices slices))

theorem trailers (h : Composed T) : ∀ trailers : List Trailer, T (Trailer.allKinds trailers)
  | [] => h.nil
  | trailer :: rest => h.append (h.trailer trailer) (h.trailers rest)

theorem slice (h : Composed T) : ∀ slice : Slice, T slice.kinds
  | .index index => h.expression index
  | .range lower upper none => h.append (h.optional lower) (h.cons rfl (h.optional upper))
  | .range lower upper (some step) => h.append (h.optional lower)
      (h.cons rfl (h.append (h.optional upper) (h.cons rfl (h.expression step))))

theorem slices (h : Composed T) : ∀ slices : List Slice, ∀ ks ∈ Slice.allKinds slices, T ks
  | [] => forall_mem_nil _
  | slice :: rest => forall_mem_cons.mpr ⟨h.slice slice, h.slices rest⟩

theorem arguments (h : Composed T) : ∀ arguments : Arguments, T arguments.kinds
  | ⟨values, _⟩ => h.brackets rfl rfl (h.withCommas (h.expressions values))

theorem functionCall (h : Composed T) : ∀ call : FunctionCall, T call.kinds
  | ⟨name, arguments, _⟩ => h.cons (isInline_ofWord name) (h.arguments arguments)

theorem superCall (h : Composed T) : ∀ call : SuperCall, T call.kinds
  | ⟨superclass, method, arguments, _⟩ => by
    have hname : T (superclass.map Kind.ofWord).toList := by
      cases superclass with
      | none => exact h.nil
      | some name => exact h.cons (isInline_ofWord name) h.nil
    have hbehind : T (.delimiter .dot :: .ofWord method :: arguments.kinds) :=
      h.cons rfl (h.cons (isInline_ofWord method) (h.arguments arguments))
    have hbrackets : T (.delimiter .parenOpen ::
        ((superclass.map Kind.ofWord).toList ++ [.delimiter .parenClose])) :=
          h.brackets rfl rfl hname
    have hcall := h.cons (k := .identifier "super") rfl (h.append hbrackets hbehind)
    simpa [SuperCall.kinds] using hcall

end

mutual

theorem typeHint (h : Composed T) : ∀ hint : TypeHint, T hint.kinds
  | ⟨name, [], _⟩ => h.cons (isInline_ofWord name) h.nil
  | ⟨name, first :: rest, _⟩ => h.cons (isInline_ofWord name) (h.brackets rfl rfl
      (h.withCommas (forall_mem_cons.mpr ⟨h.typeHint first, h.typeHints rest⟩)))

theorem typeHints (h : Composed T) : ∀ hints : List TypeHint, ∀ ks ∈ TypeHint.allKinds hints, T ks
  | [] => forall_mem_nil _
  | hint :: rest => forall_mem_cons.mpr ⟨h.typeHint hint, h.typeHints rest⟩

end

theorem typeHintBehind (h : Composed T) {d : Delimiter} (hd : (Kind.delimiter d).isInline)
    (hint : Option TypeHint) : T (TypeHint.kindsBehind d hint) := by
  cases hint with
  | none => exact h.nil
  | some hint => exact h.cons hd (h.typeHint hint)

theorem declaration (h : Composed T) (d : Declaration) : T d.kinds :=
  h.cons (isInline_ofWord d.name) (h.append (h.flatMap fun trailer _ => h.trailer trailer)
    (h.typeHintBehind rfl d.hint))

theorem expressionList (h : Composed T) (es : List Expression) : T (Expression.listKinds es) := by
  rw [Expression.listKinds, ← Expression.allKinds_eq_map]
  exact h.withCommas (h.expressions es)

end Composed

end Offside
