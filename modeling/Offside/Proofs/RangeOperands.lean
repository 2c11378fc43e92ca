import Offside.Proofs.Emit.Contents
import Offside.Proofs.Julia.Range

/-!
# Ranges as operands

A call of `range` is emitted as a range with colons, and everywhere taken for an operand that holds
together.  But a colon is looser than arithmetic operators, signs and subscripts, so the operator
takes one end of the range only.  The exception is a sign before a range that starts with a sign
itself: signs are kept apart by brackets, and these hold the range together.  Inside the range, the
start must stay one operand before a colon, and the step must hold no colon.
-/

namespace Offside

open Julia Target List

/-! ## Uses of operands -/

/-- Whether an access is a subscript. -/
def Trailer.isSubscript : Trailer → Bool
  | .subscript _ => true
  | _ => false

/-- The operands of an arithmetic operator, of `not`, of a sign or of subscripts.  Subscripts one
behind the other have one operand, which stands in front of the first of them. -/
def Expr.operands : Expr → List Expr
  | .sum first rest => first :: rest.map Prod.snd
  | .product first rest => first :: rest.map Prod.snd
  | .not operand | .sign _ operand => [operand]
  | .power base exponent => [.primary base, exponent]
  | .primary ⟨atom, .subscript _ :: more, span⟩ =>
    if more.all Trailer.isSubscript then [.primary ⟨atom, [], span⟩] else []
  | _ => []

/-- A use of operands: by the outermost operator of an expression, or by an augmented assignment. -/
inductive Use
  | expression (e : Expression)
  | augmented (target : Declaration) (op : AugmentedOp) (value : Expression) (span : Span)

namespace Use

/-- The operands that are used. -/
def operands : Use → List Expr
  | expression e => e.tree.operands
  | augmented target _ value _ =>
    [.primary ⟨.name target.name, target.accesses, target.span⟩, value.tree]

/-- Whether the expressions of the use are well-formed. -/
def isWellFormed : Use → Bool
  | expression e => e.isWellFormed
  | augmented target _ value _ =>
    isPlainName target.name && Trailer.areWellFormed target.accesses && value.isWellFormed

/-- The code that is emitted for an expression, or for the value that an augmented assignment gives
to its target. -/
def Emits (scope : Emit.Scope) : Use → Code → Prop
  | expression e, code => Emit.expression scope e = .ok code
  | augmented target op value span, code =>
    ∃ targets type, Emit.assignmentParts scope ⟨[target], .augmented op, [value], span⟩ =
      .ok (targets, type, [code])

end Use

variable {code : Code}

namespace Julia

/-- The operands of operators that are read from the left, at most `n` of them taken off. -/
def Tree.leftOperands : Nat → Tree → List Tree
  | n + 1, .binary _ left right => left.leftOperands n ++ [right]
  | _, t => [t]

/-- What stands in front of subscripts that are one behind the other. -/
def Tree.subscripted : Tree → Tree
  | .subscript base _ => base.subscripted
  | t => t

/-- The operands of the outermost operator, if it is an arithmetic operator, a sign or a subscript.
Operators that are read from the left have `n` operands together. -/
def Tree.operands (n : Nat) : Tree → List Tree
  | .unary _ operand => [operand]
  | .power base exponent => [base, exponent]
  | .subscript base _ => [base.subscripted]
  | .binary link left right =>
    if .range < link.level then left.leftOperands (n - 2) ++ [right] else []
  | _ => []

/-- What stands inside brackets, if there are brackets. -/
def Tree.bare : Tree → Tree
  | .group inner => inner
  | t => t

/-- A text is read as a use of operands in which the given tree is the one at the given place. -/
def StandsAt (comparisons : Association) (use : Use) (place : Nat) (text : String) (t : Tree) :
    Prop :=
  ∃ whole, read comparisons text = some whole ∧
    (whole.operands use.operands.length)[place]?.map Tree.bare = some t

/-- Nothing is an operand of an operator that is not tighter than a colon. -/
theorem Tree.operands_eq_nil {t : Tree} (h : ¬ .range < t.level) (n : Nat) : t.operands n = [] := by
  cases t with
  | unary op operand => exact absurd (by decide : Level.range < .unary) h
  | power base exponent => exact absurd (by decide : Level.range < .power) h
  | subscript base indices => exact absurd (by decide : Level.range < .operand) h
  | binary link left right => exact if_neg h
  | _ => rfl

/-! ## Colons outside brackets -/

section Colons

variable (comparisons : Association)

/-- Whether a colon stands outside brackets. -/
def HasColon (code : Code) : Prop := Link.colon ∈ (code.row comparisons).rest.map Prod.fst

variable {comparisons}

/-- An expression with a colon outside brackets is no looser than the colon. -/
theorem HasColon.not_lt (h : HasColon comparisons code) :
    ¬ .range < (code.tree comparisons).level := by
  intro hlt
  have habove :=
    (Row.lt_level_resolve_iff comparisons (by decide) (code.level_first_row comparisons)).mp hlt
  obtain ⟨x, hx, hcolon⟩ := mem_map.mp h
  have hlink := habove x hx
  rw [hcolon] at hlink
  exact Nat.lt_irrefl _ hlink

theorem mem_links_extend {r : Row} {rest : List (Link × Row)} {link : Link} :
    link ∈ (r.extend rest).rest.map Prod.fst ↔
      link ∈ r.rest.map Prod.fst ∨ ∃ y ∈ rest, link = y.1 ∨ link ∈ y.2.rest.map Prod.fst := by
  simp only [mem_map]
  constructor
  · rintro ⟨x, hx, rfl⟩
    rcases Row.mem_rest_extend.mp hx with hx | ⟨y, hy, rfl | hx⟩
    · exact .inl ⟨x, hx, rfl⟩
    · exact .inr ⟨y, hy, .inl rfl⟩
    · exact .inr ⟨y, hy, .inr ⟨x, hx, rfl⟩⟩
  · rintro (⟨x, hx, rfl⟩ | ⟨y, hy, rfl | ⟨x, hx, rfl⟩⟩)
    · exact ⟨x, Row.mem_rest_extend.mpr (.inl hx), rfl⟩
    · exact ⟨_, Row.mem_rest_extend.mpr (.inr ⟨y, hy, .inl rfl⟩), rfl⟩
    · exact ⟨x, Row.mem_rest_extend.mpr (.inr ⟨y, hy, .inr hx⟩), rfl⟩

theorem hasColon_range (first : Code) (step : Option Code) (last : Code) :
    HasColon comparisons (.range first step last) := by
  cases step with
  | none => exact mem_links_extend.mpr (.inr ⟨_, mem_singleton_self _, .inl rfl⟩)
  | some step => exact mem_links_extend.mpr (.inr ⟨_, mem_cons_self, .inl rfl⟩)

/-- What is written behind the last operand of a row leaves its operators as they are. -/
theorem links_behind (r : Row) (f : Tree → Tree) :
    (r.behind f).rest.map Prod.fst = r.rest.map Prod.fst := by
  obtain ⟨first, rest⟩ := r
  change (Row.mapLast f first rest).rest.map Prod.fst = rest.map Prod.fst
  induction rest generalizing first with
  | nil => rfl
  | cons x rest ih => rw [Row.mapLast, map_cons, map_cons, ih]

/-- An expression stands without brackets as an operand in another one. -/
inductive Exposed (inner : Code) : Code → Prop
  | first (rest : List (Operator × Code)) : Exposed inner (.chain inner rest)
  | rest (first : Code) {op : Operator} {rest : List (Operator × Code)} (h : (op, inner) ∈ rest) :
    Exposed inner (.chain first rest)
  | not : Exposed inner (.not inner)
  | sign (op : SumOp) : Exposed inner (.sign op inner)
  | base (indices : List Code) : Exposed inner (.subscript inner indices)
  | subscript {base : Code} (h : Exposed inner base) (indices : List Code) :
    Exposed inner (.subscript base indices)

/-- A colon outside brackets stays outside brackets. -/
theorem Exposed.hasColon {inner : Code} (h : Exposed inner code)
    (hcolon : HasColon comparisons inner) :
    HasColon comparisons code := by
  induction h with
  | first rest => exact mem_links_extend.mpr (.inl hcolon)
  | @rest first op rest hmem =>
    refine mem_links_extend.mpr (.inr ⟨(.operator op, inner.row comparisons), ?_, .inr hcolon⟩)
    rw [Code.links_eq_map]
    exact mem_map.mpr ⟨_, hmem, rfl⟩
  | not => exact hcolon
  | sign op => exact hcolon
  | base indices =>
    unfold HasColon
    rw [Code.row, links_behind]
    exact hcolon
  | subscript _ indices ih =>
    unfold HasColon
    rw [Code.row, links_behind]
    exact ih

theorem Exposed.isLexical {inner code : Code} (h : Exposed inner code) (hcode : code.isLexical) :
    inner.isLexical := by
  induction h with
  | first | sign | base => exact (Bool.and_eq_true_iff.mp hcode).1
  | subscript _ indices ih => exact ih (Bool.and_eq_true_iff.mp hcode).1
  | @rest first op rest hmem =>
    have hrest : Code.restIsLexical rest := (Bool.and_eq_true_iff.mp hcode).2
    clear hcode
    induction rest with
    | nil => cases hmem
    | cons x rest ih =>
      obtain ⟨hx, hrest⟩ := Bool.and_eq_true_iff.mp hrest
      rcases mem_cons.mp hmem with rfl | hmem
      · exact hx
      · exact ih hmem hrest
  | not => exact hcode

end Colons

end Julia

namespace Emit

/-! ## Where the code of an operand goes -/

variable {comparisons : Association} {r : Expr} {call : FunctionCall} {scope : Scope}

/-- A call is a primary, so nothing puts brackets around it. -/
theorem exists_primary_of_call? (h : r.call? = some call) :
    ∃ atom span, r = .primary ⟨atom, [], span⟩ ∧ ∀ name, atom ≠ .name name := by
  unfold Expr.call? at h
  split at h
  · exact ⟨_, _, rfl, by simp⟩
  · exact ⟨_, _, rfl, by simp⟩
  · cases h

/-- Operands behind operators are emitted one by one. -/
theorem exists_of_mem_operands {α : Type} {op : α → Operator} {place : Expr → Code → Code}
    {emit : List (α × Expr) → Except SemanticError (List (Operator × Code))}
    (hcons : ∀ a e rest, emit ((a, e) :: rest) = do
      let code ← operators scope e
      return (op a, place e code) :: (← emit rest))
    {es : List (α × Expr)} {codes : List (Operator × Code)} (h : emit es = .ok codes)
    (hr : r ∈ es.map Prod.snd) :
    ∃ op code, operators scope r = .ok code ∧ (op, place r code) ∈ codes := by
  induction es generalizing codes with
  | nil => cases hr
  | cons x es ih =>
    rw [hcons] at h
    obtain ⟨code, rest, hcode, hrest, rfl⟩ := exists_of_map₂_eq_ok h
    rcases mem_cons.mp hr with rfl | hr
    · exact ⟨_, code, hcode, mem_cons_self⟩
    · obtain ⟨op, code, hcode, hmem⟩ := ih hrest hr
      exact ⟨op, code, hcode, mem_cons_of_mem _ hmem⟩

/-- The code of an operand stands without brackets in the code of its use, except that signs are
kept apart. -/
def Placed (use : Use) (r : Expr) (inner code : Code) : Prop :=
  (∃ op span, use = .expression ⟨.sign op r, span⟩ ∧
      code = .sign op (groupIf inner.startsSigned inner)) ∨
    (∀ op span, use ≠ .expression ⟨.sign op r, span⟩) ∧ Exposed inner code

/-- What stands without brackets in front of subscripts stands so in front of those behind them. -/
theorem exposed_accesses {inner base : Code} {trailers : List Trailer}
    (htrailers : trailers.all Trailer.isSubscript) (hbase : Exposed inner base)
    (h : accesses scope (.code base) trailers = .ok code) : Exposed inner code := by
  induction trailers generalizing base with
  | nil =>
    cases h
    exact hbase
  | cons trailer trailers ih =>
    cases trailer with
    | subscript slices =>
      obtain ⟨indices, -, h⟩ := exists_of_bind_eq_ok h
      exact ih htrailers (hbase.subscript indices) h
    | _ => cases htrailers

/-- A call stands without brackets in an expression, unless it has a sign. -/
theorem placed_expression {e : Expression} (hcode : expression scope e = .ok code)
    (hr : r ∈ e.tree.operands) (hcall : r.call? = some call) :
    ∃ inner, operators scope r = .ok inner ∧ Placed (.expression e) r inner code := by
  obtain ⟨atom, rspan, rfl, hatom⟩ := exists_primary_of_call? hcall
  have hproduct : isProduct (.primary ⟨atom, [], rspan⟩) = false := rfl
  obtain ⟨tree, span⟩ := e
  cases tree with
  | or first rest | and first rest | compare first rest => cases hr
  | not operand =>
    obtain rfl : _ = operand := mem_singleton.mp hr
    obtain ⟨inner, hinner, rfl⟩ := exists_of_map_eq_ok hcode
    exact ⟨inner, hinner, .inr ⟨by simp, .not⟩⟩
  | sum first rest =>
    obtain ⟨inner, codes, hinner, hcodes, rfl⟩ := exists_of_map₂_eq_ok hcode
    rcases mem_cons.mp hr with rfl | hr
    · refine ⟨inner, hinner, .inr ⟨by simp, ?_⟩⟩
      rw [hproduct, Bool.and_false]
      exact .first codes
    · obtain ⟨op, inner, hinner, hmem⟩ := exists_of_mem_operands (fun _ _ _ => rfl) hcodes hr
      rw [hproduct, Bool.and_false] at hmem
      exact ⟨inner, hinner, .inr ⟨by simp, .rest _ hmem⟩⟩
  | product first rest =>
    obtain ⟨inner, codes, hinner, hcodes, rfl⟩ := exists_of_map₂_eq_ok hcode
    rcases mem_cons.mp hr with rfl | hr
    · exact ⟨inner, hinner, .inr ⟨by simp, .first codes⟩⟩
    · obtain ⟨op, inner, hinner, hmem⟩ := exists_of_mem_operands (fun _ _ _ => rfl) hcodes hr
      exact ⟨inner, hinner, .inr ⟨by simp, .rest _ hmem⟩⟩
  | sign op operand =>
    obtain rfl : _ = operand := mem_singleton.mp hr
    obtain ⟨inner, hinner, rfl⟩ := exists_of_map_eq_ok hcode
    exact ⟨inner, hinner, .inl ⟨op, span, rfl, rfl⟩⟩
  | power base exponent =>
    obtain ⟨first, inner, hfirst, hinner, rfl⟩ := exists_of_map₂_eq_ok hcode
    rcases mem_cons.mp hr with hbase | hr
    · rw [Expr.primary.inj hbase]
      exact ⟨first, hfirst, .inr ⟨by simp, .first _⟩⟩
    · obtain rfl : _ = exponent := mem_singleton.mp hr
      exact ⟨inner, hinner, .inr ⟨by simp, .rest _ (mem_singleton_self _)⟩⟩
  | primary operand =>
    obtain ⟨slices, more, hmore, rfl⟩ : ∃ slices more, more.all Trailer.isSubscript ∧
        operand = ⟨atom, .subscript slices :: more, rspan⟩ := by
      unfold Expr.operands at hr
      split at hr
      all_goals simp_all
    have hprimary : ∀ trailers, primary scope ⟨atom, trailers, rspan⟩ =
        (do let code ← atomCode scope atom; accesses scope (.code code) trailers) := by
      cases atom with
      | name name => exact absurd rfl (hatom name)
      | _ => exact fun _ => rfl
    change primary scope ⟨atom, .subscript slices :: more, rspan⟩ = .ok code at hcode
    rw [hprimary] at hcode
    obtain ⟨inner, hinner, hcode⟩ := exists_of_bind_eq_ok hcode
    obtain ⟨indices, -, hcode⟩ := exists_of_bind_eq_ok hcode
    refine ⟨inner, ?_, .inr ⟨by simp, exposed_accesses hmore (.base indices) hcode⟩⟩
    change primary scope ⟨atom, [], rspan⟩ = .ok inner
    rw [hprimary, hinner]
    rfl

/-- An augmented assignment gives its target the target, an operator and the value. -/
theorem exists_of_emits_augmented {target : Declaration} {op : AugmentedOp} {value : Expression}
    {span : Span} (h : Use.Emits scope (.augmented target op value span) code) :
    ∃ first operator inner, targetCode scope target = .ok first ∧
      expression scope value = .ok inner ∧
      code = .chain first [(operator, groupIf (!isSimpleValue value) inner)] := by
  obtain ⟨targets, type, hparts⟩ := h
  obtain ⟨codes, htargets, hparts⟩ := exists_of_bind_eq_ok hparts
  obtain ⟨first, hfirst, rfl⟩ : ∃ first, targetCode scope target = .ok first ∧ [first] = codes := by
    rw [mapM_cons, mapM_nil] at htargets
    exact exists_of_map_eq_ok htargets
  dsimp only at hparts
  split at hparts
  · cases hparts
  · rename_i operator hoperator
    obtain ⟨operand, hvalue, hparts⟩ := exists_of_bind_eq_ok hparts
    obtain ⟨inner, hinner, rfl⟩ := exists_of_map_eq_ok hvalue
    have hcodes := (Prod.mk.inj (Prod.mk.inj (Except.ok.inj hparts)).2).2
    exact ⟨first, operator, inner, hfirst, hinner, (head_eq_of_cons_eq hcodes).symm⟩

/-- A call stands without brackets in every use that is not a sign. -/
theorem exists_placed {use : Use} (hcode : use.Emits scope code) (hr : r ∈ use.operands)
    (hcall : r.call? = some call) :
    ∃ inner, operators scope r = .ok inner ∧ Placed use r inner code := by
  cases use with
  | expression e => exact placed_expression hcode hr hcall
  | augmented target op value span =>
    obtain ⟨atom, rspan, rfl, hatom⟩ := exists_primary_of_call? hcall
    obtain ⟨first, operator, inner, -, hinner, rfl⟩ := exists_of_emits_augmented hcode
    obtain ⟨tree, vspan⟩ := value
    rcases mem_cons.mp hr with htarget | hr
    · exact absurd (congrArg Primary.atom (Expr.primary.inj htarget)) (hatom _)
    · obtain rfl : _ = tree := mem_singleton.mp hr
      exact ⟨inner, hinner, .inr ⟨by simp, .rest _ (mem_singleton_self _)⟩⟩

theorem lexical_emits (hscope : scope.isLexical) {use : Use} (huse : use.isWellFormed)
    (hcode : use.Emits scope code) : code.isLexical := by
  cases use with
  | expression e => exact (holds_expression huse hcode).lexical hscope
  | augmented target op value span =>
    obtain ⟨first, operator, inner, hfirst, hinner, rfl⟩ := exists_of_emits_augmented hcode
    simp only [Use.isWellFormed, Bool.and_eq_true] at huse
    obtain ⟨⟨hname, haccesses⟩, hvalue⟩ := huse
    have hlexical : first.isLexical :=
      (leads_accesses _ (holds_ofName hname _) haccesses hfirst).holds.lexical hscope
    have hoperand :=
      ((holds_expression hvalue hinner).groupIf (!isSimpleValue value)).lexical hscope
    simp [Code.isLexical, Code.restIsLexical, hlexical, hoperand]

/-! ## Emitted ranges -/

/-- The last value of a range holds no colon. -/
theorem lt_level_rangeLast {descending : Bool} {e : Expression}
    (h : rangeLast scope descending e = .ok code) (comparisons : Association) :
    .range < (code.tree comparisons).level := by
  have habove : ∀ code : Code, (code.row comparisons).rest = [] →
      .range < (code.tree comparisons).level := by
    intro code hrest
    refine (Row.lt_level_resolve_iff comparisons (by decide) (code.level_first_row comparisons)).mpr
      fun x hx => ?_
    rw [hrest] at hx
    cases hx
  have hinteger : ∀ value, ((Code.integer value).row comparisons).rest = [] := by
    intro value
    rw [Code.row]
    split <;> rfl
  refine habove code ?_
  obtain ⟨tree, span⟩ := e
  unfold rangeLast at h
  split at h
  · rename_i folded hfold
    cases h
    obtain ⟨value, -, hfold⟩ := Option.bind_eq_some_iff.mp hfold
    unfold foldLast? literal64? at hfold
    obtain rfl := Option.some.inj (Option.ite_none_right_eq_some.mp hfold).2
    exact hinteger _
  · obtain ⟨inner, -, rfl⟩ := exists_of_map_eq_ok h
    rfl

/-- A call of `range` is emitted as a range. -/
theorem exists_range (hrange : callForm call.name = .range)
    (h : functionCall scope call = .ok code) :
    ∃ first step last, code = .range first step last ∧
      ∀ comparisons, .range < (last.tree comparisons).level := by
  obtain ⟨name, ⟨values, argumentsSpan⟩, span⟩ := call
  rw [functionCall.eq_def] at h
  simp only [hrange] at h
  split at h
  · obtain ⟨last, hlast, rfl⟩ := exists_of_map_eq_ok h
    exact ⟨_, _, last, rfl, lt_level_rangeLast hlast⟩
  · obtain ⟨first, last, -, hlast, rfl⟩ := exists_of_map₂_eq_ok h
    exact ⟨_, _, last, rfl, lt_level_rangeLast hlast⟩
  · obtain ⟨first, -, h⟩ := exists_of_bind_eq_ok h
    obtain ⟨step, last, -, hlast, rfl⟩ := exists_of_map₂_eq_ok h
    exact ⟨_, _, last, rfl, lt_level_rangeLast hlast⟩
  · cases h

/-- An emitted range is read as the range of its parts exactly if its start stays one operand before
a colon and its step holds no colon. -/
theorem tree_range_iff (comparisons : Association) (first : Code) (step : Option Code) {last : Code}
    (hlast : .range < (last.tree comparisons).level) :
    (Code.range first step last).tree comparisons = .range (first.tree comparisons)
        (step.map (·.tree comparisons)) (last.tree comparisons) ↔
      (first.tree comparisons).isHead ∧ ∀ t ∈ step.map (·.tree comparisons), .range < t.level := by
  have hl : (last.row comparisons).Above .range :=
    (Row.lt_level_resolve_iff comparisons (by decide) (last.level_first_row comparisons)).mp hlast
  cases step with
  | none =>
    have hiff := Row.resolve_range_iff comparisons (first.level_first_row comparisons) hl
    exact ⟨fun h => ⟨hiff.mp h, by simp⟩, fun h => hiff.mpr h.1⟩
  | some step =>
    have hiff := Row.resolve_steppedRange_iff comparisons (first.level_first_row comparisons)
      (step.level_first_row comparisons) hl
    rw [Option.map_some]
    refine ⟨fun h => ⟨(hiff.mp h).1, ?_⟩, fun h => hiff.mpr ⟨h.1, h.2 _ rfl⟩⟩
    rintro t ⟨rfl⟩
    exact (hiff.mp h).2

/-- In an expression with a colon outside brackets, nothing stands at a place of an operand. -/
theorem not_standsAt (hlexical : code.isLexical) (hcolon : HasColon comparisons code) (use : Use)
    (place : Nat) (t : Tree) : ¬ StandsAt comparisons use place code.text t := by
  rintro ⟨whole, hread, hplace⟩
  rw [read_text comparisons hlexical] at hread
  cases hread
  rw [Tree.operands_eq_nil hcolon.not_lt] at hplace
  cases hplace

/-- Behind a sign, what is in brackets stands at the place of the operand. -/
theorem standsAt_sign_iff {inner : Code} (hlexical : inner.isLexical) (op : SumOp) (use : Use)
    (t : Tree) :
    StandsAt comparisons use 0 (Code.sign op (.group inner)).text t ↔
      inner.tree comparisons = t := by
  have hsign : (Code.sign op (.group inner)).isLexical := by
    simp [Code.isLexical, hlexical, Code.startsSigned]
  have htree : (Code.sign op (.group inner)).tree comparisons =
      .unary (.sign op) (.group (inner.tree comparisons)) := by
    have hfrom : (Row.single (.group (inner.tree comparisons))).From .power :=
      fun x hx => absurd hx (by simp [Row.single])
    have hrow := Row.resolve_signed comparisons (.sign op) hfrom
    rw [Row.resolve_single] at hrow
    exact hrow
  unfold StandsAt
  rw [read_text comparisons hsign, htree]
  simp [Tree.operands, Tree.bare]

/-- A range stands at the place of an operand exactly if it is used by a sign and starts with a sign
itself. -/
theorem standsAt_iff_of_placed {use : Use} {place : Nat} (hr : use.operands[place]? = some r)
    {first last : Code} {step : Option Code} (hlexical : code.isLexical)
    (hplaced : Placed use r (.range first step last) code) :
    (Code.range first step last).isLexical ∧
      ∀ t, StandsAt comparisons use place code.text t ↔
        (∃ op span, use = .expression ⟨.sign op r, span⟩) ∧ first.startsSigned ∧
          (Code.range first step last).tree comparisons = t := by
  have hcolon : HasColon comparisons (.range first step last) := hasColon_range first step last
  rcases hplaced with ⟨op, span, rfl, rfl⟩ | ⟨hsign, hexposed⟩
  · have hstarts : (Code.range first step last).startsSigned = first.startsSigned := rfl
    rw [hstarts] at hlexical ⊢
    obtain rfl : place = 0 := by
      have hplace := (List.getElem?_eq_some_iff.mp hr).1
      exact Nat.lt_one_iff.mp hplace
    cases hsigned : first.startsSigned with
    | false =>
      rw [hsigned] at hlexical
      have hexposed : Exposed (.range first step last) (.sign op (.range first step last)) :=
        .sign op
      have hnot := not_standsAt hlexical (hexposed.hasColon hcolon)
      refine ⟨hexposed.isLexical hlexical, fun t => ⟨fun h => absurd h (hnot _ _ t), fun h => ?_⟩⟩
      cases h.2.1
    | true =>
      rw [hsigned] at hlexical
      have hinside : (Code.range first step last).isLexical :=
        (Bool.and_eq_true_iff.mp hlexical).1
      refine ⟨hinside, fun t => (standsAt_sign_iff hinside op _ t).trans ?_⟩
      exact ⟨fun h => ⟨⟨op, span, rfl⟩, rfl, h⟩, fun h => h.2.2⟩
  · have hnot := not_standsAt hlexical (hexposed.hasColon hcolon) use place
    refine ⟨hexposed.isLexical hlexical, fun t => ⟨fun h => absurd h (hnot t), ?_⟩⟩
    rintro ⟨⟨op, span, huse⟩, -⟩
    exact absurd huse (hsign op span)

/-- A call of `range` that is used as an operand stands in what is emitted as one operand, with its
start, its step and its last value as parts, exactly if it is used by a sign, starts with a sign
itself, its start stays one operand before a colon, and its step holds no colon. -/
theorem range_standsAt_iff (comparisons : Association) {scope : Scope}
    (hscope : scope.isLexical = true) {use : Use} (huse : use.isWellFormed = true) {place : Nat}
    {r : Expr} (hr : use.operands[place]? = some r) {call : FunctionCall}
    (hcall : r.call? = some call) (hrange : callForm call.name = .range) {code : Code}
    (hcode : use.Emits scope code) :
    ∃ first step last f s l, operators scope r = .ok (.range first step last) ∧
      read comparisons first.text = some f ∧
      step.map (fun x => read comparisons x.text) = s.map some ∧
      read comparisons last.text = some l ∧
      (StandsAt comparisons use place code.text (.range f s l) ↔
        (∃ op span, use = .expression ⟨.sign op r, span⟩) ∧ first.startsSigned = true ∧
          f.isHead = true ∧ ∀ t ∈ s, .range < t.level) := by
  obtain ⟨inner, hinner, hplaced⟩ := exists_placed hcode (mem_of_getElem? hr) hcall
  obtain ⟨first, step, last, rfl, hlast⟩ :=
    exists_range hrange ((operators_of_call? hcall scope).symm.trans hinner)
  have hlexical : code.isLexical = true := lexical_emits hscope huse hcode
  obtain ⟨hrangeLexical, hstands⟩ := standsAt_iff_of_placed hr hlexical hplaced
  have hparts := tree_range_iff comparisons first step (hlast comparisons)
  cases step with
  | none =>
    obtain ⟨hfirst, hlast⟩ := Bool.and_eq_true_iff.mp hrangeLexical
    refine ⟨first, none, last, _, none, _, hinner, read_text comparisons hfirst, rfl,
      read_text comparisons hlast, ?_⟩
    rw [hstands]
    exact and_congr_right fun _ => and_congr_right fun _ => hparts
  | some step =>
    simp only [Code.isLexical, Bool.and_eq_true] at hrangeLexical
    obtain ⟨⟨hfirst, hstep⟩, hlast⟩ := hrangeLexical
    refine ⟨first, some step, last, _, some (step.tree comparisons), _, hinner,
      read_text comparisons hfirst, congrArg some (read_text comparisons hstep),
      read_text comparisons hlast, ?_⟩
    rw [hstands]
    exact and_congr_right fun _ => and_congr_right fun _ => hparts

/-- `range(start, stop)`, or `range(stop)` without a start. -/
def rangeCall (values : List Expr) : Expr :=
  .primary ⟨.builtin ⟨"range", ⟨values.map fun e => ⟨e, {}⟩, {}⟩, {}⟩, [], {}⟩

/-- A literal number as an operand. -/
def numeral (n : Nat) : Expr := .primary ⟨.integer n, [], {}⟩

/-- `-range(-1, 3)`, which is emitted as `-(-1:2)`. -/
def negatedRange : Expression := ⟨.sign .sub (rangeCall [.sign .sub (numeral 1), numeral 3]), {}⟩

theorem standsAt_negatedRange_iff :
    ∃ first step last f s l,
      operators plainScope (rangeCall [.sign .sub (numeral 1), numeral 3]) =
        .ok (.range first step last) ∧
      read .chained first.text = some f ∧
      step.map (fun x => read .chained x.text) = s.map some ∧
      read .chained last.text = some l ∧
      (StandsAt .chained (.expression negatedRange) 0 "-(-1:2)" (.range f s l) ↔
        (∃ op span, Use.expression negatedRange =
          .expression ⟨.sign op (rangeCall [.sign .sub (numeral 1), numeral 3]), span⟩) ∧
          first.startsSigned = true ∧ f.isHead = true ∧ ∀ t ∈ s, .range < t.level) := by
  have hscope : plainScope.isLexical = true := by decide
  have hwf : (Use.expression negatedRange).isWellFormed = true := by decide
  have hcode : (Use.expression negatedRange).Emits plainScope
      (.sign .sub (.group (.range (.sign .sub (.integer 1)) none (.integer 2)))) := rfl
  exact range_standsAt_iff .chained hscope hwf rfl rfl (by decide) hcode

/-- `range(3) + 1`, which is emitted as `0:2 .+ 1`. -/
def rangeSum : Expression := ⟨.sum (rangeCall [numeral 3]) [(.add, numeral 1)], {}⟩

/-- The sum takes the last value of the range only: the text is read as `0:(2 .+ 1)`, where the
range is no operand of the sum. -/
theorem read_rangeSum :
    ∃ code, expression plainScope rangeSum = .ok code ∧
      read .chained code.text = some (.range (.leaf "0") none
        (.binary (.operator (.sum .add)) (.leaf "2") (.leaf "1"))) ∧
      ¬ StandsAt .chained (.expression rangeSum) 0 code.text
        (.range (.leaf "0") none (.leaf "2")) := by
  have hlexical :=
    read_text .chained (by decide : (Code.chain (.range (.integer 0) none (.integer 2))
    [(.sum .add, .integer 1)]).isLexical = true)
  have hread : read .chained "0:2 .+ 1" = some (.range (.leaf "0") none
      (.binary (.operator (.sum .add)) (.leaf "2") (.leaf "1"))) :=
    hlexical
  refine ⟨_, rfl, hread, ?_⟩
  rintro ⟨whole, hwhole, hplace⟩
  obtain rfl := Option.some.inj (hread.symm.trans hwhole)
  cases hplace

end Emit

end Offside
