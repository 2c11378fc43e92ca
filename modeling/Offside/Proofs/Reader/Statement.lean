import Offside.Proofs.Reader.Expression
import Offside.Proofs.Reader.Line
import Offside.Proofs.Reader.WellFormedProgram

/-!
# Reading the tokens of a statement

A statement that may stand in a block is read back from its tokens, wherever no `elif` and no `else`
follows (`reads_statement`).  As for expressions, the statements of blocks are read by the reader of
statements itself (`statement_eq`), so the proof follows the tree.
-/

namespace Offside

open List

namespace Reader

/-! ## Types and parameters -/

/-- The first word of a type. -/
theorem ofWord_of_isTypeName {name : String} (h : isPlainName name ∨ name = "None") :
    Kind.ofWord name = .function name ∨ Kind.ofWord name = .identifier name ∨
      (Kind.ofWord name = .keyword .noneKw ∧ name = "None") := by
  rcases h with hplain | rfl
  · rcases ofWord_of_isPlainName hplain with ⟨hkind, -⟩ | ⟨hkind, -⟩
    · exact .inl hkind
    · exact .inr (.inl hkind)
  · exact .inr (.inr ⟨rfl, rfl⟩)

/-- The tokens of the arguments of a type. -/
def typeArgumentKinds : List TypeHint → List Kind
  | [] => []
  | hints =>
    .delimiter .bracketOpen :: (withCommas (hints.map TypeHint.kinds) ++ [.delimiter .bracketClose])

theorem kinds_typeHint (name : String) (arguments : List TypeHint) (span : Span) :
    TypeHint.kinds ⟨name, arguments, span⟩ = .ofWord name :: typeArgumentKinds arguments := by
  cases arguments with
  | nil => rfl
  | cons first rest =>
    rw [TypeHint.kinds, typeArgumentKinds, TypeHint.allKinds_eq_map, map_cons]
    exact cons_ne_nil first rest

variable {es : List Expression} {rest ts : List Kind} {s : Statement}

/-- The arguments of a type, which may be left out in front of what is no bracket. -/
theorem reads_typeArguments {item : Read TypeHint} {arguments : List TypeHint}
    (h : ∀ x ∈ arguments, ReadsItem item (TypeHint.relocate nowhere) TypeHint.kinds
      (Heads fun kind => !kind.isDelimiter .bracketOpen) x)
    (hts : Heads (fun kind => !kind.isDelimiter .bracketOpen) ts) {β : Type} {b : β}
    {f : List TypeHint → Read β}
    (hf : Reads (f (TypeHint.relocateAll nowhere arguments)) ts rest b) : Reads (do
      let arguments ←
        if ← eat .bracketOpen then do
          let arguments ← commaSeparated item
          discard (expectDelimiter .bracketClose)
          pure arguments
        else pure []
      f arguments) (typeArgumentKinds arguments ++ ts) rest b := by
  rw [TypeHint.relocateAll_eq_map] at hf
  cases arguments with
  | nil => exact (reads_eat_of_heads hts).bind hf
  | cons first more =>
    rw [typeArgumentKinds, cons_append, append_assoc]
    · refine (reads_eat .bracketOpen _).bind ?_
      refine (reads_commaSeparated (cons_ne_nil first more) h (fun _ => .cons rfl) (.cons rfl)
        (.cons rfl)).bind ?_
      exact (reads_expectDelimiter .bracketClose ts).discardBind hf
    · exact cons_ne_nil first more

/-- A type is read in front of what is no bracket. -/
theorem reads_typeHintWithin {hint : TypeHint} (h : hint.isWellFormed) {depth : Nat}
    (hdepth : hint.kinds.length ≤ depth) :
    ReadsItem (typeHintWithin depth) (TypeHint.relocate nowhere) TypeHint.kinds
      (Heads fun kind => !kind.isDelimiter .bracketOpen) hint := by
  induction depth generalizing hint with
  | zero =>
    obtain ⟨name, arguments, span⟩ := hint
    rw [kinds_typeHint] at hdepth
    cases hdepth
  | succ depth ih =>
    intro ts hts
    obtain ⟨name, arguments, span⟩ := hint
    simp only [TypeHint.isWellFormed, Bool.and_eq_true, Bool.or_eq_true, beq_iff_eq] at h
    obtain ⟨hname, harguments⟩ := h
    rw [kinds_typeHint, length_cons] at hdepth
    have hitems : ∀ x ∈ arguments, ReadsItem (typeHintWithin depth) (TypeHint.relocate nowhere)
      TypeHint.kinds
        (Heads fun kind => !kind.isDelimiter .bracketOpen) x := by
      intro x hx
      refine ih (TypeHint.areWellFormed_iff.mp harguments x hx) ?_
      have hmem : x.kinds ∈ arguments.map TypeHint.kinds := mem_map_of_mem hx
      have hle := (sublist_withCommas hmem).length_le
      rw [typeArgumentKinds] at hdepth
      · simp only [length_cons, length_append] at hdepth
        omega
      · exact ne_nil_of_mem hx
    have hbehind : Reads (do
        let arguments ←
          if ← eat .bracketOpen then do
            let arguments ← commaSeparated (typeHintWithin depth)
            discard (expectDelimiter .bracketClose)
            pure arguments
          else pure []
        return (⟨name, arguments, ← spanFrom {}⟩ : TypeHint)) (typeArgumentKinds arguments ++ ts) ts
        (TypeHint.relocate nowhere ⟨name, arguments, span⟩) :=
      reads_typeArguments hitems hts (.spanFrom .pure)
    rw [kinds_typeHint, cons_append]
    rcases ofWord_of_isTypeName hname with hkind | hkind | ⟨hkind, rfl⟩
    all_goals
      rw [hkind]
      exact .location (.peek (.bind .pure (.advance (by simp) hbehind)))

theorem reads_typeHint {hint : TypeHint} (h : hint.isWellFormed) :
    ReadsItem typeHint (TypeHint.relocate nowhere) TypeHint.kinds
      (Heads fun kind => !kind.isDelimiter .bracketOpen) hint := by
  intro ts hts
  have hlength : hint.kinds.length ≤ (hint.kinds ++ ts).length := by simp
  exact .remaining (reads_typeHintWithin h hlength ts hts)

/-- A type behind a delimiter, in front of what is neither this delimiter nor a bracket. -/
theorem reads_typeHintBehind {hint : Option TypeHint} (h : hint.all TypeHint.isWellFormed)
    {d : Delimiter}
    (hts : Heads (fun kind => !kind.isDelimiter d && !kind.isDelimiter .bracketOpen) ts) :
    Reads (typeHintBehind d) (TypeHint.kindsBehind d hint ++ ts) ts
      (hint.map (TypeHint.relocate nowhere)) := by
  cases hint with
  | none =>
    have hbehind := hts.mono fun _ hkind => (Bool.and_eq_true_iff.mp hkind).1
    exact (reads_eat_of_heads hbehind).bind .pure
  | some hint =>
    have hbracket := hts.mono fun _ hkind => (Bool.and_eq_true_iff.mp hkind).2
    exact (reads_eat d _).bind ((reads_typeHint h ts hbracket).bind .pure)

/-- A parameter with its type and its default. -/
theorem reads_parameter {p : Parameter} (h : p.isWellFormed) :
    ReadsItem parameter (Parameter.relocate nowhere) Parameter.kinds (Ends .parenClose) p := by
  intro ts hts
  obtain ⟨name, hint, default, span⟩ := p
  simp only [Parameter.isWellFormed, Bool.and_eq_true] at h
  obtain ⟨⟨hname, hhint⟩, hdefault⟩ := h
  rw [Parameter.kinds, cons_append, append_assoc]
  refine .location ((reads_expectName hname _).bind ?_)
  cases default with
  | none =>
    refine (reads_typeHintBehind hhint (hts.heads rfl rfl)).bind ?_
    exact (reads_eat_of_heads (hts.heads rfl rfl)).bind (.bind .pure (.spanFrom .pure))
  | some value =>
    have hassign : Heads (fun kind => !kind.isDelimiter .colon && !kind.isDelimiter .bracketOpen)
        (.delimiter .assign :: value.kinds ++ ts) := .cons rfl
    refine (reads_typeHintBehind hhint hassign).bind ((reads_eat .assign _).bind ?_)
    have hvalue := (reads_expression hdefault).reads ts (hts.heads rfl rfl)
    exact (hvalue.map some).bind (.spanFrom .pure)

theorem reads_parameters {ps : List Parameter} (h : ps.all Parameter.isWellFormed)
    (ts : List Kind) :
    Reads parameters (.delimiter .parenOpen ::
      (withCommas (ps.map Parameter.kinds) ++ .delimiter .parenClose :: ts)) ts
      (ps.map (Parameter.relocate nowhere)) := by
  have hwf := all_eq_true.mp h
  refine reads_bracketed (by simp) (fun p hp => reads_parameter (hwf p hp)) (fun p hp => ?_)
    (fun more => ⟨more, .inl rfl⟩) (fun more => ⟨more, .inr rfl⟩)
  have hname : isPlainName p.name := by
    have hparts := hwf p hp
    simp only [Parameter.isWellFormed, Bool.and_eq_true] at hparts
    exact hparts.1.1
  refine (heads_ofWord hname _).mono fun kind hkind => ?_
  rw [isDelimiter_of_startsExpression (Bool.and_eq_true_iff.mp hkind).1 rfl]
  rfl

/-! ## Simple statements -/

theorem heads_listKinds (h : Expression.isWellFormedList es) :
    Heads startsExpression (Expression.listKinds es) := by
  cases es with
  | nil => cases h
  | cons e es =>
    have he : e.isWellFormed := by
      simp only [Expression.isWellFormedList, Bool.and_eq_true, all_cons] at h
      exact h.2.1
    rw [Expression.listKinds, withCommas_cons]
    exact (heads_expression he).append _

/-- Expressions are read in front of what joins nothing to an expression and is no comma. -/
theorem reads_expressionList (h : Expression.isWellFormedList es) (hstop : Stops 0 ts)
    (hend : Heads (fun kind => !kind.isDelimiter .comma) ts) :
    Reads expressionList (Expression.listKinds es ++ ts) ts
      (es.map (Expression.relocate nowhere)) := by
  simp only [Expression.isWellFormedList, Bool.and_eq_true, Bool.not_eq_true', isEmpty_eq_false_iff,
    all_eq_true] at h
  exact reads_commaSeparated h.1 (fun e he => (reads_expression (h.2 e he)).reads)
    (stops_delimiter rfl) hstop hend

/-- Nothing is joined to an expression at the end of a line. -/
theorem stops_newline (ts : List Kind) : Stops 0 (.newline :: ts) := stops_cons (Nat.le_refl 0) ts

theorem reads_returns {value : Option (List Expression)} (h : value.all Expression.isWellFormedList)
    (span : Span) (ts : List Kind) :
    Reads returnStatement (Statement.kinds (.returns value span) ++ ts) (.newline :: ts)
      (Statement.relocate nowhere (.returns value span)) := by
  refine .location ?_
  cases value with
  | none =>
    refine (reads_expectKeyword .returnKw _).discardBind ?_
    exact .ifNotHeads (.cons rfl) (.bind .pure (.spanFrom .pure))
  | some es =>
    rw [Statement.kinds, cons_append, append_assoc]
    refine (reads_expectKeyword .returnKw _).discardBind ?_
    refine .ifHeads ((heads_listKinds h).append _) ?_
    have hlist := reads_expressionList h (stops_newline ts) (.cons rfl)
    exact (hlist.map some).bind (.spanFrom .pure)

/-- A target is read in front of a comma or the operator of the assignment. -/
theorem reads_declaration {d : Declaration} (h : d.isWellFormed) (op : AssignOp) :
    ReadsItem declaration (Declaration.relocate nowhere) Declaration.kinds
      (Ends op.delimiter) d := by
  intro ts hts
  obtain ⟨name, hint, accesses, span⟩ := d
  simp only [Declaration.isWellFormed, Bool.and_eq_true] at h
  obtain ⟨⟨hname, hhint⟩, haccesses⟩ := h
  have htrailers := reads_trailers haccesses
  have hend : Heads (fun kind => !kind.isDelimiter .colon && !kind.isDelimiter .bracketOpen) ts :=
    hts.heads rfl (by cases op <;> rfl)
  have hbehind : Heads (fun kind => !startsTrailer kind)
      (TypeHint.kindsBehind .colon hint ++ ts) := by
    cases hint with
    | none => exact hts.heads rfl (by cases op <;> rfl)
    | some hint => exact .cons rfl
  rw [Declaration.kinds, cons_append, append_assoc]
  refine .location ((reads_expectName hname _).bind ?_)
  refine (reads_many htrailers (fun trailer _ => heads_trailer trailer) (fun _ _ _ =>
    trivial) trivial
    hbehind).bind ?_
  exact (reads_typeHintBehind hhint hend).bind (.spanFrom .pure)

theorem reads_assignOp {op : AssignOp} {targets : Nat} (h : op.takes targets) (ts : List Kind) :
    Reads (assignOp targets) (.delimiter op.delimiter :: ts)
      (.delimiter op.delimiter :: ts) op := by
  cases op with
  | plain => exact .peek .pure
  | augmented op =>
    obtain rfl : targets = 1 := beq_iff_eq.mp h
    exact .peek .pure

/-- An assignment up to the end of its line. -/
theorem reads_assignment {a : Assignment} (h : a.isWellFormed) (ts : List Kind) :
    Reads assignment (a.kinds ++ .newline :: ts) (.newline :: ts) (a.relocate nowhere) := by
  obtain ⟨targets, op, value, span⟩ := a
  simp only [Assignment.isWellFormed, Bool.and_eq_true, all_eq_true] at h
  obtain ⟨⟨htakes, htargets⟩, hvalue⟩ := h
  have hne : targets ≠ [] := by
    rintro rfl
    cases op <;> cases htakes
  rw [Assignment.kinds, append_assoc, cons_append]
  have hend : ∀ more,
      Heads (fun kind => !kind.isDelimiter .comma) (.delimiter op.delimiter :: more) := by
    cases op <;> exact fun _ => .cons rfl
  refine .location ((reads_commaSeparated hne (fun d hd => reads_declaration (htargets d hd) op)
    (fun more => ⟨more, .inl rfl⟩) ⟨_, .inr rfl⟩ (hend _)).bind ?_)
  rw [← length_map (Declaration.relocate nowhere)] at htakes
  refine (reads_assignOp htakes _).bind (.advance (by simp) ?_)
  exact (reads_expressionList hvalue (stops_newline ts) (.cons rfl)).bind (.spanFrom .pure)

/-- A line that starts as an expression starts no other simple statement than an assignment. -/
theorem reads_simpleStatement (hhead : Heads startsExpression ts) (h : Reads (do
      if ← startsAssignment then return .assign (← assignment)
      else return ofExpressions (← expressionList)) ts rest s) : Reads simpleStatement
        ts rest s := by
  refine .peekHeads hhead fun kind hkind => ?_
  split
  · cases hkind
  · cases hkind
  · cases hkind
  · cases hkind
  · exact h

theorem reads_lineHasAssignment (ts : List Kind) :
    Reads (do return (← MonadState.get).stream.lineHasAssignment) ts ts (assigns 0 ts) := by
  refine .get fun r hr => ?_
  rw [lineHasAssignment_eq_assigns hr]
  exact .pure

/-- A line without an assignment is not taken for one. -/
theorem reads_startsAssignment_of_not (hne : ts ≠ []) (h : assigns 0 ts = false) :
    Reads startsAssignment ts ts false := by
  have hlook := reads_lineHasAssignment ts
  rw [h] at hlook
  cases ts with
  | nil => exact absurd rfl hne
  | cons k ts =>
    refine .peek ?_
    split
    · exact hlook
    · exact hlook
    · exact .pure

/-- A name and an assignment further on start an assignment. -/
theorem reads_startsAssignment_ofWord {name : String} (hname : isPlainName name)
    (h : assigns 0 (.ofWord name :: ts)) :
    Reads startsAssignment (.ofWord name :: ts) (.ofWord name :: ts) true := by
  have hlook := reads_lineHasAssignment (.ofWord name :: ts)
  rw [h] at hlook
  rcases ofWord_of_isPlainName hname with ⟨hkind, -⟩ | ⟨hkind, -⟩
  · rw [hkind] at hlook ⊢
    exact .peek hlook
  · rw [hkind] at hlook ⊢
    exact .peek hlook

/-- A token that starts a statement without a block. -/
def startsLine (kind : Kind) : Bool :=
  startsExpression kind || kind.isKeyword .returnKw || kind.isKeyword .passKw ||
    kind.isKeyword .breakKw || kind.isKeyword .continueKw

theorem startsLine_of_startsExpression {kind : Kind} (h : startsExpression kind) :
    startsLine kind := by
  simp [startsLine, h]

/-- A statement without a block is read up to the end of its line. -/
structure ReadsLine (s : Statement) : Prop where
  reads : ∀ ts, Reads simpleStatement (s.kinds ++ ts) (.newline :: ts) (s.relocate nowhere)
  heads : Heads startsLine s.kinds

theorem readsLine_assign {a : Assignment} (h : a.isWellFormed) : ReadsLine (.assign a) := by
  -- the first token is the name of the first target
  obtain ⟨name, more, hname, hkinds⟩ : ∃ name more, isPlainName name ∧
      a.kinds = .ofWord name :: more := by
    obtain ⟨targets, op, value, span⟩ := a
    cases targets with
    | nil => cases op <;> cases h
    | cons d targets =>
      simp only [Assignment.isWellFormed, Declaration.isWellFormed, Bool.and_eq_true, all_cons] at h
      rw [Assignment.kinds, withCommas_cons, Declaration.kinds]
      exact ⟨d.name, _, h.1.2.1.1.1, rfl⟩
  have hhead : ∀ ts, Heads startsExpression (.ofWord name :: ts) :=
    fun ts => (heads_ofWord hname ts).mono fun _ hkind => (Bool.and_eq_true_iff.mp hkind).1
  refine ⟨fun ts => ?_, ?_⟩
  · have hreads := reads_assignment h ts
    have hassigns := assigns_assignment a (.newline :: ts)
    rw [Statement.kinds, ← append_cons]
    rw [hkinds, cons_append] at hreads hassigns ⊢
    refine reads_simpleStatement (hhead _) ?_
    exact (reads_startsAssignment_ofWord hname hassigns).bind (hreads.bind .pure)
  · rw [Statement.kinds, hkinds]
    exact (hhead _).mono fun _ => startsLine_of_startsExpression

theorem reads_ofExpressions (h : Expression.isWellFormedList es) :
    ∀ ts, Reads simpleStatement (Expression.listKinds es ++ .newline :: ts) (.newline :: ts)
      ((ofExpressions es).relocate nowhere) := by
  intro ts
  have hhead := (heads_listKinds h).append (.newline :: ts)
  rw [← ofExpressions_relocate]
  refine reads_simpleStatement hhead ?_
  refine (reads_startsAssignment_of_not hhead.ne_nil (assigns_expressions es ts)).bind ?_
  exact (reads_expressionList h (stops_newline ts) (.cons rfl)).bind .pure

theorem readsLine_expressions (h : Expression.isWellFormedList es)
    (hsuper : isLoneSuperCall es = false) :
    ReadsLine (.expressions es) := by
  have hstatement : ofExpressions es = .expressions es := by
    unfold ofExpressions
    split
    · cases hsuper
    · rfl
  refine ⟨fun ts => ?_, ?_⟩
  · rw [Statement.kinds, ← append_cons, ← hstatement]
    exact reads_ofExpressions h ts
  · exact ((heads_listKinds h).append _).mono fun _ => startsLine_of_startsExpression

theorem readsLine_superCall {call : SuperCall} (h : call.isWellFormed) :
    ReadsLine (.superCall call) := by
  have hlist : Expression.isWellFormedList [⟨.primary ⟨.super call, [], {}⟩, {}⟩] := by
    simp [Expression.isWellFormedList, Expression.isWellFormed, Expr.isWellFormed,
      Primary.isWellFormed, Atom.isWellFormed, Trailer.areWellFormed, takesCall, h]
  have hkinds : Expression.listKinds [⟨.primary ⟨.super call, [], {}⟩, {}⟩] = call.kinds :=
    append_nil _
  refine ⟨fun ts => ?_, ?_⟩
  · rw [Statement.kinds, ← append_cons, ← hkinds]
    exact reads_ofExpressions hlist ts
  · rw [Statement.kinds, ← hkinds]
    exact ((heads_listKinds hlist).append _).mono fun _ => startsLine_of_startsExpression

/-- Whether a statement is not a line but has a block. -/
def hasBlock : Statement → Bool
  | .function _ | .classDef _ | .conditional _ | .forLoop .. | .whileLoop .. => true
  | _ => false

/-- A statement without a block is read from its line. -/
theorem readsLine_of_isWellFormed (h : s.isWellFormed) (hline : hasBlock s = false) :
    ReadsLine s := by
  cases s with
  | assign a => exact readsLine_assign h
  | superCall call => exact readsLine_superCall h
  | returns value span =>
    have hreads := reads_returns h span
    cases value with
    | none | some es => exact ⟨fun ts => .peek (hreads ts), .cons rfl⟩
  | expressions list =>
    simp only [Statement.isWellFormed, Bool.and_eq_true, Bool.not_eq_true'] at h
    exact readsLine_expressions h.1 h.2
  | function | classDef | conditional | forLoop | whileLoop =>
    cases hline
  | pass | breaks | continues =>
    exact ⟨fun ts => .peek (.advance (by simp) .pure), .cons rfl⟩

/-! ## Blocks -/

/-- A token that starts a statement: it ends no block and no program, and continues no condition. -/
def startsStatement (kind : Kind) : Bool :=
  !kind.isDedent && !kind.isEnd && (!kind.isKeyword .elifKw && !kind.isKeyword .elseKw)

theorem startsStatement_of_startsLine {kind : Kind} (h : startsLine kind) :
    startsStatement kind := by
  cases kind with
  | keyword word => cases word <;> first | rfl | cases h
  | dedent | endOfInput => cases h
  | _ => rfl

/-- The tokens behind a statement continue no condition. -/
def EndsStatement (ts : List Kind) : Prop :=
  Heads (fun kind => !kind.isKeyword .elifKw && !kind.isKeyword .elseKw) ts

theorem heads_statement (h : s.isWellFormed ∨ ∃ c, s = .classDef c) :
    Heads startsStatement s.kinds := by
  rcases h with h | ⟨⟨name, superclass, body, attributes, span⟩, rfl⟩
  · cases hblock : hasBlock s with
    | false => exact (readsLine_of_isWellFormed h hblock).heads.mono fun _ =>
      startsStatement_of_startsLine
    | true =>
      cases s with
      | function definition =>
        obtain ⟨name, parameters, returnHint, body, span⟩ := definition
        exact .cons rfl
      | classDef c => cases h
      | conditional | forLoop | whileLoop => exact .cons rfl
      | _ => cases hblock
  · exact .cons rfl

/-- A step inside a block. -/
theorem Reads.nested {α β : Type} {x : Read α} {f : α → Read β} {mid : List Kind} {a : α} {b : β}
    (hx : Reads x ts mid a) (hf : Reads (f a) mid rest b) : Reads (do
      modify fun r => { r with blockDepth := r.blockDepth + 1 }
      let a ← x
      modify fun r => { r with blockDepth := r.blockDepth - 1 }
      f a) ts rest b := by
  intro r hr
  obtain ⟨r', hrun, hbefore, hregistry, hdepth⟩ :=
    hx { r with blockDepth := r.blockDepth + 1 } ⟨hr.tokens, hr.stop, hr.last⟩
  obtain ⟨r'', hrun', hbefore', hregistry', hdepth'⟩ :=
    hf { r' with blockDepth := r'.blockDepth - 1 } ⟨hbefore.tokens, hbefore.stop, hbefore.last⟩
  refine ⟨r'', (bind_eq_of_ok hrun).trans hrun', hbefore', hregistry'.trans hregistry, ?_⟩
  rw [hdepth', hdepth]
  rfl

section Inner

variable {inner : Read Statement}

/-- A statement is read unless a further branch of a condition follows. -/
def ReadsStatement (item : Read Statement) (s : Statement) : Prop :=
  ReadsItem item (Statement.relocate nowhere) Statement.kinds EndsStatement s

/-- A block whose statements are read. -/
structure ReadsBlock (inner : Read Statement) (body : List Statement) : Prop where
  reads : ∀ s ∈ body, ReadsStatement inner s
  heads : ∀ s ∈ body, Heads startsStatement s.kinds

variable {body : List Statement}

theorem ReadsBlock.block (h : ReadsBlock inner body) (ts : List Kind) :
    Reads (blockWith inner) (.newline :: .indent :: (Statement.allKinds body ++ .dedent :: ts)) ts
      (Statement.relocateAll nowhere body) := by
  rw [Statement.allKinds_eq_flatMap, Statement.relocateAll_eq_map]
  refine (reads_expect (by simp) rfl _).discardBind ?_
  refine (reads_expect (by simp) rfl _).discardBind ?_
  refine Reads.nested (reads_many h.reads
    (fun s hs => (h.heads s hs).mono fun _ hkind => (Bool.and_eq_true_iff.mp hkind).1)
    (fun s hs more => ((h.heads s hs).append more).mono fun _ hkind =>
      (Bool.and_eq_true_iff.mp hkind).2)
    (.cons rfl) (.cons rfl)) ?_
  exact (reads_expect (by simp) rfl _).discardBind .pure

theorem reads_function {f : FunctionDef} (hname : isPlainName f.name)
    (hparameters : f.parameters.all Parameter.isWellFormed)
    (hhint : f.returnHint.all TypeHint.isWellFormed) (hbody : ReadsBlock inner f.body)
    (ts : List Kind) :
    Reads (functionWith inner) (f.kinds ++ ts) ts (f.relocate nowhere) := by
  obtain ⟨name, parameters, returnHint, body, span⟩ := f
  simp only [FunctionDef.kinds, cons_append, append_assoc, nil_append]
  refine .location ((reads_expectKeyword .defKw _).discardBind ?_)
  refine (reads_expectName hname _).bind ((reads_parameters hparameters _).bind ?_)
  refine (reads_typeHintBehind hhint (.cons rfl)).bind ?_
  refine (reads_expectDelimiter .colon _).discardBind ?_
  exact (hbody.block ts).bind (.spanFrom .pure)

theorem reads_forLoop {target : String} (hname : isPlainName target) {iterable : List Expression}
    (hiterable : Expression.isWellFormedList iterable) (hbody : ReadsBlock inner body) (span : Span)
    (ts : List Kind) :
    Reads (forWith inner) (Statement.kinds (.forLoop target iterable body span) ++ ts) ts
      (Statement.relocate nowhere (.forLoop target iterable body span)) := by
  simp only [Statement.kinds, cons_append, append_assoc, nil_append]
  refine .location ((reads_expectKeyword .forKw _).discardBind ?_)
  refine (reads_expectName hname _).bind ((reads_expectKeyword .inKw _).discardBind ?_)
  refine (reads_expressionList hiterable (stops_delimiter rfl _) (.cons rfl)).bind ?_
  refine (reads_expectDelimiter .colon _).discardBind ?_
  exact (hbody.block ts).bind (.spanFrom .pure)

theorem reads_whileLoop {condition : Expression} (hcondition : condition.isWellFormed)
    (hbody : ReadsBlock inner body) (span : Span) (ts : List Kind) :
    Reads (whileWith inner) (Statement.kinds (.whileLoop condition body span) ++ ts) ts
      (Statement.relocate nowhere (.whileLoop condition body span)) := by
  simp only [Statement.kinds, cons_append, append_assoc, nil_append]
  refine .location ((reads_expectKeyword .whileKw _).discardBind ?_)
  refine ((reads_expression hcondition).reads _ (stops_delimiter rfl _)).bind ?_
  refine (reads_expectDelimiter .colon _).discardBind ?_
  exact (hbody.block ts).bind (.spanFrom .pure)

/-! ## Statements -/

/-- A statement without a block is read with the end of its line. -/
theorem ReadsLine.readsStatement (h : ReadsLine s) : ReadsStatement (statementWith inner) s := by
  intro ts _
  have hreads : Reads (do
      let simple ← simpleStatement
      discard (expect Kind.isNewline "end of line")
      return simple) (s.kinds ++ ts) ts (s.relocate nowhere) :=
    (h.reads ts).bind ((reads_expect (by simp) rfl ts).discardBind .pure)
  refine .peekHeads (h.heads.append ts) fun kind hkind => ?_
  split
  · cases hkind
  · cases hkind
  · cases hkind
  · cases hkind
  · cases hkind
  · exact hreads

end Inner

theorem ReadsStatement.of_statementWith (h : ReadsStatement (statementWith statement) s) :
    ReadsStatement statement s := by
  intro ts hts r hr
  rw [statement_eq (isEnded_of_before hr)]
  exact h ts hts r hr

mutual

/-- A statement that may stand in a block is read back from its tokens. -/
theorem reads_statement : ∀ {s : Statement}, s.isWellFormed → ReadsStatement statement s
  | .function ⟨name, parameters, returnHint, body, span⟩, h => by
    simp only [Statement.isWellFormed, FunctionDef.isWellFormed, Bool.and_eq_true] at h
    obtain ⟨⟨⟨hname, hparameters⟩, hhint⟩, hbody⟩ := h
    have hreads :=
      reads_function (f := ⟨name, parameters, returnHint, body, span⟩) hname hparameters hhint
      (reads_body hbody)
    exact .of_statementWith fun ts _ => .peek ((hreads ts).bind .pure)
  | .classDef _, h => absurd h Bool.false_ne_true
  | .conditional branch, h => by
    refine .of_statementWith fun ts hts => ?_
    have hbranch : Reads (conditionalWith statement) (.keyword .ifKw :: (branch.kinds ++ ts)) ts
        (branch.relocate nowhere) := by
      refine (reads_expectKeyword .ifKw _).discardBind (.remaining ?_)
      exact reads_conditional h (by simp) ts hts
    exact .peek (hbranch.bind .pure)
  | .forLoop target iterable body span, h => by
    simp only [Statement.isWellFormed, Bool.and_eq_true] at h
    exact .of_statementWith fun ts _ => .peek (reads_forLoop h.1.1 h.1.2 (reads_body h.2) span ts)
  | .whileLoop condition body span, h => by
    simp only [Statement.isWellFormed, Bool.and_eq_true] at h
    exact .of_statementWith fun ts _ => .peek (reads_whileLoop h.1 (reads_body h.2) span ts)
  | .assign _, h | .superCall _, h | .returns _ _, h | .pass, h | .breaks, h | .continues,
    h | .expressions _, h =>
    .of_statementWith (readsLine_of_isWellFormed h rfl).readsStatement

theorem reads_body :
    ∀ {body : List Statement}, Statement.areWellFormed body → ReadsBlock statement body
  | [], _ => ⟨forall_mem_nil _, forall_mem_nil _⟩
  | s :: body, h => by
    simp only [Statement.areWellFormed, Bool.and_eq_true] at h
    have hbody := reads_body h.2
    exact ⟨forall_mem_cons.mpr ⟨reads_statement h.1, hbody.reads⟩,
      forall_mem_cons.mpr ⟨heads_statement (.inl h.1), hbody.heads⟩⟩

/-- The number of branches in a row is bounded by that of their tokens. -/
theorem reads_conditional : ∀ {branch : Conditional}, branch.isWellFormed → ∀ {bound : Nat},
    branch.kinds.length ≤ bound →
      ReadsItem (conditionalWithin statement bound) (Conditional.relocate nowhere) Conditional.kinds
        EndsStatement branch
  | ⟨condition, body, otherwise, span⟩, h, bound, hbound => by
    simp only [Conditional.isWellFormed, Bool.and_eq_true] at h
    simp only [Conditional.kinds, length_append, length_cons] at hbound
    obtain ⟨bound, rfl⟩ : ∃ n, bound = n + 1 := ⟨bound - 1, by omega⟩
    intro ts hts
    simp only [Conditional.kinds, cons_append, append_assoc]
    refine .location (((reads_expression h.1.1).reads _ (stops_delimiter rfl _)).bind ?_)
    refine (reads_expectDelimiter .colon _).discardBind (((reads_body h.1.2).block _).bind ?_)
    match otherwise, h.2 with
    | .nothing, _ =>
      refine .peekHeads hts fun kind hkind => ?_
      split
      · cases hkind
      · cases hkind
      · exact .bind .pure (.spanFrom .pure)
    | .elseIf branch, hbranch =>
      have hlength : branch.kinds.length ≤ bound := by
        rw [Otherwise.kinds, length_cons] at hbound
        omega
      have hreads := reads_conditional hbranch hlength ts hts
      exact .peek (.advance (by simp) ((hreads.map Otherwise.elseIf).bind (.spanFrom .pure)))
    | .block other, hother =>
      simp only [Otherwise.kinds, cons_append, append_assoc, nil_append]
      refine .peek (.advance (by simp) ((reads_expectDelimiter .colon _).discardBind ?_))
      exact (((reads_body hother).block ts).map Otherwise.block).bind (.spanFrom .pure)

end

end Reader

end Offside
