import Offside.Proofs.Class.Ancestors
import Offside.Proofs.Reader.SimpleRelocation
import Offside.Proofs.Reader.WellFormed
import Offside.Proofs.Tree.Classes
import Offside.Reader.Program

/-!
# Programs that are read

What holds of expressions holds of types, statements and classes: what is read from tokens with
names of their kinds is well-formed.  A text has such tokens, so its program is well-formed
(`wellFormed_of_readProgram`).

A class is registered where it is defined, and it is defined outside all blocks.  Whatever the
tokens are, what is read inside a block defines no class and leaves the registry alone.  So the
registry holds the classes that the statements of the program define, in order
(`registers_of_readProgram`).
-/

namespace Offside

open List

variable {c : ClassDef} {statements : List Statement} {names : NameTable} {p : Program}
  {text : String}

namespace Reader

variable {lexical : Prop} {t : Terms}

/-! ## Types and parameters -/

/-- What is read does not depend on the bound on the depth, if that is large enough for the tokens
that are left. -/
theorem builds_typeHintWithin {depth depth' : Nat} (h : t.bound ≤ depth) (h' : t.bound ≤ depth') :
    Builds t (t.named → ·.isWellFormed) (typeHintWithin depth) (typeHintWithin depth') := by
  induction depth generalizing t depth' with
  | zero => exact fun r _ hr => absurd hr.bound_pos (Nat.not_lt_of_le h)
  | succ depth ih =>
    cases depth' with
    | zero => exact fun r _ hr => absurd hr.bound_pos (Nat.not_lt_of_le h')
    | succ depth' =>
      have hlower : Builds t.lower (t.named → ·.isWellFormed) (typeHintWithin depth)
          (typeHintWithin depth') :=
        ih (Nat.sub_le_of_le_add h) (Nat.sub_le_of_le_add h')
      have hend (start : Location) {name : String} (hname : t.named →
        (isPlainName name || name == "None"))
          {arguments : List TypeHint} (harguments : t.named → TypeHint.areWellFormed arguments) :
          Builds t.lower (t.named → ·.isWellFormed)
            (do return (⟨name, arguments, ← spanFrom start⟩ : TypeHint)) :=
        (builds_spanFrom _).andThen fun _ => builds_pure fun hasked =>
          Bool.and_eq_true_iff.mpr ⟨hname hasked, harguments hasked⟩
      let behind (depth : Nat) (start : Location) (name : String) : Read TypeHint := do
        Functor.discard advance
        let arguments ←
          if ← eat .bracketOpen then do
            let arguments ← commaSeparated (typeHintWithin depth)
            Functor.discard (expectDelimiter .bracketClose)
            pure arguments
          else pure []
        return ⟨name, arguments, ← spanFrom start⟩
      have harguments (start : Location) {kind : Kind} (hindent : kind.isIndent = false)
        (hlast : kind.isEnd = false)
          {name : String} (hname : t.named → (isPlainName name || name == "None")) :
          Relates t (fun r hint r' => Keeps False 0 r r' ∧ (t.named → hint.isWellFormed))
            (behind depth start name)
            (behind depth' start name) (·.stream.peek = kind) := by
        refine builds_advance hindent hlast ((builds_eat _).andThen fun _ =>
          .ite (fun _ => ?_) fun _ => ?_)
        · exact (builds_commaSeparated hlower).bind fun arguments harguments =>
            (builds_expectDelimiter _).andThen fun _ =>
              relates_pure_bind (hend start hname fun hasked =>
              TypeHint.areWellFormed_iff.mpr fun hint hhint => harguments.2 hint hhint hasked)
        · exact relates_pure_bind (hend start hname fun _ => rfl)
      refine builds_location.andThen fun start => relates_peek fun kind hkind => ?_
      cases kind with
      | identifier name =>
        exact harguments start rfl rfl fun hasked =>
          Bool.or_eq_true_iff.mpr (.inl (isPlainName_of_identifier (hkind hasked)))
      | function name =>
        exact harguments start rfl rfl fun hasked =>
          Bool.or_eq_true_iff.mpr (.inl (isPlainName_of_function (hkind hasked)))
      | keyword word =>
        cases word with
        | noneKw => exact harguments start rfl rfl fun _ => rfl
        | _ => exact (relates_unexpected (by decide)).refused
      | _ => exact (relates_unexpected (by decide)).refused

theorem builds_typeHint : Builds t (t.named → ·.isWellFormed) typeHint :=
  relates_remaining fun _ _ => builds_typeHintWithin (Nat.le_refl _) (Nat.le_refl _)

theorem builds_typeHintBehind (d : Delimiter) :
    Builds t (t.named → Option.all TypeHint.isWellFormed ·) (typeHintBehind d) :=
  (builds_eat d).andThen fun _ => .ite (fun _ => builds_typeHint.bind fun _ h => builds_pure h)
    fun _ => builds_pure fun _ => rfl

theorem builds_parameter : Builds t (t.named → ·.isWellFormed) parameter := by
  have hend (start : Location) {name : String} (hname : t.named → isPlainName name)
    {hint : Option TypeHint}
      (hhint : t.named → hint.all TypeHint.isWellFormed) {default : Option Expression}
      (hdefault : t.named → default.all Expression.isWellFormed) :
      Builds t (t.named → ·.isWellFormed)
        (do return (⟨name, hint, default, ← spanFrom start⟩ : Parameter)) :=
    (builds_spanFrom _).andThen fun _ => builds_pure fun hasked => by
      simp [Parameter.isWellFormed, hname hasked, hhint hasked, hdefault hasked]
  refine builds_location.andThen fun start => (builds_expectName (by decide)).bind fun name hname =>
    (builds_typeHintBehind _).bind fun hint hhint => (builds_eat _).andThen fun _ =>
      .ite (fun _ => ?_) fun _ => ?_
  · exact (builds_expression.map (f := some) (Q := (t.named → Option.all Expression.isWellFormed ·))
      fun _ he => he).bind fun _ h => hend start hname hhint h
  · exact relates_pure_bind (hend start hname hhint fun _ => rfl)

theorem builds_parameters : Builds t (t.named → List.all · Parameter.isWellFormed) parameters :=
  (builds_bracketed builds_parameter _ _ (by decide)).imp fun _ h hasked =>
    all_eq_true.mpr fun parameter hparameter => h parameter hparameter hasked

/-! ## Statements without blocks -/

/-- A statement that may stand in a block: it defines no class, and if it is asked that names are of
their kinds it is well-formed. -/
def IsInner (lexical : Prop) (s : Statement) : Prop :=
  s.isClassFree = true ∧ (lexical → s.isWellFormed = true)

/-- A statement without a block. -/
def IsSimple (lexical : Prop) (s : Statement) : Prop := IsInner lexical s ∧ s.hasEmptyBlock = false

theorem builds_expressionList :
    Builds t (t.named → Expression.isWellFormedList ·) expressionList := by
  refine (builds_commaSeparated builds_expression).imp fun list hlist hasked => ?_
  simp only [Expression.isWellFormedList, Bool.and_eq_true, all_eq_true]
  exact ⟨by simp [hlist.1], fun e he => hlist.2 e he hasked⟩

theorem builds_returnStatement : Builds t (IsSimple t.named) returnStatement := by
  have hend (start : Location) {value : Option (List Expression)}
      (hvalue : t.named → value.all Expression.isWellFormedList) :
      Builds t (IsSimple t.named) (do return Statement.returns value (← spanFrom start)) :=
    (builds_spanFrom _).andThen fun _ => builds_pure ⟨⟨rfl, hvalue⟩, rfl⟩
  refine builds_location.andThen fun start => (builds_expectKeyword _).andThen fun _ =>
    relates_peek fun _ _ => .whatever (.ite (fun _ => ?_) fun _ => ?_)
  · exact (builds_expressionList.map (f := some)
      (Q := (t.named → Option.all Expression.isWellFormedList ·))
      fun _ h => h).bind fun _ h => hend start h
  · exact relates_pure_bind (hend start fun _ => rfl)

theorem builds_declaration : Builds t (t.named → ·.isWellFormed) declaration := by
  refine builds_location.andThen fun _ => (builds_expectName (by decide)).bind fun name hname =>
    (builds_many builds_trailerWith _).bind fun accesses haccesses =>
      (builds_typeHintBehind _).bind fun hint hhint => (builds_spanFrom _).andThen fun _ =>
        builds_pure fun hasked => ?_
  simp [Declaration.isWellFormed, hname hasked, hhint hasked,
    Trailer.areWellFormed_iff.mpr fun t ht => haccesses t ht hasked]

/-- The operator of an assignment is looked at, and then passed. -/
theorem builds_assignOp {targets : Nat} (htargets : targets ≠ 0) {β : Type} {Q : β → Prop}
    {f : AssignOp → Read β} (hf : ∀ op, op.takes targets → Builds t.lower Q (f op)) : Builds t Q (do
      let op ← assignOp targets
      Functor.discard advance
      f op) := by
  let Found (r : Reader) (op : AssignOp) (r' : Reader) : Prop :=
    r' = r ∧ (∃ d, r.stream.peek = .delimiter d) ∧ op.takes targets
  have hlook : Relates t Found (assignOp targets) := by
    refine relates_peek fun kind _ => ?_
    have hother : Relates t Found (unexpected "'=' or an augmented assignment")
        (G := (·.stream.peek = kind)) :=
      relates_unexpected (by decide)
    cases kind with
    | delimiter d =>
      cases d with
      | assign =>
        exact fun r hpeek _ =>
          .ok ⟨suffix_refl _, rfl, ⟨_, hpeek⟩, by simpa [AssignOp.takes] using htargets⟩
      | augmented op =>
        refine .ite (fun hone r hpeek _ => .ok ⟨suffix_refl _, rfl, ⟨_, hpeek⟩, ?_⟩) fun _ r _ _ =>
          .error fun _ => ?_
        · simpa [AssignOp.takes] using hone
        · have hcause : Target.isPrintable GrammarCause.invalidAugmentedTarget.message := by decide
          exact isPrintable_join (by decide) (isPrintable_located hcause _)
      | _ => exact hother
    | _ => exact hother
  refine fun r _ hr => (hlook r trivial hr).bind fun op mid ⟨_, hmid, ⟨d, hpeek⟩, hop⟩ => ?_
  subst hmid
  exact builds_advance (by rfl) (by rfl) (hf op hop) mid hpeek hr

theorem builds_assignment : Builds t (t.named → ·.isWellFormed) assignment := by
  refine builds_location.andThen fun _ => (builds_commaSeparated builds_declaration).bind
    fun targets htargets => builds_assignOp (mt length_eq_zero_iff.mp htargets.1) fun op hop =>
      builds_expressionList.bind fun value hvalue => (builds_spanFrom _).andThen fun _ =>
        builds_pure fun hasked => ?_
  simp only [Assignment.isWellFormed, Bool.and_eq_true, all_eq_true]
  exact ⟨⟨hop, fun d hd => htargets.2 d hd hasked⟩, hvalue hasked⟩

theorem isWellFormed_ofExpressions {list : List Expression} (h : Expression.isWellFormedList list) :
    (ofExpressions list).isWellFormed := by
  unfold ofExpressions
  split
  · rename_i call _ _
    simpa [Statement.isWellFormed, Expression.isWellFormedList, Expression.isWellFormed,
      Expr.isWellFormed,
      Primary.isWellFormed, Atom.isWellFormed, Trailer.areWellFormed, takesCall] using h
  · rename_i hother
    refine Bool.and_eq_true_iff.mpr ⟨h, ?_⟩
    unfold isLoneSuperCall
    split
    · exact absurd rfl (hother _ _ _)
    · rfl

theorem isClassFree_ofExpressions (list : List Expression) :
    (ofExpressions list).isClassFree ∧ (ofExpressions list).hasEmptyBlock = false := by
  unfold ofExpressions
  split <;> exact ⟨rfl, rfl⟩

theorem builds_simpleStatement : Builds t (IsSimple t.named) simpleStatement := by
  have hstarts : Builds t (fun _ => True) startsAssignment := by
    refine relates_peek fun kind _ => ?_
    cases kind with
    | identifier | function => exact (builds_look _).whatever
    | _ => exact (builds_pure trivial).whatever
  have hother : Builds t (IsSimple t.named) (do
      if ← startsAssignment then return Statement.assign (← assignment)
      else return ofExpressions (← expressionList)) := by
    refine hstarts.andThen fun isAssignment => .ite (fun _ => ?_) fun _ => ?_
    · exact builds_assignment.bind fun _ h => builds_pure ⟨⟨rfl, h⟩, rfl⟩
    · exact builds_expressionList.bind fun list h =>
        builds_pure ⟨⟨(isClassFree_ofExpressions list).1,
        fun hasked => isWellFormed_ofExpressions (h hasked)⟩, (isClassFree_ofExpressions list).2⟩
  refine relates_peek fun kind _ => ?_
  cases kind with
  | keyword word =>
    cases word with
    | returnKw => exact builds_returnStatement.whatever
    | passKw | breakKw | continueKw =>
      exact builds_advance rfl rfl (builds_pure ⟨⟨rfl, fun _ => rfl⟩, rfl⟩)
    | _ => exact hother.whatever
  | _ => exact hother.whatever

/-! ## Statements with blocks -/

/-- The statements of a block. -/
def AreInner (lexical : Prop) (body : List Statement) : Prop :=
  Statement.areClassFree body = true ∧ (lexical → Statement.areWellFormed body = true)

theorem areInner_of_forall {body : List Statement} (h : ∀ s ∈ body, IsInner lexical s) :
    AreInner lexical body :=
  ⟨Statement.areClassFree_iff.mpr fun s hs => (h s hs).1,
    fun hasked => Statement.areWellFormed_iff.mpr fun s hs => (h s hs).2 hasked⟩

/-- A class is registered between two states.  Its statements may stand in a block. -/
structure Registered (lexical : Prop) (r : Reader) (c : ClassDef) (r' : Reader) : Prop where
  classFree : Statement.areClassFree c.body = true
  wellFormed : lexical → c.WellFormed
  register : r.registry.register c = .ok r'.registry
  keeps : Keeps ((Statement.classDef c).hasEmptyBlock = true) 1
    { r with registry := r'.registry } r'

variable {r mid r' : Reader} {s : Statement}

theorem Keeps.withRegistry {E : Prop} {n : Nat} (h : Keeps E n r r') (registry : ClassRegistry) :
    Keeps E n { r with registry } { r' with registry } := ⟨rfl, h.blockDepth, h.passes⟩

theorem Registered.of_keeps (hkeeps : Keeps False 0 r mid) (h : Registered lexical mid c r') :
    Registered lexical r c r' :=
  { h with
    register := hkeeps.registry ▸ h.register
    keeps := h.keeps.behind (hkeeps.withRegistry _) }

/-- What the reading of a statement does: a class is registered outside all blocks, and any other
statement registers nothing. -/
inductive Enters (lexical : Prop) (r : Reader) : Statement → Reader → Prop
  | classDef {c : ClassDef} {r' : Reader} (houtside : r.blockDepth = 0)
    (h : Registered lexical r c r') :
    Enters lexical r (.classDef c) r'
  | other {s : Statement} {r' : Reader} (hs : IsInner lexical s)
    (hkeeps : Keeps (s.hasEmptyBlock = true) 1 r r') :
    Enters lexical r s r'

/-- Apart from the classes. -/
theorem Enters.keeps (h : Enters lexical r s r') :
    Keeps (s.hasEmptyBlock) 1 { r with registry := r'.registry } r' := by
  cases h with
  | classDef _ h => exact h.keeps
  | other _ hkeeps => exact hkeeps.withRegistry _

theorem Enters.of_keeps (hkeeps : Keeps False 0 r mid) (h : Enters lexical mid s r') :
    Enters lexical r s r' := by
  cases h with
  | classDef houtside h => exact .classDef (hkeeps.blockDepth ▸ houtside) (h.of_keeps hkeeps)
  | other hs hrest => exact .other hs (hrest.behind hkeeps)

/-- What the reading of some statements does. -/
inductive EntersAll (lexical : Prop) : Reader → List Statement → Reader → Prop
  | nil (r : Reader) : EntersAll lexical r [] r
  | cons {r mid r' : Reader} {s : Statement} {rest : List Statement}
    (hfirst : Enters lexical r s mid)
    (hrest : EntersAll lexical mid rest r') : EntersAll lexical r (s :: rest) r'

theorem EntersAll.keeps (h : EntersAll lexical r statements r') :
    Keeps (Statement.anyEmptyBlock statements)
    statements.length { r with registry := r'.registry } r' := by
  induction h with
  | nil r => exact (Keeps.refl r).imp (iff_of_false Bool.false_ne_true id) (Nat.le_refl 0)
  | @cons r mid r' s rest hfirst hrest ih =>
    refine ((hfirst.keeps.withRegistry r'.registry).trans ih).imp ?_
      (Nat.add_comm 1 _ ▸ Nat.le_refl _)
    rw [Statement.anyEmptyBlock, Bool.or_eq_true]

/-- Inside a block no class is registered. -/
theorem EntersAll.inside (h : EntersAll lexical r statements r') (hinside : 0 < r.blockDepth) :
    r'.registry = r.registry ∧ ∀ s ∈ statements, IsInner lexical s := by
  induction h with
  | nil r => exact ⟨rfl, forall_mem_nil _⟩
  | cons hfirst hrest ih =>
    cases hfirst with
    | classDef houtside => exact absurd houtside (Nat.pos_iff_ne_zero.mp hinside)
    | other hs hkeeps =>
      obtain ⟨hregistry, hall⟩ := ih (hkeeps.blockDepth ▸ hinside)
      exact ⟨hregistry.trans hkeeps.registry, forall_mem_cons.mpr ⟨hs, hall⟩⟩

/-- A step that reads a statement, if it succeeds. -/
abbrev IsEntry (t : Terms) (x : Read Statement) (y : Read Statement := x) : Prop :=
  Relates t (Enters t.named) x y

theorem Forms.isEntry {x y : Read Statement}
    (hx : Forms t (·.hasEmptyBlock) 1 (IsInner t.named) x y) :
    IsEntry t x y := hx.imp fun h => .other h.2 h.1

section Repetitions

variable {inner inner' : Read Statement} (hinner : IsEntry t inner inner')

include hinner

/-- Statements are read as long as one starts, and the bound is large enough for that. -/
theorem entersAll_manyWithin (starts : Kind → Bool) (bound : Nat) :
    Relates t (fun r statements r' =>
    EntersAll t.named r statements r' ∧
      (0 < bound → (statements = [] ↔ starts r.stream.peek = false)) ∧
      (r.stream.size ≤ bound → starts r'.stream.peek = false)) (manyWithin starts inner bound)
    (manyWithin starts inner' bound) := by
  induction bound with
  | zero =>
    refine relates_pure fun r => ⟨.nil r, fun h => absurd h (Nat.lt_irrefl 0), fun h => ?_⟩
    exact absurd h (Nat.not_le_of_lt (Nat.succ_pos _))
  | succ bound ih =>
    refine relates_peek fun kind _ => .ite (fun hstarts => ?_) fun hstarts r hpeek _ => ?_
    · refine fun r hpeek hr => (hinner r trivial hr).bind fun first mid ⟨hmid, hfirst⟩ => ?_
      refine (ih mid trivial (hr.of_append hmid.choose_spec.symm)).bind fun rest r'
        ⟨hr', hrest, _, hlast⟩ => ?_
      subst hpeek
      refine .ok ⟨hr'.trans hmid, .cons hfirst hrest, fun _ => ?_, fun hbound => hlast ?_⟩
      · exact iff_of_false (cons_ne_nil first rest) (Bool.not_eq_false _ ▸ hstarts)
      · obtain ⟨passed, hpassed, hlength, -⟩ := hfirst.keeps.passes
        have hcount := congrArg length hpassed
        simp only [TokenStream.toList, length_append, length_cons] at hcount
        simp only [TokenStream.size] at hbound ⊢
        omega
    · subst hpeek
      have hstarts := Bool.eq_false_iff.mpr hstarts
      exact .ok ⟨suffix_refl _, .nil r, fun _ => iff_of_true rfl hstarts, fun _ => hstarts⟩

theorem entersAll_many (starts : Kind → Bool) : Relates t (fun r statements r' =>
    EntersAll t.named r statements r' ∧ (statements = [] ↔ starts r.stream.peek = false) ∧
      starts r'.stream.peek = false) (many starts inner) (many starts inner') := fun r _ hr =>
  (entersAll_manyWithin hinner starts r.stream.size r trivial hr).imp fun _ _
    ⟨hr', hall, hempty, hlast⟩ =>
    ⟨hr', hall, hempty (Nat.succ_pos _), hlast (Nat.le_refl _)⟩

end Repetitions

/-- A block without statements starts at an indent that a dedent follows. -/
theorem moves_indent : Relates t (fun r _ r' => Keeps (r'.stream.peek.isDedent) 1 r r')
    (Functor.discard (expect Kind.isIndent "an indented block")) := by
  refine Relates.discard fun r _ hr =>
    (same_expect Kind.isIndent (by decide) hr).imp fun _ r' ⟨hkind, hr'⟩ => ?_
  subst hr'
  have hcurrent : r.stream.current.kind = .indent := by
    generalize hkinds : r.stream.peek = kind at hkind
    cases kind with
    | indent => exact hkinds
    | _ => cases hkind
  have hpassed := TokenStream.toList_advance hr.ended (by rw [TokenStream.peek, hcurrent]; rfl)
  have hdedent (kind : Kind) : kind.isDedent ↔
      Kind.dedent = kind := by cases kind <;> simp [Kind.isDedent]
  refine ⟨advance_suffix _, rfl, rfl, [r.stream.current], hpassed, Nat.le_refl 1, ?_⟩
  rw [IsHollow, hpassed, HasHollow, map_cons, hcurrent, infix_cons_iff, hdedent]
  simp [TokenStream.toList, TokenStream.peek, cons_prefix_cons, IsHollow, HasHollow]

section Blocks

variable {inner inner' : Read Statement} (hinner : IsEntry t.less inner inner')

include hinner

/-- Classes are refused inside a block, so all its statements may stand there. -/
theorem forms_blockWith : Forms t (fun body => (body.isEmpty || Statement.anyEmptyBlock body)) 1
    (AreInner t.named) (blockWith inner) (blockWith inner') := by
  have hdedent : ∀ kind : Kind, kind.isDedent → kind.isIndent = false ∧ kind.isEnd = false :=
    fun kind h => by
    cases kind with
    | dedent => exact ⟨rfl, rfl⟩
    | _ => cases h
  -- the statements of a block are read with a block more around
  let indented (inner : Read Statement) : Read (List Statement) := do
    modify fun r => { r with blockDepth := r.blockDepth + 1 }
    let statements ← many (fun kind => !kind.isDedent && !kind.isEnd) inner
    modify fun r => { r with blockDepth := r.blockDepth - 1 }
    Functor.discard (expect Kind.isDedent "end of the indented block")
    return statements
  have hbody : Relates t.less (fun r body r' => Keeps (Statement.anyEmptyBlock body) 0 r r' ∧
      (r.stream.peek.isDedent ↔ body.isEmpty) ∧ AreInner t.named body) (indented inner)
        (indented inner') := by
    intro r _ hr
    refine Same.bind (P := fun _ mid => mid = { r with blockDepth := r.blockDepth + 1 }) (.ok rfl)
      fun _ r₁ hr₁ => ?_
    subst hr₁
    refine Same.bind (entersAll_many hinner _ _ trivial hr) fun body r₂
      ⟨hsuffix, hall, hempty, _⟩ => ?_
    refine Same.bind (P := fun _ mid => mid = { r₂ with blockDepth := r₂.blockDepth - 1 }) (.ok rfl)
      fun _ r₃ hr₃ => ?_
    subst hr₃
    obtain ⟨hregistry, hinside⟩ := hall.inside (Nat.succ_pos _)
    have hkeeps : Keeps (Statement.anyEmptyBlock body) 0 r
        { r₂ with blockDepth := r₂.blockDepth - 1 } :=
      ⟨hregistry, congrArg (· - 1) hall.keeps.blockDepth,
        (hall.keeps.imp Iff.rfl (Nat.zero_le _)).passes⟩
    refine Same.bind
      (moves_expect hdedent (by decide) _ trivial (hr.of_append hsuffix.choose_spec.symm))
      fun _ r₄ ⟨hsuffix', hleaves, hlast⟩ => .ok ⟨hsuffix'.trans hsuffix,
        (hkeeps.trans hleaves).imp (or_iff_left id).symm (Nat.zero_le _),
          ⟨fun hnext => ?_, fun hfound => ?_⟩,
        areInner_of_forall hinside⟩
    · rw [List.isEmpty_iff, hempty, show r.stream.peek.isDedent = true from hnext]
      rfl
    · obtain rfl := isEmpty_iff.mp hfound
      cases hall
      exact hlast
  have hindented := moves_indent.bind (fun _ => hbody) (T := fun r body r' =>
    Keeps (body.isEmpty || Statement.anyEmptyBlock body) 1 r r' ∧ AreInner t.named body) fun h h' =>
      ⟨(h.trans h'.1).imp (by simp only [Bool.or_eq_true, h'.2.1]) (Nat.le_refl 1), h'.2.2⟩
  have hnewline : ∀ kind : Kind, kind.isNewline → kind.isIndent = false ∧ kind.isEnd = false :=
    fun kind h => by
    cases kind with
    | newline => exact ⟨rfl, rfl⟩
    | _ => cases h
  refine fun r _ hr =>
    Same.bind (moves_expect hnewline (by decide) r trivial hr) fun _ mid ⟨hmid, hkeeps, _⟩ => ?_
  obtain ⟨passed, hpassed, hone, -⟩ := hkeeps.passes
  refine (hindented mid trivial (hr.past hpassed (ne_nil_of_length_pos hone))).imp
    fun body r' ⟨hr', hbody, hinner⟩ => ?_
  exact ⟨hr'.trans hmid, hbody.behind hkeeps, hinner⟩

theorem forms_functionWith : Forms t (fun f => (Statement.function f).hasEmptyBlock) 1
    (fun f => IsInner t.named (.function f)) (functionWith inner) (functionWith inner') := by
  refine builds_location.andThen fun _ => (builds_expectKeyword _).andThen fun _ =>
    (builds_expectName (by decide)).bind fun name hname =>
      builds_parameters.bind fun parameters hparameters =>
      (builds_typeHintBehind _).bind fun hint hhint => (builds_expectDelimiter _).andThen fun _ =>
        (forms_blockWith hinner).andThen fun body hbody => (builds_spanFrom _).andThen fun _ =>
          builds_pure ⟨⟨hbody.1, fun hasked => ?_⟩, Iff.rfl⟩
  simp [Statement.isWellFormed, FunctionDef.isWellFormed, hname hasked,
    hparameters hasked, hhint hasked,
    hbody.2 hasked]

omit hinner in
/-- A condition is read with its branches, whatever bounds them. -/
theorem forms_conditionalWithin {t : Terms} (hinner : IsEntry t.less inner inner')
    {bound bound' : Nat} (h : t.bound ≤ bound) (h' : t.bound ≤ bound') : Forms t (·.hasEmptyBlock) 1
      (fun branch => IsInner t.named (.conditional branch)) (conditionalWithin inner bound)
      (conditionalWithin inner' bound') := by
  induction bound generalizing t bound' with
  | zero => exact fun r _ hr => absurd hr.bound_pos (Nat.not_lt_of_le h)
  | succ bound ih =>
    cases bound' with
    | zero => exact fun r _ hr => absurd hr.bound_pos (Nat.not_lt_of_le h')
    | succ bound' =>
      let IsOtherwise (otherwise : Otherwise) : Prop :=
        otherwise.isClassFree ∧ (t.named → otherwise.isWellFormed)
      have hless : IsEntry t.lower.less inner inner' := Relates.mono hinner (Nat.sub_le _ _)
      have hend (n : Nat) (start : Location) {condition : Expression} (hcondition : t.named →
        condition.isWellFormed)
          {body : List Statement} (hbody : AreInner t.named body)
            {otherwise otherwise' : Read Otherwise}
          (hotherwise : Forms { t with bound := n } (·.hasEmptyBlock) 0 IsOtherwise
            otherwise otherwise') :
          Forms { t with bound := n } (·.otherwise.hasEmptyBlock) 0 (fun branch =>
            IsInner t.named (.conditional branch) ∧ (branch.hasEmptyBlock ↔
              (body.isEmpty || Statement.anyEmptyBlock body) ∨ branch.otherwise.hasEmptyBlock))
            (do return (⟨condition, body, ← otherwise, ← spanFrom start⟩ : Conditional))
            (do return (⟨condition, body, ← otherwise', ← spanFrom start⟩ : Conditional)) :=
        hotherwise.andThen fun otherwise h => (builds_spanFrom _).andThen fun _ => builds_pure
          ⟨⟨⟨Bool.and_eq_true_iff.mpr ⟨hbody.1, h.1⟩, fun hasked => by
            simp [Statement.isWellFormed, Conditional.isWellFormed, hcondition hasked,
              hbody.2 hasked, h.2 hasked]⟩,
            Bool.or_eq_true_iff⟩, Iff.rfl⟩
      have hnothing : Forms t (·.hasEmptyBlock) 0 IsOtherwise (pure .nothing) :=
        relates_pure fun r =>
        ⟨(Keeps.refl r).imp (iff_of_false Bool.false_ne_true id) (Nat.le_refl 0), rfl, fun _ => rfl⟩
      refine builds_location.andThen fun start => builds_expression.bind fun condition hcondition =>
        (builds_expectDelimiter _).andThen fun _ => (forms_blockWith hinner).bind
          (D := (·.otherwise.hasEmptyBlock)) fun body hbody => relates_peek fun kind _ => ?_
      have hlast :=
        (hend t.bound start hcondition hbody hnothing).whatever (G := (·.stream.peek = kind))
      cases kind with
      | keyword word =>
        cases word with
        | elifKw =>
          exact builds_advance rfl rfl (hend _ start hcondition hbody (Relates.map
            (ih hless (Nat.sub_le_of_le_add h) (Nat.sub_le_of_le_add h')) fun h =>
              ⟨h.1.imp Iff.rfl (Nat.zero_le 1), h.2⟩))
        | elseKw =>
          exact builds_advance rfl rfl ((builds_expectDelimiter _).andThen fun _ =>
            hend _ start hcondition hbody
            (Relates.map (forms_blockWith hless) fun h => ⟨h.1.imp Iff.rfl (Nat.zero_le 1), h.2⟩))
        | _ => exact hlast
      | _ => exact hlast

theorem forms_forWith :
    Forms t (·.hasEmptyBlock) 1 (IsInner t.named) (forWith inner) (forWith inner') := by
  refine builds_location.andThen fun _ => (builds_expectKeyword _).andThen fun _ =>
    (builds_expectName (by decide)).bind fun target htarget =>
      (builds_expectKeyword _).andThen fun _ =>
      builds_expressionList.bind fun iterable hiterable =>
        (builds_expectDelimiter _).andThen fun _ =>
        (forms_blockWith hinner).andThen fun body hbody => (builds_spanFrom _).andThen fun _ =>
          builds_pure ⟨⟨hbody.1, fun hasked => ?_⟩, Iff.rfl⟩
  simp [Statement.isWellFormed, htarget hasked, hiterable hasked, hbody.2 hasked]

theorem forms_whileWith :
    Forms t (·.hasEmptyBlock) 1 (IsInner t.named) (whileWith inner) (whileWith inner') := by
  refine builds_location.andThen fun _ => (builds_expectKeyword _).andThen fun _ =>
    builds_expression.bind fun condition hcondition => (builds_expectDelimiter _).andThen fun _ =>
      (forms_blockWith hinner).andThen fun body hbody => (builds_spanFrom _).andThen fun _ =>
        builds_pure ⟨⟨hbody.1, fun hasked => ?_⟩, Iff.rfl⟩
  simp [Statement.isWellFormed, hcondition hasked, hbody.2 hasked]

end Blocks

/-! ### Classes -/

theorem builds_superclassName : Builds t (t.named → Option.all isPlainName ·) superclassName := by
  have hend {superclass : Option String} (h : t.named → superclass.all isPlainName) :
      Builds t (t.named → Option.all isPlainName ·) (do
        Functor.discard (expectDelimiter .parenClose)
        return superclass) :=
    (builds_expectDelimiter _).andThen fun _ => builds_pure h
  refine (builds_eat _).andThen fun _ => .ite (fun _ => ?_) fun _ => builds_pure fun _ => rfl
  refine relates_peek fun _ _ =>
    .whatever (.ite (fun _ => relates_pure_bind (hend fun _ => rfl)) fun _ => ?_)
  exact ((builds_expectName (by decide)).map (f := some) (Q := (t.named → Option.all isPlainName ·))
    fun _ h => h).bind fun _ h => hend h

/-- A class body is not refused when it holds members only, and no method of a name and a number of
parameters that it has already. -/
theorem checkClassBody_eq_ok_iff {className : String} {seen : List (String × Nat)}
    {body : List Statement} :
    checkClassBody className seen body = .ok () ↔
      body.all Statement.isMember ∧ (signatures body).Nodup ∧ ∀ s ∈ signatures body, s ∉ seen := by
  have hrefused {e : SemanticError} : ¬(Except.error e : Except SemanticError Unit) = .ok () :=
    fun h => by cases h
  fun_induction checkClassBody className seen body with
  | case1 => exact iff_of_true rfl ⟨rfl, nodup_nil, forall_mem_nil _⟩
  | case2 seen method rest hseen => exact iff_of_false hrefused fun h => h.2.2 _ mem_cons_self hseen
  | case3 seen method rest hnew ih =>
    have hsignatures : signatures (.function method :: rest) =
        (method.name, method.arity) :: signatures rest := rfl
    refine ih.trans ?_
    rw [hsignatures, nodup_cons, all_cons, Statement.isMember]
    grind
  | case4 seen rest ih => exact ih
  | case5 seen rest list hdoc _ _ ih =>
    refine ih.trans ?_
    rw [all_cons, Statement.isMember, hdoc]
    rfl
  | case6 seen rest list hdoc =>
    exact iff_of_false hrefused fun h => hdoc (Bool.and_eq_true_iff.mp h.1).1
  | case7 seen s rest hfunction hpass hexpressions =>
    refine iff_of_false hrefused fun h => ?_
    cases s with
    | function method => exact hfunction method rfl
    | pass => exact hpass rfl
    | expressions list => exact hexpressions list rfl
    | _ => exact absurd (Bool.and_eq_true_iff.mp h.1).1 Bool.false_ne_true

/-- An error in a class body repeats printable texts only. -/
theorem named_of_checkClassBody {className : String} (hname : isPlainName className)
    {seen : List (String × Nat)} {body : List Statement} (hbody : Statement.areWellFormed body)
    {e : SemanticError} (h : checkClassBody className seen body = .error e) : e.IsNamed := by
  have hdescribe (s : Statement) : Target.isPrintable s.describe := by
    unfold Statement.describe
    split <;> decide
  fun_induction checkClassBody className seen body with
  | case1 => cases h
  | case2 seen method rest =>
    cases h
    obtain ⟨name, parameters, returnHint, body, span⟩ := method
    simp only [Statement.areWellFormed, Statement.isWellFormed, FunctionDef.isWellFormed,
      Bool.and_eq_true] at hbody
    exact forall_mem_cons.mpr ⟨isPrintable_of_isPlainName hname,
      forall_mem_singleton.mpr (isPrintable_of_isPlainName hbody.1.1.1.1)⟩
  | case3 seen method rest hnew ih => exact ih (Bool.and_eq_true_iff.mp hbody).2 h
  | case4 seen rest ih => exact ih hbody h
  | case5 seen rest list hdoc _ _ ih => exact ih (Bool.and_eq_true_iff.mp hbody).2 h
  | case6 | case7 =>
    cases h
    exact forall_mem_singleton.mpr (hdescribe _)

theorem named_of_register {registry : ClassRegistry} (hname : isPlainName c.name)
    (hsuperclass : c.superclass.all isPlainName) {e : SemanticError}
    (h : registry.register c = .error e) :
    e.IsNamed := by
  have hname := isPrintable_of_isPlainName hname
  unfold ClassRegistry.register at h
  split at h
  · cases h
    exact forall_mem_singleton.mpr hname
  · split at h
    · rename_i superclass hfound
      cases h
      refine forall_mem_cons.mpr ⟨hname, forall_mem_singleton.mpr (isPrintable_of_isPlainName ?_)⟩
      rw [(Option.filter_eq_some_iff.mp hfound).1] at hsuperclass
      exact hsuperclass
    · cases h

theorem relates_registerClass (hc : t.named → c.WellFormed) : Relates t (fun r _ r' =>
    r.registry.register c = .ok r'.registry ∧ Keeps False 0 { r with registry := r'.registry } r')
    (registerClass c) := by
  intro r _ _
  rw [registerClass_eq]
  dsimp only
  split
  · exact .ok ⟨suffix_refl _, ‹_›, rfl, rfl, (Keeps.refl r).passes⟩
  · refine .error fun hasked => isPrintable_join (by decide) ?_
    exact (named_of_register (hc hasked).name (hc hasked).superclass ‹_›).message

section Classes

variable {inner inner' : Read Statement} (hinner : IsEntry t.less inner inner')

include hinner

/-- A class is registered outside all blocks, behind its body. -/
theorem enters_classWith :
    Relates t (fun r c r' => Enters t.named r (.classDef c) r') (classWith inner)
    (classWith inner') := by
  refine builds_location.relates .of_keeps fun start _ =>
    (builds_expectKeyword _).relates .of_keeps fun _ _ =>
    (builds_expectName (by decide)).relates .of_keeps fun name hname => relates_get fun s => ?_
  dsimp only
  refine .ite (fun _ => ?_) fun houtside => ?_
  · refine Relates.refused fun r _ _ => .error fun hasked => isPrintable_join (by decide) ?_
    exact SemanticError.IsNamed.message
      (forall_mem_singleton.mpr (isPrintable_of_isPlainName (hname hasked)))
  · refine Relates.guarded (R := Registered t.named)
      (builds_superclassName.relates .of_keeps fun superclass hsuperclass =>
      (builds_expectDelimiter _).relates .of_keeps fun _ _ =>
        (builds_spanFrom _).relates .of_keeps fun header _ =>
        Relates.bind (S := fun body r c r' => (c.body = body ∧ (t.named → c.WellFormed)) ∧
          r.registry.register c = .ok r'.registry ∧
            Keeps False 0 { r with registry := r'.registry } r')
          (forms_blockWith hinner) (fun {_ body _} hbody => ?_) fun {r body mid c r'} h h' => ?_)
      fun hs h => .classDef (hs ▸ Nat.eq_zero_of_not_pos houtside) h
    · replace hbody := hbody.2
      cases hcheck : checkClassBody name [] body with
      | error e =>
        exact relates_throw fun hasked => isPrintable_join (by decide)
          (named_of_checkClassBody (hname hasked) (hbody.2 hasked) hcheck).message
      | ok _ =>
        obtain ⟨hmembers, hsignatures, -⟩ := checkClassBody_eq_ok_iff.mp hcheck
        have hwell (hasked : t.named) : ClassDef.WellFormed
            ⟨name, superclass, body, attributesOfBody body, header⟩ :=
          ⟨hname hasked, hsuperclass hasked, hbody.2 hasked, hmembers, hsignatures, rfl⟩
        refine (builds_intern _).relates (fun hkeeps h => ?_) fun _ _ =>
          (relates_registerClass hwell).bind
          (S := fun _ r c r' => c = _ ∧ r' = r) (fun _ => relates_pure fun _ => ⟨rfl, rfl⟩)
            fun h h' => ?_
        · exact ⟨h.1, hkeeps.registry ▸ h.2.1, h.2.2.behind (hkeeps.withRegistry _)⟩
        · obtain ⟨rfl, rfl⟩ := h'
          exact ⟨⟨rfl, hwell⟩, h⟩
    · obtain ⟨⟨rfl, hwell⟩, hregister, hkeeps⟩ := h'
      obtain ⟨name, superclass, body, attributes, span⟩ := c
      exact ⟨h.2.1, hwell, h.1.registry ▸ hregister,
        ((h.1.withRegistry _).trans hkeeps).imp (or_iff_left id).symm (Nat.le_refl 1)⟩

end Classes

/-- A statement is read whole if those inside it are. -/
theorem isEntry_statementWith {named : Prop} {n : Nat} {inner inner' : Read Statement}
    (hinner : IsEntry ⟨named, .tokens, n, true⟩ inner inner') :
    IsEntry ⟨named, .tokens, n, false⟩ (statementWith inner) (statementWith inner') := by
  have hsimple : IsEntry ⟨named, .tokens, n, false⟩ (do
      let simple ← simpleStatement
      Functor.discard (expect Kind.isNewline "end of line")
      return simple) := by
    refine builds_simpleStatement.relates .of_keeps fun s hs =>
      (moves_expect (fun kind h => ?_) (by decide)).bind
      (S := fun _ r s' r' => s' = s ∧ r' = r) (fun _ => relates_pure fun _ => ⟨rfl, rfl⟩)
        fun h h' => ?_
    · cases kind with
      | newline => exact ⟨rfl, rfl⟩
      | _ => cases h
    · obtain ⟨rfl, rfl⟩ := h'
      exact .other hs.1 (h.1.imp (iff_of_false (Bool.not_eq_true _ ▸ hs.2) id) (Nat.le_refl 1))
  refine relates_peek fun kind _ => Relates.whatever ?_
  cases kind with
  | keyword word =>
    cases word with
    | defKw =>
      exact Forms.isEntry ((forms_functionWith hinner).andThen fun _ hf =>
      builds_pure ⟨hf, Iff.rfl⟩)
    | classKw =>
      refine (enters_classWith hinner).bind (S := fun c r s r' => s = .classDef c ∧ r' = r)
        (fun _ => relates_pure fun _ => ⟨rfl, rfl⟩) fun h h' => ?_
      obtain ⟨rfl, rfl⟩ := h'
      exact h
    | ifKw =>
      exact Forms.isEntry
        (Forms.andThen ((builds_expectKeyword _).andThen fun _ => relates_remaining fun m hle =>
        forms_conditionalWithin (Relates.mono hinner (m := m) (hle rfl)) (Nat.le_refl _)
          (Nat.le_refl _))
          fun _ hbranch => builds_pure ⟨hbranch, Iff.rfl⟩)
    | forKw => exact (forms_forWith hinner).isEntry
    | whileKw => exact (forms_whileWith hinner).isEntry
    | _ => exact hsimple
  | _ => exact hsimple

/-- What is read does not depend on the bound on the depth, if that is large enough for the tokens
that are left. -/
theorem isEntry_statementWithin {named : Prop} {n depth depth' : Nat} (h : n ≤ depth)
    (h' : n ≤ depth') :
    IsEntry ⟨named, .tokens, n, false⟩ (statementWithin depth) (statementWithin depth') := by
  induction n generalizing depth depth' with
  | zero => exact fun r _ hr => absurd hr.bound_pos (Nat.lt_irrefl 0)
  | succ n ih =>
    obtain ⟨depth, rfl⟩ := Nat.exists_eq_succ_of_ne_zero (Nat.ne_zero_of_lt h)
    obtain ⟨depth', rfl⟩ := Nat.exists_eq_succ_of_ne_zero (Nat.ne_zero_of_lt h')
    refine isEntry_statementWith fun r _ hr => ?_
    exact ih (Nat.le_of_succ_le_succ h) (Nat.le_of_succ_le_succ h') r trivial
      ⟨hr.ended, hr.named, Nat.le_of_succ_le_succ hr.bounded⟩

theorem isEntry_statement : IsEntry t statement :=
  relates_remaining fun _ _ => isEntry_statementWithin (Nat.le_refl _) (Nat.le_refl _)

/-- The bound on the depth of a statement is never met. -/
theorem statement_eq (h : r.stream.IsEnded) : statement r = statementWith statement r := by
  have hinner : IsEntry ⟨False, .tokens, r.stream.upcoming.length + 1, true⟩
      (statementWithin r.stream.upcoming.length) statement := fun r' _ hr' =>
    isEntry_statementWithin (Nat.le_of_succ_le_succ hr'.bounded) (Nat.le_refl _) r' trivial
      ⟨hr'.ended, hr'.named, Nat.le_refl _⟩
  exact (isEntry_statementWith hinner r trivial ⟨h, False.elim, Nat.le_refl _⟩).eq.symm

/-! ## Programs -/

/-- What stands outside all blocks. -/
def IsOutside (lexical : Prop) (s : Statement) : Prop :=
  s.IsOuter ∧ (lexical → s.isWellFormed = true ∨ ∃ c, s = .classDef c ∧ c.WellFormed)

/-- Outside all blocks, the classes among the statements are registered one behind the other. -/
theorem EntersAll.outside (h : EntersAll lexical r statements r') (houtside : r.blockDepth = 0) :
    r.registry.Registers (statements.filterMap Statement.class?) r'.registry ∧
      ∀ s ∈ statements, IsOutside lexical s := by
  induction h with
  | nil r => exact ⟨.nil, forall_mem_nil _⟩
  | cons hfirst hrest ih =>
    obtain ⟨hclasses, hall⟩ := ih (hfirst.keeps.blockDepth.trans houtside)
    cases hfirst with
    | @classDef c _ _ hclass =>
      exact ⟨.cons hclass.register hclasses, forall_mem_cons.mpr
        ⟨⟨.classDef hclass.classFree, fun hasked => .inr ⟨c, rfl, hclass.wellFormed hasked⟩⟩, hall⟩⟩
    | other hs hkeeps =>
      rw [filterMap_cons_none (Statement.class?_of_isClassFree hs.1), ← hkeeps.registry]
      exact ⟨hclasses,
        forall_mem_cons.mpr ⟨⟨.classFree hs.1, fun hasked => .inl (hs.2 hasked)⟩, hall⟩⟩

/-- The statements of a program are read up to the end of input. -/
theorem entersAll_program :
    Relates t (fun r p r' => ∃ mid, EntersAll t.named r p mid ∧ mid.registry = r'.registry ∧
    mid.stream = r'.stream ∧ r'.stream.peek.isEnd) program := by
  refine fun r _ hr => (entersAll_many isEntry_statement (!·.isEnd) r trivial hr).bind
    fun statements mid ⟨hmid, hall, _, hlast⟩ => .ok ⟨hmid, mid, hall, rfl, rfl, ?_⟩
  simpa using hlast

end Reader

section Tokens

variable {lexical : Prop} {tokens : List Token}

theorem Reader.fits_tokens (htokens : lexical → Token.areLexical tokens) :
    Reader.Fits ⟨lexical, .tokens, (TokenStream.ofTokens tokens).size, false⟩ (.ofTokens tokens) :=
  fits_ofTokens htokens (Nat.le_refl _)

theorem entersAll_of_readTokens (htokens : lexical → Token.areLexical tokens)
    (h : (readTokens tokens names).result = .ok p) :
    ∃ mid, Reader.EntersAll lexical (.ofTokens tokens names) p mid ∧
      mid.registry = (readTokens tokens names).registry ∧ mid.stream.peek.isEnd := by
  have hprogram :=
    Reader.entersAll_program (.ofTokens tokens names) trivial (Reader.fits_tokens htokens)
  unfold readTokens at h ⊢
  generalize Reader.program (.ofTokens tokens names) = outcome at h hprogram ⊢
  cases hprogram with
  | ok hread =>
    cases h
    obtain ⟨-, mid, hall, hregistry, hstream, hlast⟩ := hread
    exact ⟨mid, hall, hregistry, hstream ▸ hlast⟩
  | error => cases h

/-- The classes that are met in some tokens are those that the statements of their program define,
in order.  If the names in the tokens are of their kinds, the statements are well-formed. -/
theorem registers_of_readTokens (htokens : lexical → Token.areLexical tokens)
    (h : (readTokens tokens names).result = .ok p) :
    ClassRegistry.empty.Registers (p.filterMap Statement.class?)
      (readTokens tokens names).registry ∧
      ∀ s ∈ p, Reader.IsOutside lexical s := by
  obtain ⟨mid, hall, hregistry, -⟩ := entersAll_of_readTokens htokens h
  exact hregistry ▸ hall.outside rfl

end Tokens

theorem registers_of_text (h : (readProgram text names).result = .ok p) :
    ClassRegistry.empty.Registers (p.filterMap Statement.class?) (readProgram text names).registry ∧
      ∀ s ∈ p, Reader.IsOutside True s := by
  unfold readProgram at h ⊢
  split at h
  · rename_i tokens names' hscanned
    exact registers_of_readTokens (fun _ => (yields_tokenize hscanned).lexical) h
  · cases h

/-- The classes that are met in a text are those that the statements of its program define, in
order. -/
theorem registers_of_readProgram (h : (readProgram text names).result = .ok p) :
    ClassRegistry.empty.Registers (p.filterMap Statement.class?) (readProgram text names).registry ∧
      ∀ s ∈ p, s.IsOuter := by
  obtain ⟨hregisters, hall⟩ := registers_of_text h
  exact ⟨hregisters, fun s hs => (hall s hs).1⟩

/-- The registered classes are those of the program. -/
theorem mem_latestFirst_iff {program : Program} (h : (readProgram text).result = .ok program) :
    c ∈ (readProgram text).registry.latestFirst ↔ .classDef c ∈ program := by
  obtain ⟨hregisters, -⟩ := registers_of_readProgram h
  rw [← ClassRegistry.mem_classes, hregisters.classes_eq, ← mem_filterMap_class?]
  rfl

/-- Classes that are registered one behind the other have distinct names, and the superclass of each
is among those before it. -/
theorem ClassRegistry.Registers.superclasses {r r' : ClassRegistry} {before after : List ClassDef}
    (h : r.Registers (before ++ c :: after) r') :
    ∀ s ∈ c.superclass, s ∈ r.order ++ before.map ClassDef.name := by
  induction before generalizing r with
  | nil =>
    cases h with
    | cons hfirst _ =>
      obtain ⟨-, hknown, -⟩ := register_eq_ok_iff.mp hfirst
      intro s hs
      rw [map_nil, append_nil]
      exact contains_iff_mem_order.mp (hknown s hs)
  | cons d before ih =>
    cases h with
    | cons hfirst hrest =>
      obtain ⟨-, -, rfl⟩ := register_eq_ok_iff.mp hfirst
      intro s hs
      have hmem := ih hrest s hs
      rw [order_cons] at hmem
      simpa using hmem

/-- The program of a text is well-formed. -/
theorem wellFormed_of_readProgram (h : (readProgram text names).result = .ok p) : p.WellFormed := by
  obtain ⟨hregisters, hall⟩ := registers_of_text h
  refine ⟨fun s hs => (hall s hs).2 trivial, ?_, ?_⟩
  · have hnodup := (hregisters.founded .empty).nodup_order
    rwa [ClassRegistry.order, hregisters.classes_eq] at hnodup
  · intro before c after hp s hs
    rw [hp, filterMap_append, filterMap_cons] at hregisters
    exact hregisters.superclasses s hs

end Offside
