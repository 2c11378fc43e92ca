import Offside.Proofs.Reader.Steps
import Offside.Proofs.Token.Spelling
import Offside.Proofs.Tree.WellFormed
import Offside.Reader.Expression

/-!
# Levels of operators

The levels of the grammar are numbered as the ranks of expressions are.  A reader of a level stops
before a token that binds no tighter than its level (`Stops`).  On each level but that of negations,
operands are joined by operators in the same way (`Joining`), so an expression that is read on one
level is read on all looser levels (`ReadsAt.looser`).
-/

namespace Offside

open List

/-- How tightly a token joins what follows it to an expression before it, by the level of the reader
that passes it; a token that joins nothing binds with 0. -/
def Kind.binding : Kind → Nat
  | .keyword .orKw => 1
  | .keyword .andKw => 2
  | .comparison _ => 4
  | .sumOp _ => 5
  | .termOp _ => 6
  | .power => 7
  | .delimiter .dot | .delimiter .bracketOpen | .delimiter .parenOpen => 8
  | _ => 0

theorem Kind.binding_relocate (place : Location → Location) (kind : Kind) :
    (kind.relocate place).binding = kind.binding := by
  cases kind <;> rfl

namespace Reader

/-- The tokens start with one at which a reader of the level stops. -/
def Stops (level : Nat) (ts : List Kind) : Prop :=
  Heads (fun kind => decide (kind.binding ≤ level)) ts

theorem Stops.mono {level level' : Nat} {ts : List Kind} (h : Stops level ts)
    (hle : level ≤ level') :
    Stops level' ts :=
  Heads.mono h fun _ hkind => decide_eq_true (Nat.le_trans (of_decide_eq_true hkind) hle)

theorem stops_cons {k : Kind} {level : Nat} (h : k.binding ≤ level) (ts : List Kind) :
    Stops level (k :: ts) :=
  decide_eq_true ((k.binding_relocate nowhere).symm ▸ h)

/-! ## First tokens -/

/-- A name is read as an identifier or as the name of a known function. -/
theorem ofWord_of_isPlainName {name : String} (h : isPlainName name) :
    (Kind.ofWord name = .function name ∧ knownFunctions.contains name) ∨
      (Kind.ofWord name = .identifier name ∧ knownFunctions.contains name = false) := by
  simp only [isPlainName, Bool.and_eq_true, Option.isNone_iff_eq_none, bne_iff_ne] at h
  have hkind : Kind.ofWord name =
      if name ∈ knownFunctions then .function name else .identifier name := by
    rw [Kind.ofWord, h.1.2]
    exact if_neg h.2
  by_cases hknown : name ∈ knownFunctions
  · rw [if_pos hknown] at hkind
    exact .inl ⟨hkind, by simpa using hknown⟩
  · rw [if_neg hknown] at hkind
    exact .inr ⟨hkind, by simpa using hknown⟩

/-- Whether an expression can start with the kind, and without an operator in front of its operand.
-/
def startsAtom (kind : Kind) : Bool :=
  startsExpression kind && (!kind.isKeyword .notKw && kind.sumOp?.isNone)

theorem heads_ofWord {name : String} (h : isPlainName name) (ts : List Kind) :
    Heads startsAtom (.ofWord name :: ts) := by
  rcases ofWord_of_isPlainName h with ⟨hkind, -⟩ | ⟨hkind, -⟩
  · rw [hkind]
    exact .cons rfl
  · rw [hkind]
    exact .cons rfl

theorem heads_atom {atom : Atom} (h : atom.isWellFormed) : Heads startsAtom atom.kinds := by
  cases atom with
  | name name => exact heads_ofWord h []
  | boolean value => cases value <;> exact .cons rfl
  | builtin call =>
    obtain ⟨name, arguments, span⟩ := call
    have hname : isPlainName name := by
      simp only [Atom.isWellFormed, FunctionCall.isWellFormed, Bool.and_eq_true] at h
      exact h.2.1
    exact heads_ofWord hname _
  | super call =>
    obtain ⟨superclass, method, arguments, span⟩ := call
    exact .cons rfl
  | _ => exact .cons rfl

theorem heads_primary {p : Primary} (h : p.isWellFormed) : Heads startsAtom p.kinds := by
  obtain ⟨atom, trailers, span⟩ := p
  simp only [Primary.isWellFormed, Bool.and_eq_true] at h
  exact (heads_atom h.1.1).append _

/-- The first token of an expression starts an expression, and is no `not` from the level of
comparisons on. -/
theorem heads_expr : ∀ {e : Expr}, e.isWellFormed →
    Heads startsExpression e.kinds ∧
      (3 ≤ e.rank → Heads (fun kind => !kind.isKeyword .notKw) e.kinds)
  | .or first rest, h | .and first rest, h => by
    simp only [Expr.isWellFormed, Bool.and_eq_true] at h
    have hfirst := heads_expr h.1.1.2
    exact ⟨hfirst.1.append _, fun hrank => absurd hrank (by simp [Expr.rank])⟩
  | .not operand, _ =>
    ⟨.cons rfl, fun hrank => absurd hrank (by simp [Expr.rank])⟩
  | .compare first rest, h | .sum first rest, h | .product first rest, h => by
    simp only [Expr.isWellFormed, Bool.and_eq_true, decide_eq_true_eq] at h
    have hfirst := heads_expr h.1.1.2
    exact ⟨hfirst.1.append _, fun _ => (hfirst.2 (by omega)).append _⟩
  | .sign op operand, _ => ⟨.cons rfl, fun _ => .cons rfl⟩
  | .power base exponent, h => by
    simp only [Expr.isWellFormed, Bool.and_eq_true] at h
    have hbase := (heads_primary h.1.1).append (.power :: exponent.kinds)
    exact ⟨hbase.mono fun _ hkind => (Bool.and_eq_true_iff.mp hkind).1,
      fun _ => hbase.mono fun _ hkind =>
        (Bool.and_eq_true_iff.mp (Bool.and_eq_true_iff.mp hkind).2).1⟩
  | .primary operand, h => by
    have hoperand := heads_primary h
    exact ⟨hoperand.mono fun _ hkind => (Bool.and_eq_true_iff.mp hkind).1,
      fun _ => hoperand.mono fun _ hkind =>
        (Bool.and_eq_true_iff.mp (Bool.and_eq_true_iff.mp hkind).2).1⟩

theorem heads_expression {e : Expression} (h : e.isWellFormed) :
    Heads startsExpression e.kinds := by
  obtain ⟨tree, span⟩ := e
  exact (heads_expr h).1

/-! ## Levels of operators -/

/-- The reader of a level. -/
def level (inner : Read Expression) : Nat → Read Expr
  | 0 => disjunctionWith inner
  | 1 => conjunctionWith inner
  | 2 => inversionWith inner
  | 3 => comparisonWith inner
  | 4 => sumWith inner
  | 5 => productWith inner
  | _ => factorWith inner

/-- The reader of a level reads an expression. -/
def ReadsAt (inner : Read Expression) (n : Nat) (e : Expr) : Prop :=
  ReadsItem (level inner n) (Expr.relocate nowhere) Expr.kinds (Stops n) e

/-- How operands are joined on a level: the operators, their tokens and the node that they form. -/
structure Joining {β : Type} (n : Nat) (operator : Kind → Option β) (token : β → Kind)
    (node : Expr → List (β × Expr) → Expr) : Prop where
  single : ∀ first, node first [] = first
  kinds_cons : ∀ first x rest, (node first (x :: rest)).kinds = first.kinds ++
    behind token Expr.kinds (x :: rest)
  relocate_cons : ∀ first x rest, (node first (x :: rest)).relocate nowhere =
    node (first.relocate nowhere) ((x :: rest).map (Prod.map id (Expr.relocate nowhere)))
  passed : ∀ op, token op ≠ .endOfInput ∧ operator ((token op).relocate nowhere) = some op
  binding : ∀ op, (token op).binding = n + 1
  token_eq : ∀ {kind op}, operator kind = some op → kind = token op ∧ kind.isLexeme = true

section Joining

variable {β : Type} {n : Nat} {operator : Kind → Option β} {token : β → Kind}
  {node : Expr → List (β × Expr) → Expr} (h : Joining n operator token node)

include h

theorem Joining.kinds (first : Expr) (rest : List (β × Expr)) :
    (node first rest).kinds = first.kinds ++ behind token Expr.kinds rest := by
  cases rest with
  | nil => rw [h.single]; exact (append_nil _).symm
  | cons x rest => exact h.kinds_cons first x rest

theorem Joining.relocate (first : Expr) (rest : List (β × Expr)) :
    (node first rest).relocate nowhere =
      node (first.relocate nowhere) (rest.map (Prod.map id (Expr.relocate nowhere))) := by
  cases rest with
  | nil => rw [h.single]; exact (h.single _).symm
  | cons x rest => exact h.relocate_cons first x rest

/-- Operands of one level are read one by one; the operands themselves are read on the next level.
-/
theorem Joining.reads {operand : Read Expr} {first : Expr} {rest : List (β × Expr)}
    (hfirst : ReadsItem operand (Expr.relocate nowhere) Expr.kinds (Stops (n + 1)) first)
    (hrest : ∀ x ∈ rest, ReadsItem operand (Expr.relocate nowhere) Expr.kinds (Stops (n + 1)) x.2) :
    ReadsItem (do let operands ← chain operator operand; return node operands.1 operands.2)
      (Expr.relocate nowhere) Expr.kinds (Stops n) (node first rest) := by
  intro ts hts
  have hnext : ∀ op tail, Stops (n + 1) (token op :: tail) :=
    fun op tail => stops_cons (Nat.le_of_eq (h.binding op)) tail
  have hend : Heads (fun kind => (operator kind).isNone) ts := by
    refine Heads.mono hts fun kind hkind => Option.isNone_iff_eq_none.mpr ?_
    refine Option.eq_none_iff_forall_ne_some.mpr fun op hop => ?_
    have hle := of_decide_eq_true hkind
    rw [(h.token_eq hop).1, h.binding] at hle
    omega
  have hchain :=
    reads_chain operator token h.passed hrest hnext (hts.mono (Nat.le_succ n)) hend hfirst
  rw [h.kinds, append_assoc, h.relocate]
  exact hchain.bind .pure

end Joining

theorem joining_product : Joining 5 Kind.termOp? Kind.termOp Expr.ofProduct where
  single _ := rfl
  kinds_cons _ _ _ := congrArg _ (Expr.multipliedKinds_eq_flatMap _)
  relocate_cons _ _ _ := congrArg _ (Expr.relocateMultiplied_eq_map _ _)
  passed _ := ⟨by simp, rfl⟩
  binding _ := rfl
  token_eq {kind op} h := by
    cases kind with
    | termOp found => exact ⟨congrArg Kind.termOp (Option.some.inj h), rfl⟩
    | _ => cases h

theorem joining_sum : Joining 4 Kind.sumOp? Kind.sumOp Expr.ofSum where
  single _ := rfl
  kinds_cons _ _ _ := congrArg _ (Expr.addedKinds_eq_flatMap _)
  relocate_cons _ _ _ := congrArg _ (Expr.relocateAdded_eq_map _ _)
  passed _ := ⟨by simp, rfl⟩
  binding _ := rfl
  token_eq {kind op} h := by
    cases kind with
    | sumOp found => exact ⟨congrArg Kind.sumOp (Option.some.inj h), rfl⟩
    | _ => cases h

theorem joining_comparison : Joining 3 Kind.comparison? Kind.comparison Expr.ofCompare where
  single _ := rfl
  kinds_cons _ _ _ := congrArg _ (Expr.comparedKinds_eq_flatMap _)
  relocate_cons _ _ _ := congrArg _ (Expr.relocateCompared_eq_map _ _)
  passed _ := ⟨by simp, rfl⟩
  binding _ := rfl
  token_eq {kind op} h := by
    cases kind with
    | comparison found => exact ⟨congrArg Kind.comparison (Option.some.inj h), rfl⟩
    | _ => cases h

theorem joinedKinds_eq_behind (word : Kind) (rest : List (Unit × Expr)) :
    Expr.joinedKinds word (rest.map Prod.snd) = behind (fun _ => word) Expr.kinds rest := by
  rw [Expr.joinedKinds_eq_flatMap, flatMap_map]
  rfl

theorem relocateAll_map_snd (rest : List (Unit × Expr)) :
    Expr.relocateAll nowhere (rest.map Prod.snd) =
      (rest.map (Prod.map id (Expr.relocate nowhere))).map Prod.snd := by
  rw [Expr.relocateAll_eq_map, map_map, map_map]
  rfl

theorem of_separator_eq_some {is : Kind → Bool} {kind : Kind} {u : Unit}
    (h : separator is kind = some u) : is kind := by
  unfold separator at h
  split at h
  · assumption
  · cases h

/-- The word that joins operands is the token of its level. -/
theorem token_of_separator {word : Keyword} {kind : Kind} {u : Unit}
    (h : separator (·.isKeyword word) kind = some u) : kind = .keyword word ∧ kind.isLexeme := by
  have hword := of_separator_eq_some h
  cases kind with
  | keyword found => exact ⟨congrArg Kind.keyword (by simpa [Kind.isKeyword] using hword), rfl⟩
  | _ => cases hword

theorem joining_and : Joining 1 (separator (·.isKeyword .andKw)) (fun _ => .keyword .andKw)
    fun first rest => Expr.ofAnd first (rest.map Prod.snd) where
  single _ := rfl
  kinds_cons _ _ _ := congrArg _ (joinedKinds_eq_behind _ _)
  relocate_cons _ _ _ := congrArg _ (relocateAll_map_snd _)
  passed _ := ⟨by simp, rfl⟩
  binding _ := rfl
  token_eq := token_of_separator

theorem joining_or : Joining 0 (separator (·.isKeyword .orKw)) (fun _ => .keyword .orKw)
    fun first rest => Expr.ofOr first (rest.map Prod.snd) where
  single _ := rfl
  kinds_cons _ _ _ := congrArg _ (joinedKinds_eq_behind _ _)
  relocate_cons _ _ _ := congrArg _ (relocateAll_map_snd _)
  passed _ := ⟨by simp, rfl⟩
  binding _ := rfl
  token_eq := token_of_separator

/-! ## Looser levels -/

section Looser

variable {inner : Read Expression} {e : Expr}

/-- An expression whose tokens do not start with `not` is read behind no negation. -/
theorem readsItem_inversionWithin (h : ReadsAt inner 3 e)
    (hhead : Heads (fun kind => !kind.isKeyword .notKw) e.kinds) (bound : Nat) :
    ReadsItem (inversionWithin inner (bound + 1)) (Expr.relocate nowhere) Expr.kinds
      (Stops 2) e := by
  intro ts hts
  refine .ifNotHeads (hhead.append ts) ?_
  exact h ts (hts.mono (by decide))

theorem ReadsAt.inversion (h : ReadsAt inner 3 e)
    (hhead : Heads (fun kind => !kind.isKeyword .notKw) e.kinds) : ReadsAt inner 2 e := by
  intro ts hts
  obtain ⟨n, hn⟩ : ∃ n, (e.kinds ++ ts).length = n + 1 := by
    have hpos := length_pos_iff.mpr (hhead.append ts).ne_nil
    exact ⟨(e.kinds ++ ts).length - 1, by omega⟩
  refine .remaining ?_
  rw [hn]
  exact readsItem_inversionWithin h hhead n ts hts

theorem ReadsAt.pred {n : Nat} (h : ReadsAt inner (n + 1) e) (hn : n < 6)
    (hhead : 2 ≤ n → Heads (fun kind => !kind.isKeyword .notKw) e.kinds) : ReadsAt inner n e := by
  match n, hn with
  | 0, _ => exact joining_or.reads h (forall_mem_nil _)
  | 1, _ => exact joining_and.reads h (forall_mem_nil _)
  | 2, _ => exact h.inversion (hhead (Nat.le_refl 2))
  | 3, _ => exact joining_comparison.reads h (forall_mem_nil _)
  | 4, _ => exact joining_sum.reads h (forall_mem_nil _)
  | 5, _ => exact joining_product.reads h (forall_mem_nil _)

/-- An expression is read on all levels that are looser than a level it is read on. -/
theorem ReadsAt.looser {n : Nat} (h : ReadsAt inner n e) (hn : n ≤ 6)
    (hhead : 3 ≤ n → Heads (fun kind => !kind.isKeyword .notKw) e.kinds) {m : Nat} (hm : m ≤ n) :
    ReadsAt inner m e := by
  induction hm with
  | refl => exact h
  | @step n _ ih =>
    have hpred := h.pred hn fun hle => hhead (Nat.succ_le_succ hle)
    exact ih hpred (Nat.le_of_succ_le hn) fun hle => hhead (Nat.le_succ_of_le hle)

end Looser

end Reader

end Offside
