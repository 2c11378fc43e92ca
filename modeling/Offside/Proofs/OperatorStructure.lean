import Offside.Proofs.Emit.Lexical

/-!
# The operators of emitted expressions

The source and the emitted language order their operators differently: `not` is looser than a
comparison, and `!` is tighter than every operator between two operands.  Nothing but the brackets
of the source and a few that are added locally keeps the operands apart.

`operatorTree` is what an expression means: its operators, in the spelling of the emitted language,
and its names and literals.  The main statement is that the text emitted for an expression is read,
by the grammar of the emitted language, as exactly these operators, once the brackets between them
are left out.  The invariant behind it is that the text of an expression of some level has, outside
brackets, no operator that is looser than that level.
-/

namespace Offside.Julia

open Target

variable {scope : Scope} {level : Level}

/-! ## Leaving out brackets -/

mutual

/-- The operators of a tree without the brackets between them.  What stands inside calls, strings
and subscripts is left as it is. -/
def Tree.ungrouped : Tree → Tree
  | .group inner => inner.ungrouped
  | .unary op operand => .unary op operand.ungrouped
  | .power base exponent => .power base.ungrouped exponent.ungrouped
  | .binary link left right => .binary link left.ungrouped right.ungrouped
  | .chain first rest => .chain first.ungrouped (Tree.ungroupedRest rest)
  | t => t

/-- The further operands of a node without the brackets between their operators. -/
def Tree.ungroupedRest : List (Link × Tree) → List (Link × Tree)
  | [] => []
  | (link, t) :: rest => (link, t.ungrouped) :: Tree.ungroupedRest rest

end

theorem Tree.ungroupedRest_eq_map (rest : List (Link × Tree)) :
    Tree.ungroupedRest rest = rest.map fun x => (x.1, x.2.ungrouped) :=
  eq_map_of_cons rfl (fun _ _ => rfl) rest

theorem ungrouped_leftFold (first : Tree) (rest : List (Link × Tree)) :
    (leftFold first rest).ungrouped =
      leftFold first.ungrouped (rest.map fun x => (x.1, x.2.ungrouped)) := by
  induction rest generalizing first with
  | nil => rfl
  | cons x rest ih => exact ih (.binary x.1 first x.2)

theorem ungrouped_chained (first : Tree) (rest : List (Link × Tree)) :
    (chained first rest).ungrouped =
      chained first.ungrouped (rest.map fun x => (x.1, x.2.ungrouped)) := by
  cases rest with
  | nil => rfl
  | cons x rest =>
    rw [chained, Tree.ungrouped, Tree.ungroupedRest_eq_map]
    rfl

/-- The operands of one level are put together alike with and without the brackets in them. -/
theorem ungrouped_gather (h : level ≠ .range) (first : Tree) (rest : List (Link × Tree)) :
    (gather .chained level first rest).ungrouped =
      gather .chained level first.ungrouped (rest.map fun x => (x.1, x.2.ungrouped)) := by
  cases level with
  | range => exact absurd rfl h
  | sum | product => exact ungrouped_leftFold first rest
  | or | and | comparison | unary | power | operand => exact ungrouped_chained first rest

end Offside.Julia

namespace Offside

open Julia Target Emit

/-! ## Expressions of operators -/

/-- The text of a name or a literal. -/
def Atom.leafText : Atom → String
  | .name word => escape word
  | .boolean value => if value then "true" else "false"
  | .none => "nothing"
  | .integer value => toString value
  | .float value => value.textWith "Inf"
  | _ => ""

/-- Whether an atom is a name of no class, a number, a truth value or `None`. -/
def Atom.isLeaf (scope : Scope) : Atom → Bool
  | .name word => Text.isWord word && !scope.registry.contains word
  | .boolean _ | .none | .integer _ | .float _ => true
  | _ => false

/-- The expressions that are made of operators, names, literals and brackets. -/
inductive IsOperation (scope : Scope) : Expr → Prop
  | or {first : Expr} {rest : List Expr} (hfirst : IsOperation scope first)
      (hrest : ∀ e ∈ rest, IsOperation scope e) (hne : rest ≠ [])
      (hrank : ∀ e ∈ first :: rest, 1 ≤ e.rank) : IsOperation scope (.or first rest)
  | and {first : Expr} {rest : List Expr} (hfirst : IsOperation scope first)
      (hrest : ∀ e ∈ rest, IsOperation scope e) (hne : rest ≠ [])
      (hrank : ∀ e ∈ first :: rest, 2 ≤ e.rank) : IsOperation scope (.and first rest)
  | not {operand : Expr} (hoperand : IsOperation scope operand) (hrank : 2 ≤ operand.rank) :
      IsOperation scope (.not operand)
  | compare {first : Expr} {rest : List (Comparison × Expr)} (hfirst : IsOperation scope first)
      (hrest : ∀ x ∈ rest, IsOperation scope x.2) (hne : rest ≠ [])
      (hrank : ∀ e ∈ first :: rest.map Prod.snd, 4 ≤ e.rank) :
      IsOperation scope (.compare first rest)
  | sum {first : Expr} {rest : List (SumOp × Expr)} (hfirst : IsOperation scope first)
      (hrest : ∀ x ∈ rest, IsOperation scope x.2) (hne : rest ≠ [])
      (hrank : ∀ e ∈ first :: rest.map Prod.snd, 5 ≤ e.rank) : IsOperation scope (.sum first rest)
  | product {first : Expr} {rest : List (TermOp × Expr)} (hfirst : IsOperation scope first)
      (hrest : ∀ x ∈ rest, IsOperation scope x.2) (hne : rest ≠ [])
      (hrank : ∀ e ∈ first :: rest.map Prod.snd, 6 ≤ e.rank) :
      IsOperation scope (.product first rest)
  | sign (op : SumOp) {operand : Expr} (hoperand : IsOperation scope operand)
      (hrank : 6 ≤ operand.rank) : IsOperation scope (.sign op operand)
  | power {base : Primary} {exponent : Expr} (hbase : IsOperation scope (.primary base))
      (hexponent : IsOperation scope exponent) (hrank : 6 ≤ exponent.rank) :
      IsOperation scope (.power base exponent)
  | leaf {atom : Atom} (h : atom.isLeaf scope = true) (span : Span) :
    IsOperation scope (.primary ⟨atom, [], span⟩)
  | group {inner : Expression} (h : IsOperation scope inner.tree) (span : Span) :
      IsOperation scope (.primary ⟨.group inner, [], span⟩)

mutual

/-- The operators of an expression, in the spelling of the emitted language. -/
def Expr.operatorTree : Expr → Tree
  | .or first rest => chained first.operatorTree (Expr.joinedTrees .or rest)
  | .and first rest => chained first.operatorTree (Expr.joinedTrees .and rest)
  | .not operand => .unary .not operand.operatorTree
  | .compare first rest => chained first.operatorTree (Expr.comparedTrees rest)
  | .sum first rest => leftFold first.operatorTree (Expr.addedTrees rest)
  | .product first rest => leftFold first.operatorTree (Expr.multipliedTrees rest)
  | .sign op operand => .unary (.sign op) operand.operatorTree
  | .power base exponent => .power base.operatorTree exponent.operatorTree
  | .primary operand => operand.operatorTree

/-- The operators of operands behind one operator. -/
def Expr.joinedTrees (op : Operator) : List Expr → List (Link × Tree)
  | [] => []
  | e :: rest => (.operator op, e.operatorTree) :: Expr.joinedTrees op rest

/-- The operators of operands behind comparisons. -/
def Expr.comparedTrees : List (Comparison × Expr) → List (Link × Tree)
  | [] => []
  | (op, e) :: rest => (.operator (.comparison op), e.operatorTree) :: Expr.comparedTrees rest

/-- The operators of operands behind sum operators. -/
def Expr.addedTrees : List (SumOp × Expr) → List (Link × Tree)
  | [] => []
  | (op, e) :: rest => (.operator (.sum op), e.operatorTree) :: Expr.addedTrees rest

/-- The operators of operands behind product operators. -/
def Expr.multipliedTrees : List (TermOp × Expr) → List (Link × Tree)
  | [] => []
  | (op, e) :: rest => (.operator (.product op), e.operatorTree) :: Expr.multipliedTrees rest

/-- The operators of an atom: those in its brackets, or the atom itself. -/
def Primary.operatorTree : Primary → Tree
  | ⟨.group ⟨inner, _⟩, _, _⟩ => inner.operatorTree
  | ⟨atom, _, _⟩ => .leaf atom.leafText

end

end Offside

namespace Offside.Emit

open Julia Target

/-! ## What the emitted code keeps -/

/-- The code has no operators outside brackets that are looser than the level, and is read as the
given operators. -/
structure Keeps (level : Level) (t : Tree) (code : Code) : Prop where
  lexical : code.isLexical = true
  bound : (code.row .chained).From level
  tree : (code.tree .chained).ungrouped = t

/-- The same for operands behind operators of the level, whose own operators are tighter. -/
structure KeepsRest (level : Level) (ts : List (Operator × Tree)) (codes : List (Operator × Code)) :
    Prop where
  lexical : Code.restIsLexical codes = true
  bound : ∀ y ∈ codes, (Link.operator y.1).level = level ∧ (y.2.row .chained).Above level
  trees : codes.map (fun y => (y.1, (y.2.tree .chained).ungrouped)) = ts

/-- Code whose row is one operand holds together at all levels. -/
theorem Keeps.of_single {t : Tree} {code : Code} (hlexical : code.isLexical) {u : Tree}
    (hrow : code.row .chained = .single u) (hu : u.ungrouped = t) (level : Level) :
    Keeps level t code where
  lexical := hlexical
  bound := by
    rw [hrow]
    intro x hx
    cases hx
  tree := by rw [Code.tree, hrow, Row.resolve_single, hu]

/-- Brackets hold an expression of any level together. -/
theorem Keeps.group {t : Tree} {code : Code} (h : Keeps level t code) (level' : Level) :
    Keeps level' t (.group code) := by
  have hlexical : (Code.group code).isLexical := h.lexical
  have hrow : (Code.group code).row .chained = .single (.group (code.tree .chained)) := rfl
  exact .of_single hlexical hrow h.tree level'

theorem Keeps.not {t : Tree} {code : Code} (h : Keeps .power t code) :
    Keeps .power (.unary .not t) (.not code) where
  lexical := h.lexical
  bound := h.bound
  tree := by
    have hrow := Row.resolve_signed .chained .not h.bound
    have htree := h.tree
    rw [Code.tree] at htree ⊢
    rw [Code.row, hrow, Tree.ungrouped, htree]

theorem Keeps.sign (op : SumOp) {t : Tree} {code : Code} (h : Keeps .power t code)
    (hunsigned : code.startsSigned = false) :
    Keeps .power (.unary (.sign op) t) (.sign op code) where
  lexical := by simp [Code.isLexical, h.lexical, hunsigned]
  bound := h.bound
  tree := by
    have hrow := Row.resolve_signed .chained (.sign op) h.bound
    have htree := h.tree
    rw [Code.tree] at htree ⊢
    rw [Code.row, hrow, Tree.ungrouped, htree]

/-- A power whose base is one operand. -/
theorem Keeps.power {s t u : Tree} {base exponent : Code} (hbase : base.isLexical)
    (hrow : base.row .chained = .single u) (hu : u.ungrouped = s) (h : Keeps .power t exponent) :
    Keeps .power (.power s t) (.chain base [(.power, exponent)]) where
  lexical := by simp [Code.isLexical, Code.restIsLexical, hbase, h.lexical]
  bound := by
    rw [Code.row, hrow]
    refine Row.from_extend (fun x hx => absurd hx (by simp [Row.single])) fun x hx => ?_
    obtain rfl := List.mem_singleton.mp hx
    exact ⟨Nat.le_refl _, h.bound⟩
  tree := by
    have hpower := Row.resolve_power .chained u h.bound
    have htree := h.tree
    rw [Code.tree] at htree ⊢
    rw [Code.row, hrow]
    change (((Row.single u).join (.operator .power) (exponent.row .chained)).resolve
      .chained).ungrouped = _
    rw [hpower, Tree.ungrouped, hu, htree]

/-- Operands of one level between operators of that level. -/
theorem Keeps.chain {level level' : Level} (hlevel : level ∈ linkLevels) (hrange : level ≠ .range)
    {t : Tree} {first : Code} (hfirst : Keeps level' t first) (hlt : level < level')
    {ts : List (Operator × Tree)} {codes : List (Operator × Code)}
    (hrest : KeepsRest level ts codes) :
    Keeps level (gather .chained level t (ts.map fun x => (.operator x.1, x.2)))
      (.chain first codes) := by
  have hlinks : ∀ x ∈ Code.links .chained codes, x.1.level = level ∧ x.2.Above level := by
    intro x hx
    rw [Code.links_eq_map] at hx
    obtain ⟨y, hy, rfl⟩ := List.mem_map.mp hx
    exact hrest.bound y hy
  have habove : (first.row .chained).Above level := hfirst.bound.above hlt
  refine ⟨?_, ?_, ?_⟩
  · simp [Code.isLexical, hfirst.lexical, hrest.lexical]
  · rw [Code.row]
    refine Row.from_extend habove.from fun x hx => ⟨?_, (hlinks x hx).2.from⟩
    rw [(hlinks x hx).1]
    exact Nat.le_refl _
  · have hresolve := Row.resolve_extend_of_above .chained hlevel hlinks habove
    have htree := hfirst.tree
    rw [Code.tree] at htree ⊢
    rw [Code.row, hresolve, ungrouped_gather hrange, htree, ← hrest.trees, Code.links_eq_map]
    simp only [List.map_map]
    rfl

/-! ## The levels of emitted expressions -/

/-- The level of the operators that stand outside brackets in an expression of the given level of
the source. -/
def levelOfRank : Nat → Level
  | 0 => .or
  | 1 => .and
  | 3 => .comparison
  | 4 => .sum
  | 5 => .product
  | _ => .power

/-- The levels of operators with several operands, each with the least level of the source that the
operands have. -/
def leastRanks : List (Level × Nat) :=
  [(.or, 1), (.and, 2), (.comparison, 4), (.sum, 5), (.product, 6)]

/-- The operands that a node of the source may have are tighter than its operators in the emitted
language too. -/
theorem lt_levelOfRank {least : Nat} (h : (level, least) ∈ leastRanks) {e : Expr}
    (hrank : least ≤ e.rank) : level < levelOfRank e.rank := by
  have hall : ∀ x ∈ leastRanks, ∀ n ≤ 6, x.2 ≤ n → x.1 < levelOfRank n := by decide
  have hle : e.rank ≤ 6 := by cases e <;> simp [Expr.rank]
  exact hall _ h e.rank hle hrank

theorem levelOfRank_eq_power {e : Expr} (h : 6 ≤ e.rank) : levelOfRank e.rank = .power := by
  have hle : e.rank ≤ 6 := by cases e <;> simp [Expr.rank]
  rw [Nat.le_antisymm hle h]
  rfl

/-- An operand made of operators is no string, so a sum of such operands joins no strings. -/
theorem isStringLiteral_eq_false {e : Expr} (h : IsOperation scope e) :
    e.isStringLiteral = false := by
  cases h with
  | @leaf atom h span => cases atom <;> first | rfl | cases h
  | _ => rfl

theorem concatenates_eq_false {first : Expr} {rest : List (SumOp × Expr)}
    (hfirst : IsOperation scope first) (hrest : ∀ x ∈ rest, IsOperation scope x.2) :
    concatenates first rest = false := by
  have hany : (rest.any fun operand => operand.2.isStringLiteral) = false := by
    rw [List.any_eq_false]
    intro x hx
    simp [isStringLiteral_eq_false (hrest x hx)]
  rw [concatenates, isStringLiteral_eq_false hfirst, hany]
  rfl

/-- A name or a literal is emitted as one operand. -/
theorem exists_leaf {atom : Atom} (h : atom.isLeaf scope) (span : Span) :
    ∃ code, operators scope (.primary ⟨atom, [], span⟩) = .ok code ∧ code.isLexical ∧
      code.row .chained = .single (.leaf atom.leafText) := by
  cases atom with
  | name word =>
    obtain ⟨hword, hclass⟩ := Bool.and_eq_true_iff.mp h
    have hroot : Root.ofName scope word span.start = .code (nameCode word) :=
      if_neg (by simpa using hclass)
    refine ⟨nameCode word, ?_, isName_escape (isName_of_isWord hword), rfl⟩
    simp only [operators, primary, hroot, accesses]
    rfl
  | boolean value => exact ⟨.boolean value, rfl, rfl, rfl⟩
  | none => exact ⟨.nothing, rfl, rfl, rfl⟩
  | integer value => exact ⟨.integer value, rfl, rfl, rfl⟩
  | float value => exact ⟨.float value, rfl, rfl, rfl⟩
  | str _ | formatted _ | group _ | list _ | library _ | builtin _ | super _ =>
    cases h

theorem operatorTree_leaf {atom : Atom} (h : atom.isLeaf scope) (span : Span) :
    (Expr.primary ⟨atom, [], span⟩).operatorTree = .leaf atom.leafText := by
  cases atom with
  | group inner => cases h
  | _ => rfl

/-- The base of a power is emitted as one operand. -/
theorem exists_row_eq_single {p : Primary} (h : IsOperation scope (.primary p)) {code : Code}
    (hcode : operators scope (.primary p) = .ok code) :
    ∃ u, code.row .chained = .single u := by
  cases h with
  | leaf hleaf span =>
    obtain ⟨code', hcode', -, hrow⟩ := exists_leaf hleaf span
    obtain rfl := Except.ok.inj (hcode'.symm.trans hcode)
    exact ⟨_, hrow⟩
  | @group inner hinner span =>
    simp only [operators, primary, atomCode] at hcode
    cases hexpr : expression scope inner with
    | error err =>
      rw [hexpr] at hcode
      cases hcode
    | ok c =>
      rw [hexpr] at hcode
      cases hcode
      exact ⟨_, rfl⟩

/-! ## All expressions of operators -/

/-- The expression is emitted, keeps its operators, and has no operator outside brackets that is
looser than its level. -/
def IsKept (scope : Scope) (e : Expr) : Prop :=
  ∃ code, operators scope e = .ok code ∧ Keeps (levelOfRank e.rank) e.operatorTree code

/-- The operands are emitted one behind the other, each behind its operator, and the trees behind
the operators are theirs. -/
structure EmitsEach (scope : Scope) (level : Level) {α : Type} (op : α → Operator)
    (operand : α → Expr)
    (emit : List α → Except SemanticError (List (Operator × Code))) (trees : List α →
      List (Link × Tree)) :
    Prop where
  nil : emit [] = .ok []
  cons : ∀ x xs, emit (x :: xs) = do
    let code ← operators scope (operand x)
    return (op x, code) :: (← emit xs)
  level : ∀ x, (Link.operator (op x)).level = level
  trees : ∀ xs, trees xs = xs.map fun x => (.operator (op x), (operand x).operatorTree)

section Operands

variable {least : Nat} {α : Type} {op : α → Operator} {operand : α → Expr}
  {emit : List α → Except SemanticError (List (Operator × Code))}
  {trees : List α → List (Link × Tree)} (hemit : EmitsEach scope level op operand emit trees)
  {rest : List α}

include hemit

/-- Operands that keep their operators are emitted one behind the other. -/
theorem exists_rest (h : ∀ x ∈ rest, ∃ code level', operators scope (operand x) = .ok code ∧
    level < level' ∧
      Keeps level' (operand x).operatorTree code) :
    ∃ codes, emit rest = .ok codes ∧
      KeepsRest level (rest.map fun x => (op x, (operand x).operatorTree)) codes := by
  induction rest with
  | nil => exact ⟨[], hemit.nil, rfl, by simp, rfl⟩
  | cons x xs ih =>
    obtain ⟨⟨code, level', hcode, hlt, hkeeps⟩, hrest⟩ := List.forall_mem_cons.mp h
    obtain ⟨codes, hcodes, hlexical, hbound, htrees⟩ := ih hrest
    refine ⟨(op x, code) :: codes, ?_, ?_, ?_, ?_⟩
    · rw [hemit.cons, hcodes, hcode]
      rfl
    · simp [Code.restIsLexical, hkeeps.lexical, hlexical]
    · simp only [List.forall_mem_cons]
      exact ⟨⟨hemit.level x, hkeeps.bound.above hlt⟩, hbound⟩
    · simp [hkeeps.tree, htrees]

/-- Operands of at least the level that a node takes, with its operators between them. -/
theorem isKept_chain (hleast : (level, least) ∈ leastRanks) {first : Expr}
    (hfirst : IsKept scope first) (hrest : ∀ x ∈ rest, IsKept scope (operand x))
    (hrank : ∀ e ∈ first :: rest.map operand, least ≤ e.rank) {e : Expr}
    (hlevel : levelOfRank e.rank = level)
    (htree : e.operatorTree = gather .chained level first.operatorTree (trees rest))
    (hcodes : operators scope e = do
      let code ← operators scope first
      return .chain code (← emit rest)) : IsKept scope e := by
  obtain ⟨code, hcode, hkeeps⟩ := hfirst
  obtain ⟨hle, hles⟩ := List.forall_mem_cons.mp hrank
  obtain ⟨codes, hemitted, hkeepsRest⟩ := exists_rest hemit fun x hx => by
    obtain ⟨code, hcode, hkeeps⟩ := hrest x hx
    exact ⟨code, _, hcode, lt_levelOfRank hleast (hles _ (List.mem_map_of_mem hx)), hkeeps⟩
  have hlinks : ∀ x ∈ leastRanks, x.1 ∈ linkLevels ∧ x.1 ≠ .range := by decide
  obtain ⟨hlink, hrange⟩ := hlinks _ hleast
  have hchain := Keeps.chain hlink hrange hkeeps (lt_levelOfRank hleast hle) hkeepsRest
  refine ⟨.chain code codes, ?_, ?_⟩
  · rw [hcodes, hcode, hemitted]
    rfl
  · rw [hlevel, htree, hemit.trees]
    rwa [List.map_map] at hchain

end Operands

/-- Every expression made of operators is kept. -/
theorem isKept_of_isOperation {e : Expr} (h : IsOperation scope e) :
    IsKept scope e := by
  induction h with
  | or hfirst hrest hne hrank ihfirst ihrest =>
    have hemit : EmitsEach scope .or (fun _ => .or) (fun e => e) (operands scope .or)
        (Expr.joinedTrees .or) :=
      ⟨rfl, fun _ _ => rfl, fun _ => rfl, eq_map_of_cons rfl fun _ _ => rfl⟩
    exact isKept_chain hemit (show (_, 1) ∈ _ by decide) ihfirst ihrest
      (by simpa using hrank) rfl rfl rfl
  | and hfirst hrest hne hrank ihfirst ihrest =>
    have hemit : EmitsEach scope .and (fun _ => .and) (fun e => e) (operands scope .and)
        (Expr.joinedTrees .and) :=
      ⟨rfl, fun _ _ => rfl, fun _ => rfl, eq_map_of_cons rfl fun _ _ => rfl⟩
    exact isKept_chain hemit (show (_, 2) ∈ _ by decide) ihfirst ihrest
      (by simpa using hrank) rfl rfl rfl
  | @not operand hoperand hrank ih =>
    obtain ⟨code, hcode, hkeeps⟩ := ih
    refine ⟨.not (groupIf (!isBare operand) code), ?_, ?_⟩
    · simp only [operators, hcode]
      rfl
    · cases hbare : isBare operand with
      | true =>
        have hlevel : levelOfRank operand.rank = .power := by
          cases operand <;> first | rfl | cases hbare
        rw [hlevel] at hkeeps
        exact hkeeps.not
      | false => exact (hkeeps.group .power).not
  | compare hfirst hrest hne hrank ihfirst ihrest =>
    have hemit : EmitsEach scope .comparison (fun x => .comparison x.1) Prod.snd (comparisons scope)
        Expr.comparedTrees := ⟨rfl, fun _ _ => rfl, fun _ => rfl, eq_map_of_cons rfl fun _ _ => rfl⟩
    exact isKept_chain hemit (by decide) ihfirst ihrest hrank rfl rfl rfl
  | sum hfirst hrest hne hrank ihfirst ihrest =>
    have hemit : EmitsEach scope .sum (fun x => .sum x.1) Prod.snd (summands scope false)
        Expr.addedTrees :=
      ⟨rfl, fun x
        _ => by rcases x with ⟨_ | _, _⟩ <;> rfl, fun _ => rfl, eq_map_of_cons rfl fun _ _ => rfl⟩
    refine isKept_chain hemit (by decide) ihfirst ihrest hrank rfl rfl ?_
    simp only [operators, concatenates_eq_false hfirst hrest]
    rfl
  | product hfirst hrest hne hrank ihfirst ihrest =>
    have hemit : EmitsEach scope .product (fun x => .product x.1) Prod.snd (factors scope)
        Expr.multipliedTrees :=
      ⟨rfl, fun _ _ => rfl, fun _ => rfl, eq_map_of_cons rfl fun _ _ => rfl⟩
    exact isKept_chain hemit (by decide) ihfirst ihrest hrank rfl rfl rfl
  | @sign op operand hoperand hrank ih =>
    obtain ⟨code, hcode, hkeeps⟩ := ih
    rw [levelOfRank_eq_power hrank] at hkeeps
    refine ⟨.sign op (groupIf code.startsSigned code), ?_, ?_⟩
    · simp only [operators, hcode]
      rfl
    · cases hsigned : code.startsSigned with
      | true => exact (hkeeps.group .power).sign op rfl
      | false => exact hkeeps.sign op hsigned
  | @power base exponent hbase hexponent hrank ihbase ihexponent =>
    obtain ⟨code, hcode, hkeeps⟩ := ihbase
    obtain ⟨code', hcode', hkeeps'⟩ := ihexponent
    rw [levelOfRank_eq_power hrank] at hkeeps'
    obtain ⟨u, hu⟩ := exists_row_eq_single hbase hcode
    have htree := hkeeps.tree
    rw [Code.tree, hu, Row.resolve_single] at htree
    have hprimary : primary scope base = .ok code := hcode
    refine ⟨.chain code [(.power, code')], ?_, hkeeps'.power hkeeps.lexical hu htree⟩
    simp only [operators, hprimary, hcode']
    rfl
  | leaf h span =>
    obtain ⟨code, hcode, hlexical, hrow⟩ := exists_leaf h span
    exact ⟨code, hcode, .of_single hlexical hrow (operatorTree_leaf h span).symm _⟩
  | @group inner h span ih =>
    obtain ⟨tree, innerSpan⟩ := inner
    obtain ⟨code, hcode, hkeeps⟩ := ih
    refine ⟨.group code, ?_, hkeeps.group .power⟩
    simp only [operators, primary, atomCode, expression, hcode]
    rfl

/-- Operator structure survives: the text emitted for an expression made of operators is read as the
same operators, once the brackets between them are left out. -/
theorem read_text_operators (scope : Scope) (e : Expression) (h : IsOperation scope e.tree) :
    ∃ code, expression scope e = .ok code ∧
      (read .chained code.text).map Tree.ungrouped = some e.tree.operatorTree := by
  obtain ⟨tree, span⟩ := e
  obtain ⟨code, hcode, hkeeps⟩ := isKept_of_isOperation h
  refine ⟨code, hcode, ?_⟩
  rw [read_text .chained hkeeps.lexical, Option.map_some, hkeeps.tree]

/-- `not a < -(-b) ** -2 and c`: the comparison gets brackets behind `!`, and the signs stay apart.
-/
def signedComparison : Expression :=
  ⟨.and (.not (.compare (nameOperand "a")
      [(.less, .sign .sub (.power ⟨.group ⟨.sign .sub (nameOperand "b"), {}⟩, [], {}⟩
        (.sign .sub (.primary ⟨.integer 2, [], {}⟩))))])) [nameOperand "c"], {}⟩

theorem read_text_signedComparison :
    IsOperation plainScope signedComparison.tree ∧
      ∃ code, expression plainScope signedComparison = .ok code ∧
        (read .chained code.text).map Tree.ungrouped = some signedComparison.tree.operatorTree := by
  have hname : ∀ name ∈ ["a", "b", "c"], IsOperation plainScope (nameOperand name) := by
    intro name hname
    exact .leaf (by revert name; decide) _
  have hbase : IsOperation plainScope
      (.primary ⟨.group ⟨.sign .sub (nameOperand "b"), {}⟩, [], {}⟩) :=
    .group (.sign .sub (hname "b" (by decide)) (by decide)) _
  have hexponent : IsOperation plainScope (.sign .sub (.primary ⟨.integer 2, [], {}⟩)) :=
    .sign .sub (.leaf rfl _) (by decide)
  have hpower := IsOperation.power hbase hexponent (by decide)
  have hcompare : IsOperation plainScope
      (.compare (nameOperand "a") [(.less, .sign .sub (.power _ _))]) :=
    .compare (hname "a" (by decide)) (by simpa using .sign .sub hpower (by decide))
      (by simp) (by decide)
  have h : IsOperation plainScope signedComparison.tree :=
    .and (.not hcompare (by decide)) (by simpa using hname "c" (by decide)) (by simp) (by decide)
  exact ⟨h, read_text_operators plainScope signedComparison h⟩

end Offside.Emit
