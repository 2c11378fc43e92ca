import Offside.Proofs.Emit.Contents

/-!
# Arguments of elementwise calls

A call of a function such as `np.add` or `np.multiply` is emitted as its arguments with an operator
between them, in brackets.  The arguments themselves get no brackets.  So the call means the
operator applied to the arguments from the left exactly if no argument holds, outside brackets, an
operator that takes a neighbour away: the first argument may hold operators as tight as the operator
of the call, and the others tighter ones only.
-/

namespace Offside.Emit

open Julia Target List

/-- The operators that calls of known functions are emitted with. -/
theorem level_of_operatorChain {name : String} {op : Operator}
    (h : callForm name = .operatorChain op) :
    (Link.operator op).level ∈ [Level.comparison, .sum, .product] := by
  have hform := forall_callForm (p := fun form => match form with
    | .operatorChain op => decide ((Link.operator op).level ∈ [Level.comparison, .sum, .product])
    | _ => true) (by decide) rfl name
  rw [h] at hform
  exact of_decide_eq_true hform

/-- These operators are read from the left. -/
theorem gather_leftward {level : Level} (h : level ∈ [Level.comparison, .sum, .product]) :
    gather .leftward level = leftFold := by
  simp only [mem_cons, not_mem_nil, or_false] at h
  rcases h with rfl | rfl | rfl <;> rfl

/-- Codes with one operator between them are read as that operator applied from the left exactly if
no operator inside them is too loose. -/
theorem tree_joined_iff {op : Operator}
    (hlevel : (Link.operator op).level ∈ [Level.comparison, .sum, .product]) (first : Code)
    (rest : List Code) (hne : rest ≠ []) :
    (joined op (first :: rest)).tree .leftward =
        leftFold (first.tree .leftward) (rest.map fun code => (.operator op, code.tree .leftward)) ↔
      (Link.operator op).level ≤ (first.tree .leftward).level ∧
        ∀ code ∈ rest, (Link.operator op).level < (code.tree .leftward).level := by
  have hmem : (Link.operator op).level ∈ linkLevels := by
    revert hlevel
    cases (Link.operator op).level <;> decide
  have hunary : (Link.operator op).level < .unary := by
    revert hlevel
    cases (Link.operator op).level <;> decide
  have hleft := gather_leftward hlevel
  -- what stands outside brackets in the arguments, read as one row
  have hlinks : Code.links .leftward (rest.map fun code => (op, code)) =
      rest.map fun code => (Link.operator op, code.row .leftward) := by
    rw [Code.links_eq_map, map_map]
    rfl
  have htrees : (rest.map fun code => (Link.operator op, code.tree .leftward)) =
      (rest.map fun code => (Link.operator op, code.row .leftward)).map fun x =>
        (x.1, x.2.resolve .leftward) := by
    rw [map_map]
    rfl
  have hfrom : ∀ code : Code, (Link.operator op).level ≤ (code.tree .leftward).level ↔
      (code.row .leftward).From (Link.operator op).level :=
    fun code => Row.le_level_resolve_iff .leftward hunary (code.level_first_row .leftward)
  have habove : ∀ code : Code, (Link.operator op).level < (code.tree .leftward).level ↔
      (code.row .leftward).Above (Link.operator op).level :=
    fun code => Row.lt_level_resolve_iff .leftward hunary (code.level_first_row .leftward)
  have hlevels : ∀ x ∈ rest.map fun code => (Link.operator op, code.row .leftward),
      x.1.level = (Link.operator op).level := by
    intro x hx
    obtain ⟨code, -, rfl⟩ := mem_map.mp hx
    rfl
  rw [Code.tree, joined, Code.row, hlinks, htrees]
  constructor
  · intro h
    -- the operator of the call is outermost, so nothing in the row is looser
    have hroot : (Link.operator op).level ≤ (((first.row .leftward).extend
        (rest.map fun code => (Link.operator op, code.row .leftward))).resolve
          .leftward).level := by
      have hsame : ∀ x ∈ rest.map fun code => (Link.operator op, code.tree .leftward),
          x.1.level = (Link.operator op).level := by simp
      have hgather := level_gather .leftward hmem (first.tree .leftward) (by simpa using hne) hsame
      rw [hleft] at hgather
      rw [h, ← htrees]
      exact Nat.le_of_eq (congrArg Level.rank hgather.symm)
    have htight : ((first.row .leftward).extend (rest.map fun code =>
        (Link.operator op, code.row .leftward))).first.tree.level = .operand := by
      rw [Row.first_extend]
      exact first.level_first_row .leftward
    have hwhole := (Row.le_level_resolve_iff .leftward hunary htight).mp hroot
    obtain ⟨hfirst, hrest⟩ := hwhole.of_extend
    have hall :=
      Row.above_of_resolve_extend .leftward hmem hleft hfirst (fun x hx =>
      ⟨hlevels x hx, hrest x hx⟩) h
    refine ⟨(hfrom first).mpr hfirst, fun code hcode => (habove code).mpr ?_⟩
    exact hall (Link.operator op, code.row .leftward) (mem_map_of_mem hcode)
  · rintro ⟨hfirst, hrest⟩
    refine Row.resolve_extend_leftFold .leftward hmem (fun x hx => ?_) hleft
      ((hfrom first).mp hfirst)
    obtain ⟨code, hcode, rfl⟩ := mem_map.mp hx
    exact ⟨rfl, (habove code).mp (hrest code hcode)⟩

/-! ## Calls -/

/-- The text of each emitted expression is read as its tree. -/
theorem map_read_text {codes : List Code} (h : Code.areLexical codes) (comparisons : Association) :
    codes.map (fun code => read comparisons code.text) =
      (codes.map (·.tree comparisons)).map some := by
  induction codes with
  | nil => rfl
  | cons code codes ih =>
    obtain ⟨hcode, hcodes⟩ := Bool.and_eq_true_iff.mp h
    simp only [map_cons, ih hcodes, read_text comparisons hcode]

/-- There are as many emitted expressions as expressions. -/
theorem length_expressions {scope : Scope} {es : List Expression} {codes : List Code}
    (h : expressions scope es = .ok codes) : codes.length = es.length := by
  induction es generalizing codes with
  | nil =>
    cases h
    rfl
  | cons e es ih =>
    obtain ⟨code, rest, -, hrest, rfl⟩ := exists_of_map₂_eq_ok h
    rw [length_cons, length_cons, ih hrest]

/-- A call with an operator between its arguments is read as that operator applied to its arguments
from the left exactly if no argument holds an operator that takes a neighbour away. -/
theorem read_elementwiseCall_iff {scope : Scope} (hscope : scope.isLexical = true) {e : Expression}
    (he : e.isWellFormed = true) {call : FunctionCall} (hcall : e.tree.call? = some call)
    {op : Operator} (hop : callForm call.name = .operatorChain op)
    (hlength : 2 ≤ call.arguments.values.length) {codes : List Code}
    (hcodes : expressions scope call.arguments.values = .ok codes) :
    ∃ code t ts, expression scope e = .ok code ∧
      codes.map (fun argument => read .leftward argument.text) = (t :: ts).map some ∧
      (read .leftward code.text =
          some (.group (leftFold t (ts.map fun u => (.operator op, u)))) ↔
        (Link.operator op).level ≤ t.level ∧ ∀ u ∈ ts, (Link.operator op).level < u.level) := by
  obtain ⟨tree, span⟩ := e
  obtain ⟨name, ⟨values, argumentsSpan⟩, callSpan⟩ := call
  have hwf := (Bool.and_eq_true_iff.mp (isWellFormed_of_call? hcall he)).2
  have hholds := holds_expressions hwf hcodes
  have hlexical := hholds.lexical hscope
  have hemit : expression scope ⟨tree, span⟩ = .ok (.group (joined op codes)) := by
    have hmany : ¬ values.length < 2 := Nat.not_lt.mpr hlength
    change operators scope tree = _
    rw [operators_of_call? hcall, functionCall.eq_def]
    simp only [hop, if_neg hmany, hcodes]
    rfl
  have hread : read .leftward (Code.group (joined op codes)).text =
      some (.group ((joined op codes).tree .leftward)) := by
    have hgroup : (Code.group (joined op codes)).isLexical = true :=
      (hholds.joined op).lexical hscope
    rw [read_text .leftward hgroup, Code.tree, Code.row, Row.resolve_single]
    rfl
  have hcount : 2 ≤ codes.length := by rwa [length_expressions hcodes]
  cases codes with
  | nil => exact absurd hcount (by simp)
  | cons first rest =>
    have hne : rest ≠ [] := by
      rintro rfl
      exact absurd hcount (by simp)
    have hiff := tree_joined_iff (level_of_operatorChain hop) first rest hne
    refine ⟨_, first.tree .leftward, rest.map (Code.tree .leftward), hemit,
      map_read_text hlexical .leftward, ?_⟩
    rw [hread, Option.some.injEq, Tree.group.injEq, map_map]
    simp only [forall_mem_map]
    exact hiff

/-- `np.multiply(a + b, c)`, which is emitted as `(a .+ b .* c)`. -/
def productOfSum : Expression :=
  ⟨.primary ⟨.library ⟨"multiply", ⟨[⟨.sum (nameOperand "a") [(.add, nameOperand "b")], {}⟩,
    ⟨nameOperand "c", {}⟩], {}⟩, {}⟩, [], {}⟩, {}⟩

theorem read_productOfSum_iff :
    ∃ code t ts, expression plainScope productOfSum = .ok code ∧
      [Code.chain (.name "a") [(.sum .add, .name "b")], .name "c"].map
        (fun argument => read .leftward argument.text) = (t :: ts).map some ∧
      (read .leftward code.text =
          some (.group (leftFold t (ts.map fun u => (.operator (.product .mul), u)))) ↔
        (Link.operator (.product .mul)).level ≤ t.level ∧
          ∀ u ∈ ts, (Link.operator (.product .mul)).level < u.level) := by
  have hscope : plainScope.isLexical = true := by decide
  have hwf : productOfSum.isWellFormed = true := by decide
  exact read_elementwiseCall_iff hscope hwf rfl (by decide) (by decide) rfl

/-- The product takes the second operand of the sum away: the text is read as `a .+ (b .* c)`. -/
theorem read_productOfSum :
    ∃ code, expression plainScope productOfSum = .ok code ∧
      read .leftward code.text = some (.group (.binary (.operator (.sum .add)) (.leaf "a")
        (.binary (.operator (.product .mul)) (.leaf "b") (.leaf "c")))) := by
  refine ⟨_, rfl, ?_⟩
  exact read_text .leftward (by decide)

end Offside.Emit
