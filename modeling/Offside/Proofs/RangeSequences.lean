import Offside.Proofs.Progressions
import Offside.Proofs.RangeOperands
import Offside.Proofs.Token.Written

/-!
# Numbers of a range

A call of `range` is emitted as a range with colons.  As it is read, that range stands for the
numbers that the call asks for: the start is an operand before a colon, the end is moved by one
against the direction of the step, and a step is a literal with its sign (`read_range_steps`).  The
end of a range is moved at once if it is a literal and the result fits in 64 bits.
-/

namespace Offside

variable {code : Code} {v : Int}

namespace Julia

open Target

/-! ## Values of what is read -/

/-- The value of digits. -/
def decimal? (text : String) : Option Int :=
  if text.toList ≠ [] ∧ text.toList.all Char.isDigit then some (digitsValue text.toList) else none

section Values

variable (values : Tree → Option Int)

/-- The value of an operand.  Numbers, brackets, signs, sums and differences have their own; any
other operand has the value given for it.  What is as loose as a colon is no operand. -/
def Tree.value? : Tree → Option Int
  | .leaf text => (decimal? text).or (values (.leaf text))
  | .group inner => inner.value?.or (values (.group inner))
  | .unary (.sign .add) operand => operand.value?
  | .unary (.sign .sub) operand => operand.value?.map (- ·)
  | .binary (.operator .plus) left right => do return (← left.value?) + (← right.value?)
  | .binary (.operator .minus) left right => do return (← left.value?) - (← right.value?)
  | t => if .range < t.level then values t else none

/-- The numbers that a range stands for. -/
def Tree.sequence? : Tree → Option (List Int)
  | .range first none last => do return progression (← first.value? values) 1 (← last.value? values)
  | .range first (some step) last => do
    let step ← step.value? values
    if step = 0 then none
    else return progression (← first.value? values) step (← last.value? values)
  | _ => none

variable {values}

/-- What has a value is tighter than a colon. -/
theorem lt_level_of_value? {t : Tree} (h : t.value? values = some v) : .range < t.level := by
  unfold Tree.value? at h
  split at h
  · exact (by decide : Level.range < .operand)
  · exact (by decide : Level.range < .operand)
  · exact (by decide : Level.range < .unary)
  · exact (by decide : Level.range < .unary)
  · exact (by decide : Level.range < .sum)
  · exact (by decide : Level.range < .sum)
  · exact (Option.ite_none_right_eq_some.mp h).1

theorem decimal?_toDigits {text : String} {n : Nat} (h : text.toList = Nat.toDigits 10 n) :
    decimal? text = some (n : Int) := by
  obtain ⟨hne, hdigits⟩ := areDigits_toDigits n
  rw [decimal?, h, if_pos ⟨hne, List.all_eq_true.mpr hdigits⟩, digitsValue_toDigits]

end Values

section Codes

variable (comparisons : Association) (values : Tree → Option Int)

/-- Brackets keep a value. -/
theorem value?_groupIf (needed : Bool) (h : (code.tree comparisons).value? values = some v) :
    ((Emit.groupIf needed code).tree comparisons).value? values = some v := by
  cases needed with
  | false => exact h
  | true =>
    change (((Row.single (.group (code.tree comparisons))).resolve comparisons).value? values) = _
    rw [Row.resolve_single, Tree.value?, h]
    rfl

theorem tree_sign (op : SumOp) (h : (code.row comparisons).rest = []) :
    (Code.sign op code).tree comparisons = .unary (.sign op) (code.tree comparisons) := by
  have hfrom : (code.row comparisons).From .power := by
    intro x hx
    rw [h] at hx
    cases hx
  exact Row.resolve_signed comparisons (.sign op) hfrom

theorem rest_row_integer (v : Int) : ((Code.integer v).row comparisons).rest = [] := by
  rw [Code.row]
  split <;> rfl

/-- A number is read as its value. -/
theorem value?_integer (v : Int) : ((Code.integer v).tree comparisons).value? values = some v := by
  rw [Code.tree, Code.row]
  split
  · rename_i hneg
    have hdigits : (toString v.natAbs).toList = Nat.toDigits 10 v.natAbs := Nat.toList_repr
    have hfrom : (Row.single (.leaf (toString v.natAbs))).From .power :=
      fun x hx => absurd hx (by simp [Row.single])
    have habs : v = -(v.natAbs : Int) := by omega
    rw [Row.resolve_signed comparisons _ hfrom, Row.resolve_single, Tree.value?, Tree.value?,
      decimal?_toDigits hdigits, Option.some_or, Option.map_some, ← habs]
  · rename_i hpos
    have hnat : v = (v.toNat : Int) := by omega
    rw [Row.resolve_single, Tree.value?, decimal?_toDigits (toList_toString_of_nonneg (by omega)),
      Option.some_or, ← hnat]

/-- What is put before or behind an operand by one has a value one smaller or larger. -/
theorem value?_shiftLast (descending : Bool) (h : (code.tree comparisons).value? values = some v) :
    ((Emit.shiftLast descending code).tree comparisons).value? values =
      some (if descending then v + 1 else v - 1) := by
  have hrow : (code.row comparisons).From .sum := by
    have habove := (Row.lt_level_resolve_iff comparisons (by decide)
      (code.level_first_row comparisons)).mp (lt_level_of_value? h)
    intro x hx
    have hlt := habove x hx
    rw [Level.lt_def] at hlt
    rw [Level.le_def]
    exact hlt
  have hone : ((Code.integer 1).row comparisons).Above .sum := by
    intro x hx
    rw [rest_row_integer] at hx
    cases hx
  have htree : ∀ op, (Link.operator op).level = .sum →
    (Code.chain code [(op, .integer 1)]).tree comparisons =
      .binary (.operator op) (code.tree comparisons) ((Code.integer 1).tree comparisons) := by
    intro op hop
    refine Row.resolve_extend_leftFold comparisons (by decide) (fun x hx => ?_) rfl hrow
    obtain rfl := List.mem_singleton.mp hx
    exact ⟨hop, hone⟩
  have hgroup : ∀ inner : Code, (Code.group inner).tree comparisons =
      .group (inner.tree comparisons) := by
    intro inner
    rw [Code.tree, Code.row, Row.resolve_single]
    rfl
  rw [Emit.shiftLast, hgroup]
  cases descending with
  | true =>
    rw [if_pos rfl, htree .plus rfl, Tree.value?, Tree.value?, h, value?_integer]
    rfl
  | false =>
    rw [if_neg (by simp), htree .minus rfl, Tree.value?, Tree.value?, h, value?_integer]
    rfl

end Codes

end Julia

namespace Emit

open Target Julia

section Ranges

variable (comparisons : Association) (values : Tree → Option Int) (scope : Scope)

/-! ## Arguments of a range -/

/-- A literal with signs is emitted as an operand with its value. -/
theorem exists_of_literal : ∀ {tree : Expr} {v : Int}, tree.integer? = some v →
    ∃ code, operators scope tree = .ok code ∧ (code.row comparisons).rest = [] ∧
      (code.tree comparisons).value? values = some v
  | .sign op inner, v, h => by
    obtain ⟨w, hw, hsign⟩ : ∃ w, inner.integer? = some w ∧
        (op = .add ∧ v = w ∨ op = .sub ∧ v = -w) := by
      cases op with
      | add => exact ⟨v, h, .inl ⟨rfl, rfl⟩⟩
      | sub =>
        obtain ⟨w, hw, rfl⟩ := Option.map_eq_some_iff.mp h
        exact ⟨w, hw, .inr ⟨rfl, rfl⟩⟩
    obtain ⟨code, hcode, hrest, hvalue⟩ := exists_of_literal hw
    have hrest' : ((groupIf code.startsSigned code).row comparisons).rest = [] := by
      cases code.startsSigned with
      | false => exact hrest
      | true => rfl
    have hvalue' := value?_groupIf comparisons values code.startsSigned hvalue
    refine ⟨.sign op (groupIf code.startsSigned code), ?_, hrest', ?_⟩
    · rw [operators, hcode]
      rfl
    · rw [tree_sign comparisons op hrest']
      rcases hsign with ⟨rfl, rfl⟩ | ⟨rfl, rfl⟩
      · rw [Tree.value?, hvalue']
      · rw [Tree.value?, hvalue']
        rfl
  | .primary ⟨.integer value, [], span⟩, v, h => by
    cases h
    exact ⟨.integer value, rfl, rest_row_integer comparisons _, value?_integer comparisons values _⟩

/-- An expression stands for a number: it is a literal with signs, or it is emitted as an operand
that is read with that value. -/
def HasValue (e : Expression) (v : Int) : Prop :=
  e.tree.integer? = some v ∨ ∃ code t, operand scope e = .ok code ∧
    read comparisons code.text = some t ∧ t.value? values = some v

/-- The arguments of a range with the given start, end and step. -/
inductive IsRange : List Expression → Int → Int → Int → Prop
  | stop {e : Expression} {stop : Int} (h : HasValue comparisons values scope e stop) :
    IsRange [e] 0 stop 1
  | startStop {e e' : Expression} {start stop : Int} (h : HasValue comparisons values scope e start)
      (h' : HasValue comparisons values scope e' stop) : IsRange [e, e'] start stop 1
  | startStopStep {e e' e'' : Expression} {start stop step : Int}
      (h : HasValue comparisons values scope e start)
        (h' : HasValue comparisons values scope e' stop)
      (hstep : e''.tree.integer? = some step) (hne : step ≠ 0) :
      IsRange [e, e', e''] start stop step

/-- The end of a range among its arguments. -/
def rangeStop? : List Expression → Option Expression
  | [stop] | [_, stop] | [_, stop, _] => some stop
  | _ => none

variable {comparisons values scope}

variable {e : Expression}

theorem HasValue.exists_operand (hscope : scope.isLexical) (he : e.isWellFormed)
    (h : HasValue comparisons values scope e v) :
    ∃ code, operand scope e = .ok code ∧ (code.tree comparisons).value? values = some v := by
  rcases h with hliteral | ⟨code, t, hcode, hread, hvalue⟩
  · obtain ⟨tree, span⟩ := e
    obtain ⟨code, hcode, -, hvalue⟩ := exists_of_literal comparisons values scope hliteral
    refine ⟨groupIf (!tree.isSum) code, ?_, value?_groupIf comparisons values _ hvalue⟩
    rw [operand, hcode]
    rfl
  · have hlexical :=
      (leads_operand (fun _ hexpression => leads_expression he hexpression)
      hcode).holds.lexical hscope
    rw [read_text comparisons hlexical] at hread
    cases hread
    exact ⟨code, hcode, hvalue⟩

/-- The last number of a range is the one before its end: as a literal, if the end is one and the
number fits in 64 bits. -/
theorem exists_rangeLast (descending : Bool) {stop : Int} (hcode : operand scope e = .ok code)
    (hvalue : (code.tree comparisons).value? values = some stop) :
    ∃ last, rangeLast scope descending e = .ok last ∧
      (last.tree comparisons).value? values = some (if descending then stop + 1 else stop - 1) ∧
      (e.tree.integer? = some stop →
        last = (foldLast? descending stop).getD (shiftLast descending code)) := by
  obtain ⟨tree, span⟩ := e
  obtain ⟨inner, hinner, rfl⟩ := exists_of_map_eq_ok hcode
  cases hliteral : tree.integer? with
  | none =>
    refine ⟨shiftLast descending (groupIf (!tree.isSum) inner), ?_,
      value?_shiftLast comparisons values descending hvalue, nofun⟩
    rw [rangeLast, hliteral, hinner]
    rfl
  | some v =>
    -- the literal is emitted as an operand too, so its value is the value of the operand
    obtain rfl : v = stop := by
      obtain ⟨code, hcode, -, hv⟩ := exists_of_literal comparisons values scope hliteral
      obtain rfl := Except.ok.inj (hcode.symm.trans hinner)
      have hgroup := value?_groupIf comparisons values (!tree.isSum) hv
      exact Option.some.inj (hgroup.symm.trans hvalue)
    rw [rangeLast, hliteral, Option.bind_some]
    cases hfold : foldLast? descending v with
    | none =>
      refine ⟨shiftLast descending (groupIf (!tree.isSum) inner), ?_,
        value?_shiftLast comparisons values descending hvalue, fun _ => rfl⟩
      rw [hinner]
      rfl
    | some last =>
      refine ⟨last, rfl, ?_, fun _ => rfl⟩
      rw [eq_integer_of_literal64? hfold, value?_integer]

/-- How the last number before a literal end is written, where the end itself is written as given.
-/
def lastText (step stop : Int) (text : String) : String :=
  if -(integerBound : Int) ≤ lastBefore step stop ∧ lastBefore step stop < integerBound then
    toString (lastBefore step stop)
  else "(" ++ text ++ (if 0 < step then " - 1)" else " + 1)")

theorem lastBefore_eq {step : Int} (hne : step ≠ 0) (stop : Int) :
    (if decide (step < 0) then stop + 1 else stop - 1) = lastBefore step stop := by
  unfold lastBefore
  by_cases hpos : 0 < step
  · rw [decide_eq_false (by omega), if_pos hpos]
    rfl
  · rw [decide_eq_true (by omega), if_neg hpos]
    rfl

theorem text_getD_foldLast? {step : Int} (hne : step ≠ 0) (stop : Int) (code : Code) :
    ((foldLast? (decide (step < 0)) stop).getD (shiftLast (decide (step < 0)) code)).text =
      lastText step stop code.text := by
  rw [foldLast?, lastBefore_eq hne, literal64?, lastText]
  split
  · rfl
  · rw [Option.getD_none]
    by_cases hpos : 0 < step
    · rw [decide_eq_false (by omega), if_pos hpos]
      simp [shiftLast, Code.text, String.append_assoc]
      rfl
    · rw [decide_eq_true (by omega), if_neg hpos]
      simp [shiftLast, Code.text, String.append_assoc]
      rfl

/-- The last number of a range whose end stands for a number. -/
theorem HasValue.exists_last (hscope : scope.isLexical) (he : e.isWellFormed) {stop : Int}
    (h : HasValue comparisons values scope e stop) {step : Int} (hne : step ≠ 0) :
    ∃ last, rangeLast scope (decide (step < 0)) e = .ok last ∧
      (last.tree comparisons).value? values = some (lastBefore step stop) ∧
      (e.tree.integer? = some stop →
        ∃ code, operand scope e = .ok code ∧ last.text = lastText step stop code.text) := by
  obtain ⟨code, hcode, hvalue⟩ := h.exists_operand hscope he
  obtain ⟨last, hlast, hlastValue, hliteral⟩ := exists_rangeLast (decide (step < 0)) hcode hvalue
  rw [lastBefore_eq hne] at hlastValue
  refine ⟨last, hlast, hlastValue, fun hstop => ⟨code, hcode, ?_⟩⟩
  rw [hliteral hstop, text_getD_foldLast? hne]

/-- A range between operands with values is read as the numbers from one to the other. -/
theorem sequence?_range {first last : Code} {step : Option Code} {start stop s : Int}
    (hfirst : (first.tree comparisons).value? values = some start)
    (hlast : (last.tree comparisons).value? values = some (lastBefore s stop))
    (hstep : (step.map (·.tree comparisons)).elim (s = 1) fun t => t.value? values = some s)
    (hne : s ≠ 0) :
    ((Code.range first step last).tree comparisons).sequence? values =
      some (steps start stop s) := by
  have hparts := (tree_range_iff comparisons first step (lt_level_of_value? hlast)).mpr
    ⟨Tree.isHead_of_lt (lt_level_of_value? hfirst), by
      intro t ht
      rw [Option.mem_def.mp ht] at hstep
      exact lt_level_of_value? hstep⟩
  rw [hparts, steps_eq_progression hne]
  cases step with
  | none =>
    obtain rfl : s = 1 := hstep
    rw [Option.map_none, Tree.sequence?, hfirst, hlast]
    rfl
  | some step =>
    replace hstep : (step.tree comparisons).value? values = some s := hstep
    rw [Option.map_some, Tree.sequence?, hfirst, hlast, hstep]
    exact if_neg hne

end Ranges

/-! ## Emitted ranges -/

/-- A call of `range` with a start and an end that are numbers, and with a step that is a literal
other than zero or left out, is emitted as a range that is read as the numbers of the call.  A
literal end becomes the exact number before it if that fits in 64 bits; else the emitted code
computes it. -/
theorem read_range_steps (comparisons : Association) (values : Tree → Option Int) {scope : Scope}
    (hscope : scope.isLexical = true) {call : FunctionCall} (hcall : call.isWellFormed = true)
    (hform : callForm call.name = .range) {start stop step : Int}
    (h : IsRange comparisons values scope call.arguments.values start stop step) :
    ∃ first stepCode last t, functionCall scope call = .ok (.range first stepCode last) ∧
      read comparisons (Code.range first stepCode last).text = some t ∧
      t.sequence? values = some (steps start stop step) ∧
      ∀ e ∈ rangeStop? call.arguments.values, e.tree.integer? = some stop →
        ∃ code, operand scope e = .ok code ∧ last.text = lastText step stop code.text := by
  obtain ⟨name, ⟨arguments, argumentsSpan⟩, span⟩ := call
  obtain ⟨-, hwell⟩ := Bool.and_eq_true_iff.mp hcall
  replace h : IsRange comparisons values scope arguments start stop step := h
  -- what is emitted is lexical, so its text is read as its tree
  have hread : ∀ {code : Code},
    functionCall scope ⟨name, ⟨arguments, argumentsSpan⟩, span⟩ = .ok code →
      read comparisons code.text = some (code.tree comparisons) := by
    intro code hcode
    have hleads : Leads scope (Atom.library ⟨name, ⟨arguments, argumentsSpan⟩, span⟩).trace code :=
      leads_atomCode hcall hcode
    exact read_text comparisons (hleads.holds.lexical hscope)
  rw [functionCall.eq_def] at hread ⊢
  simp only [hform] at hread ⊢
  cases h with
  | @stop e stop h =>
    simp only [Arguments.isWellFormed, Expression.areWellFormed, Bool.and_eq_true] at hwell
    obtain ⟨last, hlast, hvalue, htext⟩ := h.exists_last hscope hwell.1 Int.one_ne_zero
    have hemit : (do return Code.range (.integer 0) none (← rangeLast scope false e)) =
        Except.ok (Code.range (.integer 0) none last) := by
      rw [show false = decide ((1 : Int) < 0) from rfl, hlast]
      rfl
    refine ⟨_, _, last, _, hemit, hread hemit, ?_, ?_⟩
    · exact sequence?_range (value?_integer comparisons values 0) hvalue rfl Int.one_ne_zero
    · rintro _ ⟨rfl⟩
      exact htext
  | @startStop e e' start stop h h' =>
    simp only [Arguments.isWellFormed, Expression.areWellFormed, Bool.and_eq_true] at hwell
    obtain ⟨first, hfirst, hstart⟩ := h.exists_operand hscope hwell.1
    obtain ⟨last, hlast, hvalue, htext⟩ := h'.exists_last hscope hwell.2.1 Int.one_ne_zero
    have hemit : (do
        let first ← operand scope e
        return Code.range first none (← rangeLast scope false e')) =
          Except.ok (Code.range first none last) := by
      rw [hfirst, show false = decide ((1 : Int) < 0) from rfl, hlast]
      rfl
    refine ⟨_, _, last, _, hemit, hread hemit,
      sequence?_range hstart hvalue rfl Int.one_ne_zero, ?_⟩
    rintro _ ⟨rfl⟩
    exact htext
  | @startStopStep e e' e'' start stop step h h' hstep hne =>
    simp only [Arguments.isWellFormed, Expression.areWellFormed, Bool.and_eq_true] at hwell
    obtain ⟨first, hfirst, hstart⟩ := h.exists_operand hscope hwell.1
    obtain ⟨last, hlast, hvalue, htext⟩ := h'.exists_last hscope hwell.2.1 hne
    obtain ⟨tree, stepSpan⟩ := e''
    obtain ⟨stepCode, hcode, -, hstepValue⟩ := exists_of_literal comparisons values scope hstep
    have hdescending : isDescending (some ⟨tree, stepSpan⟩) = decide (step < 0) := by
      simp [isDescending, hstep]
    have hemit : (do
        let first ← operand scope e
        let stepCode ← expression scope ⟨tree, stepSpan⟩
        return Code.range first (some stepCode)
          (← rangeLast scope (isDescending (some ⟨tree, stepSpan⟩)) e')) =
        Except.ok (Code.range first (some stepCode) last) := by
      rw [hfirst, expression, hcode, hdescending, hlast]
      rfl
    refine ⟨_, _, last, _, hemit, hread hemit, sequence?_range hstart hvalue hstepValue hne, ?_⟩
    rintro _ ⟨rfl⟩
    exact htext

/-- Every third number from a variable down to zero: the end is moved to zero. -/
theorem read_range_steps_down :
    ∃ (call : FunctionCall) (values : Tree → Option Int) (first last : Code)
      (step : Option Code) (t : Tree),
      call.isWellFormed = true ∧ callForm call.name = .range ∧
      IsRange .chained values plainScope call.arguments.values 10 (-1) (-3) ∧
      functionCall plainScope call = .ok (.range first step last) ∧
      (Code.range first step last).text = "x:-3:0" ∧ read .chained "x:-3:0" = some t ∧
      t.sequence? values = some (steps 10 (-1) (-3)) ∧ steps 10 (-1) (-3) = [10, 7, 4, 1] := by
  let call : FunctionCall := ⟨"range", ⟨[⟨nameOperand "x", {}⟩, ⟨.sign .sub (numeral 1), {}⟩,
    ⟨.sign .sub (numeral 3), {}⟩], {}⟩, {}⟩
  let values : Tree → Option Int
    | .leaf "x" => some 10
    | _ => none
  have hstart : HasValue .chained values plainScope ⟨nameOperand "x", {}⟩ 10 :=
    .inr ⟨.name "x", .leaf "x", rfl, read_text .chained (by decide), by decide⟩
  have hrange : IsRange .chained values plainScope call.arguments.values 10 (-1) (-3) :=
    .startStopStep hstart (.inl rfl) rfl (by decide)
  have hcall : call.isWellFormed = true := by decide
  obtain ⟨first, step, last, t, hcode, hread, hsequence, -⟩ :=
    read_range_steps .chained values (by decide) hcall (by decide) hrange
  have htext : (Code.range first step last).text = "x:-3:0" := by
    rw [← Except.ok.inj hcode]
    decide
  rw [htext] at hread
  exact ⟨call, values, first, last, step, t,
    hcall, by decide, hrange, hcode, htext, hread, hsequence, by decide⟩

end Emit

end Offside
