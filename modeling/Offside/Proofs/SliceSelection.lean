import Mathlib.Data.List.Sort
import Offside.Proofs.Emit.Lexical

/-!
# Elements that slices select

Positions of the source count from 0 and a slice leaves out its upper bound; indices of the emitted
code count from 1 and a range holds its last one.  A slice with literal bounds that runs upwards
never leaves the sequence, and the emitted range selects the elements of the slice, except for one
case: from a bound that is not negative one is taken too many, so the element right before that
bound is missing (`select_subscript_iff`).
-/

namespace Offside

open List Target Emit

/-! ## Slices of the source -/

/-- The bounds and the step of a slice, each of them a number or left out. -/
structure SliceBounds where
  lower : Option Int
  upper : Option Int
  step : Option Int
deriving DecidableEq, Repr

namespace SliceBounds

/-- The value of a bound that is a literal or left out. -/
def literal? : Option Expression → Option (Option Int)
  | none => some none
  | some e => e.tree.integer?.map some

/-- The bounds of a slice with literals only. -/
def ofSlice? : Slice → Option SliceBounds
  | .index _ => none
  | .range lower upper step => do return ⟨← literal? lower, ← literal? upper, ← literal? step⟩

/-- The position of a bound: a negative one counts from the end, and none lies outside. -/
def place (length : Nat) (bound : Int) : Int :=
  if 0 ≤ bound then min bound length else max 0 (length + bound)

/-- Where a slice that runs upwards starts. -/
def start (b : SliceBounds) (length : Nat) : Int :=
  (b.lower.map (place length)).getD 0

/-- Where a slice that runs upwards stops. -/
def stop (b : SliceBounds) (length : Nat) : Int :=
  (b.upper.map (place length)).getD length

def stride (b : SliceBounds) : Int := b.step.getD 1

/-- The positions of a sequence before some end that whole strides lead to. -/
def positionsBefore (b : SliceBounds) (length : Nat) (last : Int) : List Nat :=
  (range length).filter fun x => b.start length ≤ x ∧ x < last ∧ b.stride ∣ x - b.start length

/-- The positions that a slice selects. -/
def positions (b : SliceBounds) (length : Nat) : List Nat :=
  b.positionsBefore length (b.stop length)

/-- The elements that a slice selects. -/
def slice {α : Type} (b : SliceBounds) (xs : List α) : List α :=
  (b.positions xs.length).filterMap (xs[·]?)

/-- The bounds lie in a sequence of the given length, counted from its start or from its end, and
the slice runs upwards. -/
structure IsAscending (b : SliceBounds) (length : Nat) : Prop where
  lower : ∀ v ∈ b.lower, -length ≤ v ∧ v ≤ length
  upper : ∀ v ∈ b.upper, -length ≤ v ∧ v ≤ length
  step : ∀ v ∈ b.step, 0 < v

end SliceBounds

/-! ## Subscripts of the emitted code -/

namespace Target

/-- The numbers from a first to a last one, in steps. -/
def progression (first step last : Int) : List Int :=
  (range ((last - first).fdiv step + 1).toNat).map fun (k : Nat) => first + step * k

/-- The value of an index inside a subscript of a sequence of the given length. -/
def Code.index? (length : Nat) : Code → Option Int
  | .integer value => some value
  | .lastIndex => some length
  | .group inner => inner.index? length
  | .sign .add operand => operand.index? length
  | .sign .sub operand => (operand.index? length).map (- ·)
  | .chain first [(.plus, .integer value)] => (first.index? length).map (· + value)
  | .chain first [(.minus, .integer value)] => (first.index? length).map (· - value)
  | _ => none

/-- The indices that a range inside a subscript stands for. -/
def Code.indices? (length : Nat) : Code → Option (List Int)
  | .everything => some (progression 1 1 length)
  | .range first none last => do return progression (← first.index? length) 1 (← last.index? length)
  | .range first (some step) last => do
    let step ← step.index? length
    if step = 0 then none
    else return progression (← first.index? length) step (← last.index? length)
  | _ => none

/-- The element at an index, if there is one. -/
def element? {α : Type} (xs : List α) (index : Int) : Option α :=
  if 1 ≤ index then xs[(index - 1).toNat]? else none

/-- The elements that a range inside a subscript selects, if all of its indices have one. -/
def Code.select {α : Type} (xs : List α) (code : Code) : Option (List α) := do
  (← code.indices? xs.length).mapM (element? xs)

theorem mem_progression {first step last i : Int} (hstep : 0 < step) :
    i ∈ progression first step last ↔ first ≤ i ∧ i ≤ last ∧ step ∣ i - first := by
  have hcount (k : Nat) : k < ((last - first).fdiv step + 1).toNat ↔ first + step * k ≤ last := by
    rw [Int.fdiv_eq_ediv_of_nonneg _ hstep.le, Int.lt_toNat, Int.lt_add_one_iff,
      Int.le_ediv_iff_mul_le hstep, Int.mul_comm]
    omega
  simp only [progression, mem_map, mem_range, hcount]
  constructor
  · rintro ⟨k, hk, rfl⟩
    have hpos : 0 ≤ step * k := Int.mul_nonneg hstep.le (Int.natCast_nonneg k)
    exact ⟨by omega, hk, ⟨k, by omega⟩⟩
  · rintro ⟨hfirst, hlast, c, hc⟩
    have hpos : 0 ≤ c := Int.le_of_mul_le_mul_left (a := step) (by omega) hstep
    obtain ⟨k, rfl⟩ := Int.eq_ofNat_of_zero_le hpos
    exact ⟨k, by omega, by omega⟩

theorem pairwise_lt_progression {first step : Int} (hstep : 0 < step) (last : Int) :
    (progression first step last).Pairwise (· < ·) := by
  rw [progression, pairwise_map]
  refine pairwise_lt_range.imp ?_
  intro k k' hk
  have := Int.mul_lt_mul_of_pos_left (Int.ofNat_lt.mpr hk) hstep
  omega

theorem mapM_element? {α : Type} {xs : List α} {indices : List Int}
    (h : ∀ i ∈ indices, 1 ≤ i ∧ i ≤ xs.length) :
    indices.mapM (element? xs) = some (indices.filterMap (element? xs)) := by
  induction indices with
  | nil => rfl
  | cons i indices ih =>
    obtain ⟨⟨hi, hi'⟩, h⟩ := forall_mem_cons.mp h
    have hget : xs[(i - 1).toNat]? = some (xs.get ⟨(i - 1).toNat, by omega⟩) := by
      simp
    have helement : element? xs i = some (xs.get ⟨(i - 1).toNat, by omega⟩) := by
      rw [element?, if_pos hi, hget]
    rw [mapM_cons, ih h, filterMap_cons, helement]
    rfl

end Target

/-! ## Emitted bounds -/

variable {v : Int}

namespace Emit

theorem index?_groupIf (length : Nat) (brackets : Bool) (code : Code) :
    (groupIf brackets code).index? length = code.index? length := by
  cases brackets <;> rfl

/-- A literal with signs is emitted as a number with the same value. -/
theorem exists_of_integer? (scope : Scope) (length : Nat) :
    ∀ {tree : Expr} {v : Int}, tree.integer? = some v →
      ∃ code, operators scope tree = .ok code ∧ code.index? length = some v
  | .sign .sub inner, v, h => by
    obtain ⟨w, hw, rfl⟩ := Option.map_eq_some_iff.mp h
    obtain ⟨code, hcode, hindex⟩ := exists_of_integer? scope length hw
    refine ⟨.sign .sub (groupIf code.startsSigned code), ?_, ?_⟩
    · rw [operators, hcode]
      rfl
    · rw [Code.index?, index?_groupIf, hindex]
      rfl
  | .sign .add inner, v, h => by
    replace h : inner.integer? = some v := h
    obtain ⟨code, hcode, hindex⟩ := exists_of_integer? scope length h
    refine ⟨.sign .add (groupIf code.startsSigned code), ?_, ?_⟩
    · rw [operators, hcode]
      rfl
    · rw [Code.index?, index?_groupIf, hindex]
  | .primary ⟨.integer value, [], span⟩, v, h => by
    cases h
    exact ⟨.integer value, rfl, rfl⟩

/-- The index that a literal bound becomes in a sequence of the given length. -/
def Bound.indexOf (length : Nat) (v : Int) (kind : Bound) : Int :=
  let shift : Int := match kind with
    | index => 1
    | upper => if 0 ≤ v then -1 else 0
    | descendingUpper => 2
  (if 0 ≤ v then v else length + v) + shift

theorem index?_fromLast (length distance : Nat) :
    (fromLast distance).index? length = some (length - distance : Int) := by
  unfold fromLast
  split
  · subst distance
    simp [Code.index?]
  · rfl

theorem eq_integer_of_literal64? {code : Code} (h : literal64? v = some code) :
    code = .integer v := by
  unfold literal64? at h
  split at h
  · exact (Option.some.inj h).symm
  · cases h

theorem index?_of_fold? {length : Nat} {kind : Bound} {code : Code} (h : kind.fold? v = some code) :
    code.index? length = some (kind.indexOf length v) := by
  unfold Bound.indexOf
  by_cases hv : 0 ≤ v
  · cases kind <;> simp only [Bound.fold?, if_pos hv] at h ⊢
    · rw [eq_integer_of_literal64? h]
      rfl
    · rw [← Option.some.inj h]
      rfl
    · rw [eq_integer_of_literal64? h]
      rfl
  · cases kind <;> simp only [Bound.fold?, if_neg hv] at h ⊢
    · rw [← Option.some.inj h, index?_fromLast]
      grind
    · rw [← Option.some.inj h, index?_fromLast]
      grind
    · split at h
      · subst v
        rw [← Option.some.inj h]
        change some ((length : Int) + 1) = _
        grind
      · rw [← Option.some.inj h, index?_fromLast]
        grind

theorem exists_of_bound (scope : Scope) (length : Nat) (kind : Bound) {e : Expression}
    (h : e.tree.integer? = some v) :
    ∃ code, bound scope kind e = .ok code ∧ code.index? length = some (kind.indexOf length v) := by
  obtain ⟨tree, span⟩ := e
  replace h : tree.integer? = some v := h
  rw [bound, h, Option.bind_some]
  cases hfold : kind.fold? v with
  | some code => exact ⟨code, rfl, index?_of_fold? hfold⟩
  | none =>
    obtain ⟨code, hcode, hindex⟩ := exists_of_integer? scope length h
    rw [hcode]
    refine ⟨_, rfl, ?_⟩
    have hv : 0 ≤ v := by
      by_contra hv
      cases kind <;> grind [Bound.fold?]
    cases kind with
    | index | descendingUpper =>
      simp [Bound.shift, Code.index?, index?_groupIf, hindex, Bound.indexOf, hv]
    | upper => simp [Bound.fold?, hv] at hfold

end Emit

/-! ## Selections -/

namespace SliceBounds

variable {b : SliceBounds} {length : Nat}

/-- The last index of the emitted range. -/
def last (b : SliceBounds) (length : Nat) : Int :=
  (b.upper.map fun v => Bound.upper.indexOf length v).getD length

theorem place_eq (hv : -length ≤ v ∧ v ≤ length) :
    place length v = if 0 ≤ v then v else length + v := by
  unfold place
  split <;> omega

theorem IsAscending.start_mem (hb : b.IsAscending length) :
    0 ≤ b.start length ∧ b.start length ≤ length := by
  unfold start
  cases hlower : b.lower with
  | none => simp
  | some v =>
    have hv := hb.lower v hlower
    rw [Option.map_some, Option.getD_some, place_eq hv]
    split <;> omega

theorem IsAscending.last_le (hb : b.IsAscending length) : b.last length ≤ length := by
  unfold last
  cases hupper : b.upper with
  | none => simp
  | some v =>
    have hv := hb.upper v hupper
    simp only [Option.map_some, Option.getD_some, Bound.indexOf]
    split <;> omega

theorem IsAscending.stride_pos (hb : b.IsAscending length) : 0 < b.stride := by
  unfold stride
  cases hstep : b.step with
  | none => decide
  | some v => exact hb.step v hstep

/-- An end of the emitted range.  A default stands in place of a bound that is left out. -/
theorem exists_end (scope : Scope) (length : Nat) (kind : Bound) {limit : Option Expression}
    {value : Option Int} (h : literal? limit = some value) {default : Code} {d : Int}
    (hd : default.index? length = some d) :
    ∃ code, limit.elim (.ok default) (bound scope kind) = .ok code ∧
      code.index? length = some ((value.map fun v => kind.indexOf length v).getD d) := by
  cases limit with
  | none =>
    cases h
    exact ⟨default, rfl, hd⟩
  | some e =>
    obtain ⟨v, hv, rfl⟩ := Option.map_eq_some_iff.mp h
    exact exists_of_bound scope length kind hv

/-- Whether the slice runs downwards. -/
def runsDown (b : SliceBounds) : Bool := b.step.any (· < 0)

variable {step : Option Expression}

theorem isDescending_eq (h : literal? step = some b.step) : isDescending step = b.runsDown := by
  unfold runsDown
  cases step with
  | none =>
    rw [← Option.some.inj h]
    rfl
  | some e =>
    obtain ⟨v, hv, hstep⟩ := Option.map_eq_some_iff.mp h
    simp [isDescending, hv, ← hstep]

/-- A slice goes from its lower bound to its upper bound; a bound left out is the first or the last
index, as the direction asks. -/
theorem subscript_range_eq (scope : Scope) {lower upper : Option Expression} {descending : Bool}
    (hstep : isDescending step = descending)
    (hgiven : ¬(lower = none ∧ upper = none ∧ step = none)) :
    subscript scope (.range lower upper step) = (do
      let first ← lower.elim (.ok (if descending then .lastIndex else .integer 1))
        (bound scope .index)
      let last ← upper.elim (.ok (if descending then .integer 1 else .lastIndex))
        (bound scope (if descending then .descendingUpper else .upper))
      sliceBetween scope step first last) := by
  subst hstep
  cases lower <;> cases upper <;> cases step <;> simp_all [subscript, sliceBetween]

/-- A slice between two ends with values stands for the numbers from one to the other. -/
theorem exists_of_sliceBetween (scope : Scope) {st : Option Int} (hst : literal? step = some st)
    (hne : st ≠ some 0) {first last : Code} {a z : Int} (hfirst : first.index? length = some a)
    (hlast : last.index? length = some z) : ∃ code, sliceBetween scope step first last = .ok code ∧
      code.indices? length = some (progression a (st.getD 1) z) := by
  cases step with
  | none =>
    cases hst
    refine ⟨.range first none last, rfl, ?_⟩
    rw [Code.indices?, hfirst, hlast]
    rfl
  | some e =>
    obtain ⟨v, hv, rfl⟩ := Option.map_eq_some_iff.mp hst
    obtain ⟨tree, span⟩ := e
    obtain ⟨code, hcode, hindex⟩ := exists_of_integer? scope length hv
    have hv : v ≠ 0 := fun h => hne (congrArg some h)
    refine ⟨.range first (some code) last, ?_, ?_⟩
    · change (do return Code.range first (some (← expression scope ⟨tree, span⟩)) last) = _
      rw [expression, hcode]
      rfl
    · rw [Code.indices?, hfirst, hlast, hindex]
      simp [hv]

/-- The emitted range goes from the index of the lower bound in strides to the index of the upper
bound. -/
theorem exists_of_ofSlice? (scope : Scope) (length : Nat) {s : Slice} (hs : ofSlice? s = some b)
    (hne : b.step ≠ some 0) :
    ∃ code, subscript scope s = .ok code ∧ code.indices? length = some (progression
      ((b.lower.map fun v => Bound.index.indexOf length v).getD
        (if b.runsDown then length else 1)) b.stride
      ((b.upper.map fun v =>
        (if b.runsDown then Bound.descendingUpper else .upper).indexOf length v).getD
        (if b.runsDown then 1 else length))) := by
  cases s with
  | index e => cases hs
  | range lower upper step =>
    obtain ⟨lo, hlo, hs⟩ := Option.bind_eq_some_iff.mp hs
    obtain ⟨hi, hhi, hs⟩ := Option.bind_eq_some_iff.mp hs
    obtain ⟨st, hst, hs⟩ := Option.bind_eq_some_iff.mp hs
    cases hs
    by_cases hgiven : lower = none ∧ upper = none ∧ step = none
    · obtain ⟨rfl, rfl, rfl⟩ := hgiven
      cases hlo
      cases hhi
      cases hst
      exact ⟨.everything, rfl, rfl⟩
    · rw [subscript_range_eq scope (isDescending_eq (b := ⟨lo, hi, st⟩) hst) hgiven]
      generalize runsDown ⟨lo, hi, st⟩ = descending
      obtain ⟨first, hfirst, hfirstIndex⟩ := exists_end scope length .index hlo
        (show (if descending then Code.lastIndex else .integer 1).index? length =
          some (if descending then (length : Int) else 1) by cases descending <;> rfl)
      obtain ⟨last, hlast, hlastIndex⟩ := exists_end scope length
        (if descending then .descendingUpper else .upper) hhi
        (show (if descending then Code.integer 1 else .lastIndex).index? length =
          some (if descending then 1 else (length : Int)) by cases descending <;> rfl)
      rw [hfirst, hlast]
      exact exists_of_sliceBetween scope hst hne hfirstIndex hlastIndex

/-- The emitted range starts behind the first position, takes whole strides and ends at the last
index. -/
theorem exists_of_isAscending (scope : Scope) {s : Slice} (hs : ofSlice? s = some b)
    (hb : b.IsAscending length) :
    ∃ code, subscript scope s = .ok code ∧
      code.indices? length = some (progression (b.start length + 1) b.stride (b.last length)) := by
  have hup : b.runsDown = false := by
    unfold runsDown
    cases hstep : b.step with
    | none => rfl
    | some v => exact decide_eq_false (hb.step v hstep).le.not_gt
  have hstart : (b.lower.map fun v => Bound.index.indexOf length v).getD 1 =
      b.start length + 1 := by
    unfold start
    cases hlower : b.lower with
    | none => rfl
    | some v =>
      rw [Option.map_some, Option.map_some, Option.getD_some, Option.getD_some,
        place_eq (hb.lower v hlower)]
      rfl
  obtain ⟨code, hcode, hindices⟩ :=
    exists_of_ofSlice? scope length hs fun h => absurd (hb.step 0 h) (by decide)
  refine ⟨code, hcode, ?_⟩
  rw [hindices, hup, ← hstart]
  rfl

theorem sortedLT_positionsBefore (b : SliceBounds) (length : Nat) (last : Int) :
    (b.positionsBefore length last).SortedLT := by
  rw [sortedLT_iff_pairwise]
  exact pairwise_lt_range.filter _

theorem mem_positionsBefore {last : Int} {x : Nat} :
    x ∈ b.positionsBefore length last ↔
      x < length ∧ b.start length ≤ x ∧ x < last ∧ b.stride ∣ x - b.start length := by
  simp [positionsBefore]

/-- The indices of the emitted range are one more than positions of the sequence. -/
theorem map_progression (hb : b.IsAscending length) :
    (b.positionsBefore length (b.last length)).map (fun x : Nat => (x : Int) + 1) =
      progression (b.start length + 1) b.stride (b.last length) := by
  have hsorted :
      ((b.positionsBefore length (b.last length)).map (fun x : Nat => (x : Int) + 1)).SortedLT := by
    rw [sortedLT_iff_pairwise, pairwise_map]
    exact (sortedLT_positionsBefore b length _).pairwise.imp (by omega)
  refine hsorted.eq_of_mem_iff
    (sortedLT_iff_pairwise.mpr (pairwise_lt_progression hb.stride_pos _)) ?_
  intro i
  obtain ⟨hstart, -⟩ := hb.start_mem
  have hlast := hb.last_le
  rw [mem_progression hb.stride_pos, mem_map]
  constructor
  · rintro ⟨x, hx, rfl⟩
    obtain ⟨-, hfirst, hx, hstride⟩ := mem_positionsBefore.mp hx
    refine ⟨by omega, by omega, ?_⟩
    rwa [Int.add_sub_add_right]
  · rintro ⟨hfirst, hi, hstride⟩
    obtain ⟨x, hx⟩ := Int.eq_ofNat_of_zero_le (by omega : 0 ≤ i - 1)
    obtain rfl : i = x + 1 := by omega
    rw [Int.add_sub_add_right] at hstride
    exact ⟨x, mem_positionsBefore.mpr ⟨by omega, by omega, by omega, hstride⟩, rfl⟩

/-- What the emitted range selects. -/
theorem select_of_indices? {α : Type} {xs : List α} (hb : b.IsAscending xs.length) {code : Code}
    (h : code.indices? xs.length =
      some (progression (b.start xs.length + 1) b.stride (b.last xs.length))) :
    code.select xs =
      some ((b.positionsBefore xs.length (b.last xs.length)).filterMap (xs[·]?)) := by
  have helement (x : Nat) : element? xs ((x : Int) + 1) = xs[x]? := by
    rw [element?, if_pos (by omega)]
    simp
  rw [Code.select, h, ← map_progression hb]
  change mapM _ _ = _
  rw [mapM_element?, filterMap_map]
  · simp only [Function.comp_def, helement]
  · intro i hi
    obtain ⟨x, hx, rfl⟩ := mem_map.mp hi
    obtain ⟨hlength, -⟩ := mem_positionsBefore.mp hx
    omega

theorem last_of_upper (hv : 0 ≤ v) (hupper : b.upper = some v) : b.last length = v - 1 := by
  simp [last, hupper, Bound.indexOf, hv, Int.sub_eq_add_neg]

theorem stop_of_upper (hb : b.IsAscending length) (hupper : b.upper = some v) :
    b.stop length = if 0 ≤ v then v else length + v := by
  rw [stop, hupper, Option.map_some, Option.getD_some, place_eq (hb.upper v hupper)]

/-- The position right before a bound that is not negative is missing. -/
theorem positions_eq_append (hb : b.IsAscending length) {x : Nat} (hx : x ∈ b.positions length)
    (hupper : b.upper = some ((x : Int) + 1)) :
    b.positions length = b.positionsBefore length (b.last length) ++ [x] := by
  have hlast : b.last length = x := by
    rw [last_of_upper (by omega) hupper]
    omega
  have hstop : b.stop length = x + 1 := by
    rw [stop_of_upper hb hupper, if_pos (by omega)]
  have hsorted : (b.positionsBefore length (b.last length) ++ [x]).SortedLT := by
    rw [sortedLT_iff_pairwise, pairwise_append]
    refine ⟨(sortedLT_positionsBefore b length _).pairwise, pairwise_singleton _ _, ?_⟩
    intro y hy z hz
    obtain rfl := mem_singleton.mp hz
    obtain ⟨-, -, hy, -⟩ := mem_positionsBefore.mp hy
    omega
  refine (sortedLT_positionsBefore b length _).eq_of_mem_iff hsorted ?_
  intro y
  obtain ⟨hlength, hstart, -, hstride⟩ := mem_positionsBefore.mp hx
  rw [mem_append, mem_singleton, mem_positionsBefore, mem_positionsBefore, hlast, hstop]
  constructor
  · rintro ⟨hy, hfirst, hbefore, hwhole⟩
    by_cases heq : y = x
    · exact .inr heq
    · exact .inl ⟨hy, hfirst, by omega, hwhole⟩
  · rintro (⟨hy, hfirst, hbefore, hwhole⟩ | rfl)
    · exact ⟨hy, hfirst, by omega, hwhole⟩
    · exact ⟨hlength, hstart, by omega, hstride⟩

/-- In all other cases nothing is missing. -/
theorem positions_eq_positionsBefore (hb : b.IsAscending length)
    (h : ∀ x ∈ b.positions length, b.upper ≠ some ((x : Int) + 1)) :
    b.positions length = b.positionsBefore length (b.last length) := by
  have hpositions := sortedLT_positionsBefore b length (b.stop length)
  refine hpositions.eq_of_mem_iff (sortedLT_positionsBefore b length _) ?_
  cases hupper : b.upper with
  | none => simp [stop, last, hupper]
  | some v =>
    rw [stop_of_upper hb hupper]
    by_cases hv : 0 ≤ v
    · intro y
      rw [last_of_upper hv hupper, if_pos hv, mem_positionsBefore, mem_positionsBefore]
      constructor
      · rintro ⟨hy, hfirst, hbefore, hwhole⟩
        have hmem : y ∈ b.positions length := by
          rw [positions, mem_positionsBefore, stop_of_upper hb hupper, if_pos hv]
          exact ⟨hy, hfirst, hbefore, hwhole⟩
        have hne : v ≠ y + 1 := by
          intro heq
          exact h y hmem (hupper.trans (congrArg some heq))
        exact ⟨hy, hfirst, by omega, hwhole⟩
      · rintro ⟨hy, hfirst, hbefore, hwhole⟩
        exact ⟨hy, hfirst, by omega, hwhole⟩
    · simp [last, hupper, Bound.indexOf, hv]

end SliceBounds

/-- A slice with literal bounds in a sequence, which runs upwards, is emitted as a range inside the
sequence. The range selects the elements of the slice if its upper bound is left out, is negative or
does not stand right behind an element of the slice; else it selects all of them but that last one.
-/
theorem select_subscript_iff {α : Type} (xs : List α) (scope : Scope) {s : Slice} {b : SliceBounds}
    (hs : SliceBounds.ofSlice? s = some b) (hb : b.IsAscending xs.length) :
    ∃ code selected, subscript scope s = .ok code ∧ code.select xs = some selected ∧
      (selected = b.slice xs ↔ ∀ x ∈ b.positions xs.length, b.upper ≠ some ((x : Int) + 1)) ∧
      ∀ x ∈ b.positions xs.length, b.upper = some ((x : Int) + 1) →
        b.slice xs = selected ++ xs[x]?.toList := by
  obtain ⟨code, hcode, hindices⟩ := b.exists_of_isAscending scope hs hb
  have hmissing : ∀ x ∈ b.positions xs.length, b.upper = some ((x : Int) + 1) →
      b.slice xs = (b.positionsBefore xs.length (b.last xs.length)).filterMap (xs[·]?) ++
        xs[x]?.toList := by
    intro x hx hupper
    rw [SliceBounds.slice, SliceBounds.positions_eq_append hb hx hupper, filterMap_append]
    cases hget : xs[x]? <;> simp [hget]
  refine ⟨code, _, hcode, SliceBounds.select_of_indices? hb hindices, ?_, hmissing⟩
  constructor
  · intro heq x hx hupper
    obtain ⟨hlength, -⟩ := SliceBounds.mem_positionsBefore.mp hx
    have hlonger := congrArg length (hmissing x hx hupper)
    rw [← heq, length_append, getElem?_eq_getElem hlength, Option.toList_some,
      length_singleton] at hlonger
    omega
  · intro h
    rw [SliceBounds.slice, SliceBounds.positions_eq_positionsBefore hb h]

/-- Every third element from the last but five on, up to the last: the upper bound counts from the
end, so nothing is missing. -/
theorem select_subscript_iff_fromEnd :
    ∃ (s : Slice) (code : Code) (b : SliceBounds), SliceBounds.ofSlice? s = some b ∧
      b = ⟨some (-6), some (-1), some 3⟩ ∧ b.IsAscending 7 ∧ subscript plainScope s = .ok code ∧
      code.select [10, 11, 12, 13, 14, 15, 16] = some (b.slice [10, 11, 12, 13, 14, 15, 16]) ∧
      b.slice [10, 11, 12, 13, 14, 15, 16] = [11, 14] := by
  let xs : List Nat := [10, 11, 12, 13, 14, 15, 16]
  let literal (v : Nat) : Expr := .primary ⟨.integer v, [], {}⟩
  let s : Slice := .range (some ⟨.sign .sub (literal 6), {}⟩) (some ⟨.sign .sub (literal 1), {}⟩)
    (some ⟨literal 3, {}⟩)
  let b : SliceBounds := ⟨some (-6), some (-1), some 3⟩
  have hs : SliceBounds.ofSlice? s = some b := rfl
  have hb : b.IsAscending xs.length := by
    constructor <;> simp [b, xs]
  obtain ⟨code, selected, hcode, hselect, hiff, -⟩ :=
    select_subscript_iff xs plainScope hs hb
  have hselected : selected = b.slice xs := by
    rw [hiff]
    intro x hx hupper
    have hx := Option.some.inj hupper
    omega
  exact ⟨s, code, b, hs, rfl, hb, hcode, hselected ▸ hselect, by decide⟩

/-- A slice up to the fourth element is emitted as a range up to the third. -/
theorem select_subscript_upTo :
    ∃ (s : Slice) (code : Code) (b : SliceBounds), SliceBounds.ofSlice? s = some b ∧
      b = ⟨some 1, some 4, none⟩ ∧ b.IsAscending 5 ∧ subscript plainScope s = .ok code ∧
      code.text = "2:3" ∧ code.select [10, 11, 12, 13, 14] = some [11, 12] ∧
      b.slice [10, 11, 12, 13, 14] = [11, 12, 13] := by
  let literal (v : Nat) : Expression := ⟨.primary ⟨.integer v, [], {}⟩, {}⟩
  have hb : SliceBounds.IsAscending ⟨some 1, some 4, none⟩ 5 := by
    constructor <;> simp
  exact ⟨.range (some (literal 1)) (some (literal 4)) none, .range (.integer 2) none (.integer 3),
    ⟨some 1, some 4, none⟩, rfl, rfl, hb, rfl, by decide, by decide, by decide⟩

end Offside
