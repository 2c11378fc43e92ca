import Offside.Proofs.Progressions

/-!
# Literal indices and slices that run downwards

A literal index is emitted as the index of the element that it stands for, counted from 1, whether
it is written from the start or from the end.  A slice that runs downwards, with literal bounds or
none, is emitted as a range that selects its elements in their order.  The conversion of a literal
never leaves the 64-bit numbers that it is done with, so the exact numbers used here are those
numbers (`literal_subscripts_select`).
-/

namespace Offside

open Target Emit

/-! ## Conversion with 64-bit numbers -/

namespace Emit

/-- The signed 64-bit number with a value, if there is one. -/
def signed64? (value : Int) : Option Int64 :=
  if -(integerBound : Int) ≤ value ∧ value < integerBound then some (.ofInt value) else none

/-- The unsigned 64-bit number with a value, if there is one. -/
def unsigned64? (value : Int) : Option UInt64 :=
  if 0 ≤ value ∧ value < 2 * integerBound then some (.ofNat value.toNat) else none

/-- The distance of a 64-bit number from zero. -/
def distance64? (value : Int64) : Option UInt64 := unsigned64? value.toInt.natAbs

/-- A literal bound in the emitted code, where every operation is one on 64-bit numbers.  There is
nothing at all as soon as an operation overflows; only the additions to a bound that is not negative
are checked, and without a sum there is no literal. -/
def Bound.fold64? (value : Int64) : Bound → Option (Option Code)
  | index =>
    if 0 ≤ value then some ((signed64? (value.toInt + 1)).map fun sum => .integer sum.toInt)
    else
      (signed64? (value.toInt + 1)).bind fun sum =>
        (distance64? sum).map fun distance => some (fromLast distance.toNat)
  | upper =>
    if 0 ≤ value then
      (signed64? (value.toInt - 1)).map fun difference => some (.integer difference.toInt)
    else (distance64? value).map fun distance => some (fromLast distance.toNat)
  | descendingUpper =>
    if 0 ≤ value then some ((signed64? (value.toInt + 2)).map fun sum => .integer sum.toInt)
    else if value = -1 then some (some (.chain .lastIndex [(.plus, .integer 1)]))
    else
      (distance64? value).bind fun distance =>
        (unsigned64? (distance.toNat - 2)).map fun less => some (fromLast less.toNat)

theorem exists_signed64? (value : Int) (h : -(integerBound : Int) ≤ value)
    (h' : value < integerBound) :
    ∃ word, signed64? value = some word ∧ word.toInt = value :=
  ⟨_, if_pos ⟨h, h'⟩, Int64.toInt_ofInt_of_le h h'⟩

theorem exists_unsigned64? (value : Int) (h : 0 ≤ value) (h' : value < 2 * integerBound) :
    ∃ word, unsigned64? value = some word ∧ word.toNat = value.toNat := by
  have hsize : value.toNat < UInt64.size := by
    have hbound : (UInt64.size : Int) = 2 * integerBound := by decide
    omega
  exact ⟨_, if_pos ⟨h, h'⟩, UInt64.toNat_ofNat_of_lt hsize⟩

theorem map_signed64? (value : Int) :
    (signed64? value).map (fun word => Code.integer word.toInt) = literal64? value := by
  unfold signed64? literal64?
  split
  · rename_i h
    rw [Option.map_some, Int64.toInt_ofInt_of_le h.1 h.2]
  · rfl

theorem exists_distance64? (value : Int64) :
    ∃ word, distance64? value = some word ∧ word.toNat = value.toInt.natAbs := by
  have hlower : -(integerBound : Int) ≤ value.toInt := Int64.le_toInt value
  have hupper : value.toInt < integerBound := Int64.toInt_lt value
  exact exists_unsigned64? _ (Int.natCast_nonneg _) (by omega)

/-- No operation of the conversion overflows, and it converts to the exact value. -/
theorem Bound.fold64?_eq (kind : Bound) (value : Int64) :
    kind.fold64? value = some (kind.fold? value.toInt) := by
  have hlower : -(integerBound : Int) ≤ value.toInt := Int64.le_toInt value
  have hupper : value.toInt < integerBound := Int64.toInt_lt value
  have hzero : 0 ≤ value ↔ 0 ≤ value.toInt := Int64.le_iff_toInt_le
  have hone : value = -1 ↔ value.toInt = -1 := by
    rw [← Int64.toInt_inj, (by decide : (-1 : Int64).toInt = -1)]
  obtain ⟨distance, hdistance, hnat⟩ := exists_distance64? value
  by_cases hsign : 0 ≤ value.toInt
  · cases kind with
    | index | descendingUpper =>
      rw [fold64?, fold?, if_pos (hzero.mpr hsign), if_pos hsign, map_signed64?]
    | upper =>
      obtain ⟨difference, hword, hvalue⟩ :=
        exists_signed64? (value.toInt - 1) (by omega) (by omega)
      rw [fold64?, fold?, if_pos (hzero.mpr hsign), if_pos hsign, hword, Option.map_some, hvalue]
  · have hsign64 : ¬ 0 ≤ value := mt hzero.mp hsign
    cases kind with
    | index =>
      obtain ⟨sum, hword, hvalue⟩ := exists_signed64? (value.toInt + 1) (by omega) (by omega)
      obtain ⟨far, hfar, hfarNat⟩ := exists_distance64? sum
      rw [fold64?, fold?, if_neg hsign64, if_neg hsign, hword, Option.bind_some, hfar,
        Option.map_some,
        hfarNat, hvalue]
    | upper => rw [fold64?, fold?, if_neg hsign64, if_neg hsign, hdistance, Option.map_some, hnat]
    | descendingUpper =>
      rw [fold64?, fold?, if_neg hsign64, if_neg hsign]
      by_cases hlast : value.toInt = -1
      · rw [if_pos (hone.mpr hlast), if_pos hlast]
      · obtain ⟨less, hless, hlessNat⟩ :=
          exists_unsigned64? (distance.toNat - 2) (by omega) (by omega)
        have hnear : less.toNat = value.toInt.natAbs - 2 := by omega
        rw [if_neg (mt hone.mp hlast), if_neg hlast, hdistance, Option.bind_some, hless,
          Option.map_some, hnear]

end Emit

/-! ## Slices of the source that run downwards -/

/-- The position that a literal index stands for: a negative one counts from the end. -/
def position (length : Nat) (index : Int) : Int := if 0 ≤ index then index else length + index

namespace SliceBounds

/-- The position of a bound of a slice that runs downwards: none lies outside, but one may lie right
before the first element. -/
def placeBelow (length : Nat) (bound : Int) : Int :=
  if 0 ≤ bound then min bound (length - 1) else max (-1) (length + bound)

/-- Where a slice that runs downwards starts. -/
def top (b : SliceBounds) (length : Nat) : Int :=
  (b.lower.map (placeBelow length)).getD (length - 1)

/-- Where a slice that runs downwards stops. -/
def bottom (b : SliceBounds) (length : Nat) : Int := (b.upper.map (placeBelow length)).getD (-1)

/-- The elements that a slice selects that runs downwards. -/
def sliceDown {α : Type} (b : SliceBounds) (xs : List α) : List α :=
  (steps (b.top xs.length) (b.bottom xs.length) b.stride).filterMap fun i => xs[i.toNat]?

/-- The bounds stand for elements of a sequence of the given length, and the slice runs downwards.
-/
structure IsDescending (b : SliceBounds) (length : Nat) : Prop where
  lower : ∀ v ∈ b.lower, -length ≤ v ∧ v < length
  upper : ∀ v ∈ b.upper, -length ≤ v ∧ v < length
  step : ∃ v ∈ b.step, v < 0

variable {b : SliceBounds} {length : Nat}

theorem placeBelow_eq {v : Int} (hv : -length ≤ v ∧ v < length) :
    placeBelow length v = position length v := by
  unfold placeBelow position
  split <;> omega

theorem IsDescending.top_lt (hb : b.IsDescending length) : b.top length < length := by
  unfold top
  cases hlower : b.lower with
  | none =>
    rw [Option.map_none, Option.getD_none]
    omega
  | some v =>
    rw [Option.map_some, Option.getD_some, placeBelow_eq (hb.lower v hlower), position]
    have hv := hb.lower v hlower
    split <;> omega

theorem neg_one_le_bottom (hb : b.IsDescending length) : -1 ≤ b.bottom length := by
  unfold bottom
  cases hupper : b.upper with
  | none => simp
  | some v =>
    rw [Option.map_some, Option.getD_some, placeBelow_eq (hb.upper v hupper), position]
    have hv := hb.upper v hupper
    split <;> omega

theorem IsDescending.stride_neg (hb : b.IsDescending length) : b.stride < 0 := by
  obtain ⟨v, hv, hneg⟩ := hb.step
  rw [stride, hv]
  exact hneg

/-- The indices of the emitted range are one more than the positions of the slice. -/
theorem exists_of_isDescending (scope : Scope) {s : Slice} (hs : ofSlice? s = some b)
    (hb : b.IsDescending length) :
    ∃ code, subscript scope s = .ok code ∧
      code.indices? length =
        some ((steps (b.top length) (b.bottom length) b.stride).map (· + 1)) := by
  have hneg := hb.stride_neg
  obtain ⟨v, hv, hv'⟩ := hb.step
  have hv : b.step = some v := hv
  have hdown : b.runsDown := by simp [runsDown, hv, hv']
  have hne : b.step ≠ some 0 := by
    rw [hv]
    exact fun h => absurd (Option.some.inj h) hv'.ne
  have htop : (b.lower.map fun v => Bound.index.indexOf length v).getD length =
      b.top length + 1 := by
    unfold top
    cases hlower : b.lower with
    | none => simp
    | some v =>
      rw [Option.map_some, Option.map_some, Option.getD_some, Option.getD_some,
        placeBelow_eq (hb.lower v hlower)]
      rfl
  have hbottom : (b.upper.map fun v => Bound.descendingUpper.indexOf length v).getD 1 =
      b.bottom length + 1 + 1 := by
    unfold bottom
    cases hupper : b.upper with
    | none => rfl
    | some v =>
      rw [Option.map_some, Option.map_some, Option.getD_some, Option.getD_some,
        placeBelow_eq (hb.upper v hupper), Int.add_assoc]
      rfl
  obtain ⟨code, hcode, hindices⟩ := exists_of_ofSlice? scope length hs hne
  refine ⟨code, hcode, ?_⟩
  simp only [hdown, if_true, htop, hbottom] at hindices
  rw [hindices, steps_eq_progression hneg.ne, lastBefore, if_neg hneg.le.not_gt,
    progression_add_one]

/-- All indices of the emitted range have an element, and these are the elements of the slice. -/
theorem select_of_isDescending {α : Type} {xs : List α}
    (hb : b.IsDescending xs.length) {code : Code}
    (h : code.indices? xs.length =
      some ((steps (b.top xs.length) (b.bottom xs.length) b.stride).map (· + 1))) :
    code.select xs = some (b.sliceDown xs) := by
  have hmem : ∀ i ∈ steps (b.top xs.length) (b.bottom xs.length) b.stride, 0 ≤ i ∧
      i < xs.length := by
    intro i hi
    have htop := hb.top_lt
    have hbottom := neg_one_le_bottom hb
    have hbetween := mem_steps_of_neg hb.stride_neg hi
    omega
  rw [Code.select, h]
  change List.mapM _ _ = _
  rw [mapM_element?, List.filterMap_map, sliceDown]
  · refine congrArg some (List.filterMap_congr fun i hi => ?_)
    have hnonneg := (hmem i hi).1
    rw [Function.comp_apply, element?, if_pos (by omega), Int.add_sub_cancel]
  · intro i hi
    obtain ⟨j, hj, rfl⟩ := List.mem_map.mp hi
    have hbetween := hmem j hj
    omega

end SliceBounds

/-! ## Literal subscripts -/

/-- A literal index of an element is emitted as the position of the element, counted from 1.  A
slice with a negative literal step, and with bounds that are left out or literal indices of
elements, is emitted as a range of indices of elements, which selects what the slice selects, in its
order.  Converting a literal overflows for no 64-bit number. -/
theorem literal_subscripts_select {α : Type} (xs : List α) (scope : Scope) :
    (∀ (e : Expression) (k : Int), e.tree.integer? = some k → -xs.length ≤ k → k < xs.length →
      ∃ code, subscript scope (.index e) = .ok code ∧
        code.index? xs.length = some (position xs.length k + 1) ∧
        0 ≤ position xs.length k ∧ position xs.length k < xs.length) ∧
    (∀ (s : Slice) (b : SliceBounds), SliceBounds.ofSlice? s = some b → b.IsDescending xs.length →
      ∃ code, subscript scope s = .ok code ∧ code.select xs = some (b.sliceDown xs)) ∧
    ∀ (kind : Bound) (value : Int64), kind.fold64? value = some (kind.fold? value.toInt) := by
  refine ⟨?_, ?_, Bound.fold64?_eq⟩
  · intro e k hk hlower hupper
    obtain ⟨code, hcode, hindex⟩ := exists_of_bound scope xs.length .index hk
    refine ⟨code, ?_, hindex, ?_⟩
    · rw [subscript, hcode]
    · unfold position
      split <;> omega
  · intro s b hs hb
    obtain ⟨code, hcode, hindices⟩ := b.exists_of_isDescending scope hs hb
    exact ⟨code, hcode, SliceBounds.select_of_isDescending hb hindices⟩

/-- The last element but one, and every second element from the last one down to the last but three,
which is left out. -/
theorem literal_subscripts_select_fromEnd :
    ∃ (e : Expression) (s : Slice) (b : SliceBounds) (index range : Code),
      e.tree.integer? = some (-2) ∧ subscript plainScope (.index e) = .ok index ∧
      index.index? 5 = some 4 ∧ SliceBounds.ofSlice? s = some b ∧
      b = ⟨some (-1), some (-4), some (-2)⟩ ∧ b.IsDescending 5 ∧
      subscript plainScope s = .ok range ∧ range.text = "end:-2:end - 2" ∧
      range.select [10, 11, 12, 13, 14] = some (b.sliceDown [10, 11, 12, 13, 14]) ∧
      b.sliceDown [10, 11, 12, 13, 14] = [14, 12] := by
  let xs : List Nat := [10, 11, 12, 13, 14]
  let below (v : Nat) : Expression := ⟨.sign .sub (.primary ⟨.integer v, [], {}⟩), {}⟩
  let s : Slice := .range (some (below 1)) (some (below 4)) (some (below 2))
  let b : SliceBounds := ⟨some (-1), some (-4), some (-2)⟩
  have hb : b.IsDescending xs.length := by
    constructor <;> simp [b, xs]
  obtain ⟨hindex, hslice, -⟩ := literal_subscripts_select xs plainScope
  obtain ⟨index, hcode, hvalue, -⟩ := hindex (below 2) (-2) rfl (by decide) (by decide)
  obtain ⟨range, hrange, hselect⟩ := hslice s b rfl hb
  have htext : range.text = "end:-2:end - 2" := by
    cases hrange
    decide
  exact ⟨below 2, s, b, index, range, rfl, hcode, hvalue, rfl, rfl, hb, hrange, htext,
    hselect, by decide⟩

end Offside
