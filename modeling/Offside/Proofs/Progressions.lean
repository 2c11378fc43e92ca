import Mathlib.Data.List.TakeWhile
import Offside.Proofs.SliceSelection

/-!
# Numbers in steps

The source leaves out the end of a sequence of numbers in steps, the emitted code holds its last
one.  The two describe the same numbers, upwards and downwards, if the last one is taken to stand
right before the end (`steps_eq_progression`).
-/

namespace Offside

open Target List

/-- Whether a number has not reached an end, in the direction of a step. -/
def isBefore (step stop value : Int) : Bool := if 0 < step then value < stop else stop < value

/-- The numbers from `start` on, in steps, as long as they have not reached `stop`. -/
def steps (start stop step : Int) : List Int :=
  ((range (stop - start).natAbs).map fun (k : Nat) => start + step * k).takeWhile
    (isBefore step stop)

/-- The number right before an end, in the direction of a step. -/
def lastBefore (step stop : Int) : Int := if 0 < step then stop - 1 else stop + 1

/-- How many numbers a progression has: all those that have not passed the last one. -/
theorem lt_count_iff {step : Int} (hstep : step ≠ 0) (start stop : Int) (k : Nat) :
    k < ((lastBefore step stop - start).fdiv step + 1).toNat ↔
      isBefore step stop (start + step * k) := by
  unfold lastBefore isBefore
  rw [Int.lt_toNat, Int.lt_add_one_iff]
  by_cases hpos : 0 < step
  · rw [if_pos hpos, if_pos hpos, Int.fdiv_eq_ediv_of_nonneg _ hpos.le, Int.le_ediv_iff_mul_le hpos,
      Int.mul_comm, decide_eq_true_iff]
    omega
  · have hneg : 0 < -step := by omega
    rw [if_neg hpos, if_neg hpos, ← Int.neg_fdiv_neg, Int.fdiv_eq_ediv_of_nonneg _ hneg.le,
      Int.le_ediv_iff_mul_le hneg, Int.mul_neg, Int.mul_comm, decide_eq_true_iff]
    omega

/-- A step leads at least one further. -/
theorem lt_natAbs_of_isBefore {step start stop : Int} (hstep : step ≠ 0) {k : Nat}
    (h : isBefore step stop (start + step * k)) : k < (stop - start).natAbs := by
  unfold isBefore at h
  split at h
  · have hfar := Int.mul_le_mul_of_nonneg_right (by omega : 1 ≤ step) (Int.natCast_nonneg k)
    have := of_decide_eq_true h
    omega
  · have hfar := Int.mul_le_mul_of_nonneg_right (by omega : 1 ≤ -step) (Int.natCast_nonneg k)
    rw [Int.neg_mul] at hfar
    have := of_decide_eq_true h
    omega

theorem takeWhile_lt_range {count bound : Nat} (h : count ≤ bound) :
    (range bound).takeWhile (· < count) = range count := by
  obtain ⟨more, rfl⟩ := Nat.exists_eq_add_of_le h
  rw [range_add, takeWhile_append_of_pos (by simp)]
  cases more <;> simp [range_succ_eq_map]

/-- Numbers before an end are the numbers up to the one right before it. -/
theorem steps_eq_progression {step : Int} (hstep : step ≠ 0) (start stop : Int) :
    steps start stop step = progression start step (lastBefore step stop) := by
  have hcount : ∀ k : Nat, isBefore step stop (start + step * k) =
      decide (k < ((lastBefore step stop - start).fdiv step + 1).toNat) := by
    intro k
    rw [Bool.eq_iff_iff, decide_eq_true_iff, lt_count_iff hstep]
  have hbound : ((lastBefore step stop - start).fdiv step + 1).toNat ≤ (stop - start).natAbs := by
    by_contra hlt
    exact Nat.lt_irrefl _
      (lt_natAbs_of_isBefore hstep ((lt_count_iff hstep start stop _).mp (Nat.lt_of_not_le hlt)))
  rw [steps, takeWhile_map, progression]
  simp only [Function.comp_def, hcount]
  rw [takeWhile_lt_range hbound]

/-- Ends moved by one move all numbers by one. -/
theorem progression_add_one (first step last : Int) :
    progression (first + 1) step (last + 1) = (progression first step last).map (· + 1) := by
  rw [progression, progression, Int.add_sub_add_right, map_map]
  refine map_congr_left fun k _ => ?_
  exact Int.add_right_comm first 1 _

/-- Steps downwards stay between the start and the end. -/
theorem mem_steps_of_neg {start stop step i : Int} (hstep : step < 0)
    (h : i ∈ steps start stop step) :
    stop < i ∧ i ≤ start := by
  have hbefore := mem_takeWhile_imp h
  rw [isBefore, if_neg (by omega), decide_eq_true_iff] at hbefore
  obtain ⟨k, -, rfl⟩ := mem_map.mp ((takeWhile_sublist _).subset h)
  have hdown : step * k ≤ 0 := Int.mul_nonpos_of_nonpos_of_nonneg hstep.le (Int.natCast_nonneg k)
  omega

end Offside
