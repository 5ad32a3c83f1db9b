/-
# Arithmetic progressions up to a bound

The numbers `first`, `first + step`, `first + 2 * step`, … that come before `stop`, where a negative
step leads downwards.
-/

import Mathlib.Algebra.Order.Ring.Int
import Mathlib.Data.List.Range
import Mathlib.Data.List.TakeWhile

namespace ContainerScheduler.Math

/-- On the way of the step, the number comes before `stop`. -/
def ComesBefore (step number stop : ℤ) : Prop := if 0 < step then number < stop else stop < number

instance (step number stop : ℤ) : Decidable (ComesBefore step number stop) :=
  inferInstanceAs (Decidable (if 0 < step then number < stop else stop < number))

/-- The progression, which can not have more terms than there are numbers on the way. -/
def progression (first stop step : ℤ) : List ℤ :=
  ((List.range (stop - first).natAbs).map fun k : ℕ => first + k * step).takeWhile
    (fun number => ComesBefore step number stop)

namespace Progression

variable {first stop step : ℤ} {k n c : ℕ}

/-- The way from the first number to the bound. -/
def reach (first stop step : ℤ) : ℕ := (if 0 < step then stop - first else first - stop).toNat

/-- The number of terms. -/
def count (first stop step : ℤ) : ℕ :=
  (reach first stop step + step.natAbs - 1) / step.natAbs

theorem lt_ceil_iff {m : ℕ} (hm : 0 < m) : k < (n + m - 1) / m ↔ k * m < n := by
  rw [Nat.lt_div_iff_mul_lt hm]
  omega

theorem comesBefore_iff (hstep : step ≠ 0) :
    ComesBefore step (first + k * step) stop ↔ k < count first stop step := by
  rw [count, lt_ceil_iff (Int.natAbs_pos.mpr hstep), ComesBefore, reach]
  rcases lt_or_gt_of_ne hstep with hneg | hpos
  · have hmul : (k : ℤ) * step = -((k * step.natAbs : ℕ) : ℤ) := by
      rw [Nat.cast_mul, Int.ofNat_natAbs_of_nonpos hneg.le, mul_neg, neg_neg]
    rw [if_neg (by omega), if_neg (by omega), hmul]
    omega
  · have hmul : (k : ℤ) * step = ((k * step.natAbs : ℕ) : ℤ) := by
      rw [Nat.cast_mul, Int.natAbs_of_nonneg hpos.le]
    rw [if_pos hpos, if_pos hpos, hmul]
    omega

theorem count_le : count first stop step ≤ (stop - first).natAbs := by
  rcases Nat.eq_zero_or_pos step.natAbs with hzero | hpos
  · rw [count, hzero, Nat.div_zero]
    exact Nat.zero_le _
  · have hreach : reach first stop step ≤ (stop - first).natAbs := by
      rw [reach]
      split_ifs <;> omega
    refine le_trans (not_lt.mp ?_) hreach
    rw [count, lt_ceil_iff hpos]
    exact not_lt.mpr (Nat.le_mul_of_pos_right _ hpos)

theorem takeWhile_map_range {α : Type*} {f : ℕ → α} {p : α → Bool} (hc : c ≤ n)
    (hp : ∀ k, p (f k) = true ↔ k < c) :
    ((List.range n).map f).takeWhile p = (List.range c).map f := by
  obtain ⟨m, rfl⟩ := Nat.exists_eq_add_of_le hc
  have hfront : ∀ a ∈ (List.range c).map f, p a = true :=
    List.forall_mem_map.mpr fun k hk => (hp k).mpr (List.mem_range.mp hk)
  rw [List.range_add, List.map_append, List.takeWhile_append_of_pos hfront]
  cases m with
  | zero => simp
  | succ m =>
      have hhead : p (f c) = false := by
        rw [← Bool.not_eq_true, hp]
        exact lt_irrefl c
      rw [List.range_succ_eq_map, List.map_cons, List.map_cons,
        List.takeWhile_cons_of_neg (by simpa using hhead), List.append_nil]

end Progression

open Progression

variable {first stop step number : ℤ}

/-- The progression has `count` terms. -/
theorem progression_eq (hstep : step ≠ 0) :
    progression first stop step =
      (List.range (count first stop step)).map fun k : ℕ => first + k * step :=
  takeWhile_map_range count_le fun k => by rw [decide_eq_true_iff, comesBefore_iff hstep]

theorem length_progression (hstep : step ≠ 0) :
    (progression first stop step).length = count first stop step := by
  rw [progression_eq hstep, List.length_map, List.length_range]

theorem progression_nil (hbehind : ¬ ComesBefore step first stop) :
    progression first stop step = [] := by
  rw [progression]
  cases (stop - first).natAbs with
  | zero => rfl
  | succ n =>
      rw [List.range_succ_eq_map, List.map_cons, List.takeWhile_cons_of_neg]
      simpa using hbehind

/-- The first term, and the progression from the next one on. -/
theorem progression_cons (hstep : step ≠ 0) (hbefore : ComesBefore step first stop) :
    progression first stop step = first :: progression (first + step) stop step := by
  have hcount : ∀ k, k + 1 < count first stop step ↔ k < count (first + step) stop step := by
    intro k
    rw [← comesBefore_iff hstep, ← comesBefore_iff hstep, Nat.cast_succ, add_mul, one_mul,
      add_assoc, add_comm step]
  have hpos : 0 < count first stop step := by
    rw [← comesBefore_iff hstep, Nat.cast_zero, zero_mul, add_zero]
    exact hbefore
  obtain ⟨n, hn⟩ := Nat.exists_eq_succ_of_ne_zero hpos.ne'
  have hrest : count (first + step) stop step = n := by
    refine Nat.le_antisymm (Nat.le_of_not_lt fun hlt => ?_) (Nat.le_of_not_lt fun hlt => ?_)
    · exact absurd ((hcount n).mpr hlt) (by omega)
    · exact absurd ((hcount _).mp (by omega)) (lt_irrefl _)
  rw [progression_eq hstep, progression_eq hstep, hn, hrest, List.range_succ_eq_map, List.map_cons,
    List.map_map, Nat.cast_zero, zero_mul, add_zero]
  refine congrArg (first :: ·) (List.map_congr_left fun k _ => ?_)
  rw [Function.comp_apply, Nat.cast_succ, add_mul, one_mul, add_assoc, add_comm step]

/-- The terms lie between the first one and the bound. -/
theorem mem_progression (hstep : step ≠ 0) (hnumber : number ∈ progression first stop step) :
    ComesBefore step number stop ∧ if 0 < step then first ≤ number else number ≤ first := by
  rw [progression_eq hstep] at hnumber
  obtain ⟨k, hk, rfl⟩ := List.mem_map.mp hnumber
  refine ⟨(comesBefore_iff hstep).mpr (List.mem_range.mp hk), ?_⟩
  split_ifs with hpos
  · have := mul_nonneg (Int.natCast_nonneg k) hpos.le
    omega
  · have := mul_nonpos_of_nonneg_of_nonpos (Int.natCast_nonneg k) (not_lt.mp hpos)
    omega

/-- The whole range from zero on. -/
theorem progression_zero_one (n : ℕ) :
    progression 0 n 1 = (List.range n).map fun k : ℕ => (k : ℤ) := by
  have hcount : count 0 n 1 = n := by simp [count, reach]
  rw [progression_eq (by decide), hcount]
  exact List.map_congr_left fun k _ => by omega

/-- A single term. -/
theorem progression_succ (hstep : 0 < step) : progression first (first + 1) step = [first] := by
  have hcount : count first (first + 1) step = 1 := by
    have habs : 0 < step.natAbs := Int.natAbs_pos.mpr hstep.ne'
    have hreach : reach first (first + 1) step = 1 := by simp [reach, hstep]
    rw [count, hreach, Nat.add_comm, Nat.add_sub_cancel, Nat.div_self habs]
  rw [progression_eq hstep.ne', hcount]
  simp

end ContainerScheduler.Math
