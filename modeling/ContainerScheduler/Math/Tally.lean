/-
# Tallies

How many of the first values of a sequence have a property, and how this changes with one value.
-/

import Mathlib.Data.Nat.Notation
import Mathlib.Logic.Function.Basic

namespace ContainerScheduler.Math

universe u

variable {α : Type u}

/-- The number of the first `n` values with a property. -/
def tally (n : ℕ) (P : α → Bool) (f : ℕ → α) : ℕ := (List.range n).countP fun i => P (f i)

section Tally

variable {n i : ℕ} {P : α → Bool} {f : ℕ → α}

theorem tally_succ (n : ℕ) (P : α → Bool) (f : ℕ → α) :
    tally (n + 1) P f = tally n P f + (P (f n)).toNat := by
  rw [tally, List.range_succ, List.countP_append, List.countP_singleton, tally]
  cases P (f n) <;> rfl

theorem tally_le (n : ℕ) (P : α → Bool) (f : ℕ → α) : tally n P f ≤ n := by
  have hle : tally n P f ≤ (List.range n).length := List.countP_le_length
  rwa [List.length_range] at hle

theorem tally_congr {g : ℕ → α} (hsame : ∀ i < n, P (f i) = P (g i)) :
    tally n P f = tally n P g := by
  refine List.countP_congr fun i hi => ?_
  rw [hsame i (List.mem_range.mp hi)]

theorem tally_pos (hi : i < n) (hP : P (f i) = true) : 0 < tally n P f :=
  List.countP_pos_iff.mpr ⟨i, List.mem_range.mpr hi, hP⟩

theorem tally_eq_zero (hP : ∀ i < n, P (f i) = false) : tally n P f = 0 := by
  refine List.countP_eq_zero.mpr fun i hi => ?_
  rw [hP i (List.mem_range.mp hi)]
  exact Bool.false_ne_true

theorem tally_eq_length (hP : ∀ i < n, P (f i) = true) : tally n P f = n := by
  have hall : tally n P f = (List.range n).length :=
    List.countP_eq_length.mpr fun i hi => hP i (List.mem_range.mp hi)
  rwa [List.length_range] at hall

/-- One value changes. -/
theorem tally_update (hi : i < n) (x : α) :
    tally n P (Function.update f i x) + (P (f i)).toNat = tally n P f + (P x).toNat := by
  induction n with
  | zero => exact absurd hi (Nat.not_lt_zero i)
  | succ n ih =>
      rw [tally_succ, tally_succ]
      rcases Nat.lt_succ_iff_lt_or_eq.mp hi with hlt | rfl
      · have hrest := ih hlt
        rw [Function.update_of_ne (Nat.ne_of_gt hlt)]
        omega
      · have hrest : tally i P (Function.update f i x) = tally i P f :=
          tally_congr fun j hj => by rw [Function.update_of_ne (Nat.ne_of_lt hj)]
        rw [Function.update_self, hrest]
        omega

theorem tally_lt (hi : i < n) (hP : P (f i) = false) : tally n P f < n := by
  induction n with
  | zero => exact absurd hi (Nat.not_lt_zero i)
  | succ n ih =>
      rw [tally_succ]
      have hle := tally_le n P f
      rcases Nat.lt_succ_iff_lt_or_eq.mp hi with hlt | rfl
      · have hone : (P (f n)).toNat ≤ 1 := Bool.toNat_le _
        have hrest := ih hlt
        omega
      · rw [hP]
        change tally i P f + 0 < i + 1
        omega

end Tally

end ContainerScheduler.Math
