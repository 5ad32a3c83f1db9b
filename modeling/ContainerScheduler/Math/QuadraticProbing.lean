/-
# Quadratic probing

The probe after the `j`-th goes `j + 1` slots further. In a table whose size is a power of two
the first `n` probes meet each of the `n` slots once.
-/

import Mathlib.Algebra.Order.Ring.Int
import Mathlib.Data.Fintype.EquivFin
import Mathlib.Data.Nat.Prime.Basic
import Mathlib.Tactic.Ring

namespace ContainerScheduler.Math

/-- How far the probes have gone. -/
def triangle : ℕ → ℕ
  | 0 => 0
  | j + 1 => triangle j + (j + 1)

theorem two_mul_triangle (j : ℕ) : 2 * triangle j = j * (j + 1) := by
  induction j with
  | zero => rfl
  | succ j ih =>
      rw [triangle, Nat.mul_add, ih]
      ring

theorem triangle_le {i j : ℕ} (hle : i ≤ j) : triangle i ≤ triangle j := by
  induction hle with
  | refl => exact le_rfl
  | step _ ih => exact ih.trans (Nat.le_add_right _ _)

/-- Two probes among the first `2 ^ k` meet different slots. -/
theorem triangle_inj {k start i j : ℕ} (hlt : i < j) (hj : j < 2 ^ k) :
    (start + triangle i) % 2 ^ k ≠ (start + triangle j) % 2 ^ k := by
  intro heq
  have hmono := triangle_le hlt.le
  have hdvd : 2 ^ k ∣ triangle j - triangle i := by
    have hsub := Nat.sub_mod_eq_zero_of_mod_eq heq.symm
    rw [Nat.add_sub_add_left] at hsub
    exact Nat.dvd_of_mod_eq_zero hsub
  have hproduct : 2 * (triangle j - triangle i) = (j - i) * (i + j + 1) := by
    obtain ⟨d, rfl⟩ := Nat.exists_eq_add_of_le hlt.le
    rw [Nat.mul_sub, two_mul_triangle, two_mul_triangle, Nat.add_sub_cancel_left]
    have hexpand : (i + d) * (i + d + 1) = d * (i + (i + d) + 1) + i * (i + 1) := by ring
    rw [hexpand, Nat.add_sub_cancel]
  have hpow : 2 ^ (k + 1) ∣ (j - i) * (i + j + 1) := by
    rw [← hproduct, pow_succ, mul_comm]
    exact Nat.mul_dvd_mul_left 2 hdvd
  -- one of the two factors is odd
  obtain heven | hodd := Nat.even_or_odd (j - i)
  · have hcoprime : Nat.Coprime (2 ^ (k + 1)) (i + j + 1) := by
      refine Nat.Coprime.pow_left _ (Nat.coprime_two_left.mpr ?_)
      rw [Nat.odd_iff]
      rw [Nat.even_iff] at heven
      omega
    have hle := Nat.le_of_dvd (by omega) (hcoprime.dvd_of_dvd_mul_right hpow)
    rw [pow_succ] at hle
    omega
  · have hcoprime : Nat.Coprime (2 ^ (k + 1)) (j - i) :=
      Nat.Coprime.pow_left _ (Nat.coprime_two_left.mpr hodd)
    have hle := Nat.le_of_dvd (by omega) (hcoprime.dvd_of_dvd_mul_left hpow)
    rw [pow_succ] at hle
    omega

/-- **The first `2 ^ k` probes meet every slot.** -/
theorem exists_probe (k start : ℕ) {target : ℕ} (htarget : target < 2 ^ k) :
    ∃ j < 2 ^ k, (start + triangle j) % 2 ^ k = target := by
  have hpos : 0 < 2 ^ k := Nat.two_pow_pos k
  let probe : Fin (2 ^ k) → Fin (2 ^ k) := fun j =>
    ⟨(start + triangle j) % 2 ^ k, Nat.mod_lt _ hpos⟩
  have hinjective : Function.Injective probe := by
    intro i j heq
    have hmod : (start + triangle i) % 2 ^ k = (start + triangle j) % 2 ^ k :=
      congrArg Fin.val heq
    obtain hlt | heq | hgt := lt_trichotomy i j
    · exact absurd hmod (triangle_inj hlt j.isLt)
    · exact heq
    · exact absurd hmod.symm (triangle_inj hgt i.isLt)
  obtain ⟨j, hj⟩ := Finite.surjective_of_injective hinjective ⟨target, htarget⟩
  exact ⟨j, j.isLt, congrArg Fin.val hj⟩

end ContainerScheduler.Math
