/-
# Counters and rounds

A counter takes its values one after the other, modulo their number; from any start it takes each of
them once before it is back. Rounds with a key that changes, each of which can be undone for every
key, can be undone together. So the results of such rounds differ for a whole period of the counter.
-/

import Mathlib.Data.Nat.ModEq

namespace ContainerScheduler.Math

universe u v

variable {α : Type u} {β : Type v}

structure CyclicCounter (period : ℕ) (value : α → ℕ) (next : α → α) : Prop where
  value_lt : ∀ a, value a < period
  value_injective : Function.Injective value
  value_next : ∀ a, value (next a) = (value a + 1) % period

namespace CyclicCounter

variable {period : ℕ} {value : α → ℕ} {next : α → α} (hcyclic : CyclicCounter period value next)
include hcyclic

theorem value_iterate (n : ℕ) (a : α) : value (next^[n] a) = (value a + n) % period := by
  induction n with
  | zero => exact (Nat.mod_eq_of_lt (hcyclic.value_lt a)).symm
  | succ n ih =>
      rw [Function.iterate_succ_apply', hcyclic.value_next, ih, Nat.mod_add_mod, Nat.add_assoc]

theorem iterate_period (a : α) : next^[period] a = a := by
  apply hcyclic.value_injective
  rw [hcyclic.value_iterate, Nat.add_mod_right, Nat.mod_eq_of_lt (hcyclic.value_lt a)]

/-- Within a period no state comes twice. -/
theorem iterate_ne {n m : ℕ} (hnm : n < m) (hm : m < n + period) (a : α) :
    next^[n] a ≠ next^[m] a := by
  intro heq
  have hmod : (value a + n) % period = (value a + m) % period := by
    rw [← hcyclic.value_iterate, ← hcyclic.value_iterate, heq]
  have hdvd : period ∣ value a + m - (value a + n) :=
    (Nat.modEq_iff_dvd' (by omega)).mp hmod
  have hle := Nat.le_of_dvd (by omega) hdvd
  omega

/-- Nor does the result of an injective function. -/
theorem map_iterate_ne {f : α → β} (hf : Function.Injective f) {n m : ℕ} (hnm : n < m)
    (hm : m < n + period) (a : α) : f (next^[n] a) ≠ f (next^[m] a) :=
  hf.ne (hcyclic.iterate_ne hnm hm a)

end CyclicCounter

section Rounds

variable {κ : Type v} (round : κ → α → α) (raise : κ → κ)

/-- A round, and the key of the next one. -/
def keyedRound (state : α × κ) : α × κ := (round state.2 state.1, raise state.2)

theorem bijective_rounds (hround : ∀ key, Function.Bijective (round key)) (rounds : ℕ) (key : κ) :
    Function.Bijective fun a => ((keyedRound round raise)^[rounds] (a, key)).1 := by
  induction rounds generalizing key with
  | zero => exact Function.bijective_id
  | succ rounds ih => exact (ih (raise key)).comp (hround key)

end Rounds

end ContainerScheduler.Math
