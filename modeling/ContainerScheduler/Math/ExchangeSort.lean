/-
# Sorting by exchanges

A pass over a list exchanges neighbours whose first one has the smaller key. Passes are made until
one exchanges nothing; each exchange takes away an inversion.
-/

import Mathlib.Algebra.Order.Ring.Int

namespace ContainerScheduler.Math

universe u v

variable {α : Type u} {β : Type v} [LinearOrder β] (key : α → β)

/-- A pass over the list behind an element that was carried so far: whether something was exchanged,
and the list then. -/
def carry (carried : α) : List α → Bool × List α
  | [] => (false, [carried])
  | a :: list =>
      if key carried < key a then (true, a :: (carry carried list).2)
      else ((carry a list).1, carried :: (carry a list).2)

def exchangePass : List α → Bool × List α
  | [] => (false, [])
  | a :: list => carry key a list

/-- The pairs that are in the wrong order. -/
def inversions : List α → ℕ
  | [] => 0
  | a :: list => list.countP (fun b => key a < key b) + inversions list

theorem carry_perm (carried : α) (list : List α) : (carry key carried list).2.Perm
    (carried :: list) := by
  induction list generalizing carried with
  | nil => exact List.Perm.refl _
  | cons a list ih =>
      rw [carry]
      split_ifs
      · exact ((ih carried).cons a).trans (List.Perm.swap carried a list)
      · exact (ih a).cons carried

theorem inversions_carry (carried : α) (list : List α) :
    inversions key (carry key carried list).2 + (carry key carried list).1.toNat ≤
      inversions key (carried :: list) := by
  induction list generalizing carried with
  | nil => exact Nat.le_refl _
  | cons a list ih =>
      rw [carry]
      by_cases hless : key carried < key a
      · have hcount := (carry_perm key carried list).countP_eq fun b => decide (key a < key b)
        have hcarried : ¬ key a < key carried := lt_asymm hless
        have hrest := ih carried
        rw [List.countP_cons_of_neg (by simpa using hcarried)] at hcount
        rw [if_pos hless, inversions, hcount, inversions, inversions,
          List.countP_cons_of_pos (by simpa using hless), Bool.toNat_true]
        rw [inversions] at hrest
        omega
      · have hcount := (carry_perm key a list).countP_eq fun b => decide (key carried < key b)
        have hrest := ih a
        rw [if_neg hless, inversions, hcount, inversions, Nat.add_assoc]
        exact Nat.add_le_add_left hrest _

theorem exchangePass_perm (list : List α) : (exchangePass key list).2.Perm list := by
  cases list with
  | nil => exact List.Perm.refl _
  | cons a list => exact carry_perm key a list

theorem inversions_exchangePass_lt {list : List α} (hswapped : (exchangePass key list).1 = true) :
    inversions key (exchangePass key list).2 < inversions key list := by
  cases list with
  | nil => cases hswapped
  | cons a list =>
      have hcarry := inversions_carry key a list
      rw [exchangePass] at hswapped ⊢
      rw [hswapped, Bool.toNat_true] at hcarry
      exact hcarry

/-- Passes are made until one exchanges nothing. -/
def exchangeSort (list : List α) : List α :=
  if (exchangePass key list).1 then exchangeSort (exchangePass key list).2
  else (exchangePass key list).2
termination_by inversions key list
decreasing_by exact inversions_exchangePass_lt key ‹_›

theorem exchangeSort_perm (list : List α) : (exchangeSort key list).Perm list := by
  induction list using exchangeSort.induct key with
  | case1 list hswapped ih =>
      rw [exchangeSort, if_pos hswapped]
      exact ih.trans (exchangePass_perm key list)
  | case2 list hswapped =>
      rw [exchangeSort, if_neg hswapped]
      exact exchangePass_perm key list

end ContainerScheduler.Math
