/-
# Sum trees

A complete binary tree of sums over a sequence. A node of height `k` has the sum of `2 ^ k` values,
and the sum in front of it is that of a prefix.
-/

import Mathlib.Algebra.Order.BigOperators.Group.Finset

namespace ContainerScheduler.Math

/-- The `i`-th node of height `k`. -/
def treeSum (f : ℕ → ℕ) : (k i : ℕ) → ℕ
  | 0, i => f i
  | k + 1, i => treeSum f k (2 * i) + treeSum f k (2 * i + 1)

section SumTree

variable {f g : ℕ → ℕ}

/-- The sum in front of a node, and with it. -/
theorem sum_range_add_treeSum (f : ℕ → ℕ) (k i : ℕ) :
    ∑ j ∈ Finset.range (i * 2 ^ k), f j + treeSum f k i =
      ∑ j ∈ Finset.range ((i + 1) * 2 ^ k), f j := by
  induction k generalizing i with
  | zero =>
      rw [pow_zero, Nat.mul_one, Nat.mul_one, Finset.sum_range_succ]
      rfl
  | succ k ih =>
      have hleft : i * 2 ^ (k + 1) = 2 * i * 2 ^ k := by rw [pow_succ, Nat.mul_comm 2 i, Nat.mul_assoc,
        Nat.mul_comm 2]
      have hright : (i + 1) * 2 ^ (k + 1) = (2 * i + 1 + 1) * 2 ^ k := by
        rw [pow_succ, Nat.mul_comm (2 ^ k) 2, ← Nat.mul_assoc]
        congr 1
        omega
      rw [treeSum, hleft, hright, ← Nat.add_assoc, ih, ih]

/-- One value changes in the nodes above it. -/
theorem treeSum_update (f : ℕ → ℕ) (j x k i : ℕ) :
    treeSum (Function.update f j x) k i + (if i = j / 2 ^ k then f j else 0) =
      treeSum f k i + (if i = j / 2 ^ k then x else 0) := by
  induction k generalizing i with
  | zero =>
      rw [pow_zero, Nat.div_one, treeSum, treeSum]
      by_cases hij : i = j
      · rw [if_pos hij, if_pos hij, hij, Function.update_self, Nat.add_comm]
      · rw [if_neg hij, if_neg hij, Function.update_of_ne hij]
  | succ k ih =>
      have hleft := ih (2 * i)
      have hright := ih (2 * i + 1)
      have hdiv : j / 2 ^ (k + 1) = j / 2 ^ k / 2 := by rw [pow_succ, Nat.div_div_eq_div_mul]
      rw [treeSum, treeSum, hdiv]
      generalize j / 2 ^ k = top at hleft hright ⊢
      -- the value is below the left or the right child
      split_ifs at hleft hright ⊢ <;> omega

end SumTree

end ContainerScheduler.Math
