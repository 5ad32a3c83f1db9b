/-
# Wide products

The upper half of a product of two numbers with two digits each. The four products of digits are
added by digits, with one carry.
-/

import Mathlib.Tactic.Ring

namespace ContainerScheduler.Math

/-- The part of a product above the square of the base. -/
theorem upper_product {b : ℕ} (hb : 0 < b) (xHi xLo yHi yLo : ℕ) :
    (xHi * b + xLo) * (yHi * b + yLo) / (b * b) =
      xHi * yHi + xHi * yLo / b + xLo * yHi / b +
        (xHi * yLo % b + xLo * yHi % b + xLo * yLo / b) / b := by
  have hfirst := Nat.div_add_mod (xHi * yLo) b
  have hsecond := Nat.div_add_mod (xLo * yHi) b
  have hproduct : (xHi * b + xLo) * (yHi * b + yLo) =
      xLo * yLo + b * (xHi * yLo % b + xLo * yHi % b +
        b * (xHi * yHi + xHi * yLo / b + xLo * yHi / b)) := by
    calc (xHi * b + xLo) * (yHi * b + yLo)
        = xHi * yHi * b * b + xHi * yLo * b + xLo * yHi * b + xLo * yLo := by ring
      _ = xHi * yHi * b * b + (b * (xHi * yLo / b) + xHi * yLo % b) * b +
            (b * (xLo * yHi / b) + xLo * yHi % b) * b + xLo * yLo := by rw [hfirst, hsecond]
      _ = _ := by ring
  rw [← Nat.div_div_eq_div_mul, hproduct, Nat.add_mul_div_left _ _ hb]
  -- the digit above the base goes with the carry
  rw [← Nat.add_assoc, Nat.add_mul_div_left _ _ hb, Nat.add_comm (xLo * yLo / b), Nat.add_comm]

/-- Digits that are below the base have products below its square. -/
theorem digit_product_lt {b x y : ℕ} (hx : x < b) (hy : y < b) : x * y < b * b :=
  Nat.mul_lt_mul'' hx hy

end ContainerScheduler.Math
