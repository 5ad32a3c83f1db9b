/-
# High products

Four products of halves and one carry are the upper half of the product of two words, so that the
buckets of a key do not depend on the platform.
-/

import ContainerScheduler.Analysis.CuckooMap
import ContainerScheduler.Math.WideProduct

namespace ContainerScheduler.Analysis

open Containers
open Containers.PresizedCuckooMap
open Math

namespace Cuckoo

theorem toNat_lowHalf (x : UInt64) : (x &&& 0xffffffff).toNat = x.toNat % 2 ^ 32 := by
  rw [UInt64.toNat_and]
  exact Nat.and_two_pow_sub_one_eq_mod x.toNat 32

theorem toNat_highHalf (x : UInt64) : (x >>> 32).toNat = x.toNat / 2 ^ 32 := by
  rw [UInt64.toNat_shiftRight]
  exact Nat.shiftRight_eq_div_pow x.toNat 32

theorem toNat_mul_halves {x y : UInt64} (hx : x.toNat < 2 ^ 32) (hy : y.toNat < 2 ^ 32) :
    (x * y).toNat = x.toNat * y.toNat := by
  rw [UInt64.toNat_mul]
  exact Nat.mod_eq_of_lt (digit_product_lt hx hy)

theorem toNat_add_of_lt {x y : UInt64} (hlt : x.toNat + y.toNat < 2 ^ 64) :
    (x + y).toNat = x.toNat + y.toNat := by
  rw [UInt64.toNat_add, Nat.mod_eq_of_lt hlt]

theorem high_product_lt (x y : UInt64) : x.toNat * y.toNat / 2 ^ 64 < 2 ^ 64 := by
  refine Nat.div_lt_of_lt_mul ?_
  exact digit_product_lt x.toNat_lt y.toNat_lt

theorem toNat_multiplyHighU64 (x y : UInt64) :
    (multiplyHighU64 x y).toNat = x.toNat * y.toNat / 2 ^ 64 := by
  rw [multiplyHighU64, UInt64.toNat_ofNat', Nat.mod_eq_of_lt (high_product_lt x y)]

section Halves

variable {xHi xLo yHi yLo : UInt64}

theorem toNat_carry (hxHi : xHi.toNat < 2 ^ 32) (hxLo : xLo.toNat < 2 ^ 32)
    (hyHi : yHi.toNat < 2 ^ 32) (hyLo : yLo.toNat < 2 ^ 32) :
    (((xHi * yLo &&& (0xffffffff : UInt64)) + (xLo * yHi &&& (0xffffffff : UInt64)) +
      ((xLo * yLo) >>> (32 : UInt64))) >>> (32 : UInt64)).toNat =
      (xHi.toNat * yLo.toNat % 2 ^ 32 + xLo.toNat * yHi.toNat % 2 ^ 32 +
        xLo.toNat * yLo.toNat / 2 ^ 32) / 2 ^ 32 := by
  have hlow := Nat.mod_lt (xHi.toNat * yLo.toNat) (by decide : 0 < 2 ^ 32)
  have hhigh := Nat.mod_lt (xLo.toNat * yHi.toNat) (by decide : 0 < 2 ^ 32)
  have hrest : xLo.toNat * yLo.toNat / 2 ^ 32 < 2 ^ 32 :=
    Nat.div_lt_of_lt_mul (digit_product_lt hxLo hyLo)
  rw [← toNat_mul_halves hxHi hyLo, ← toNat_lowHalf] at hlow
  rw [← toNat_mul_halves hxLo hyHi, ← toNat_lowHalf] at hhigh
  rw [← toNat_mul_halves hxLo hyLo, ← toNat_highHalf] at hrest
  rw [toNat_highHalf, toNat_add_of_lt (by rw [toNat_add_of_lt (by omega)]; omega),
    toNat_add_of_lt (by omega), toNat_lowHalf, toNat_lowHalf, toNat_highHalf,
    toNat_mul_halves hxHi hyLo, toNat_mul_halves hxLo hyHi, toNat_mul_halves hxLo hyLo]

end Halves

/-- No intermediate sum wraps, and one carry is enough. -/
theorem toNat_multiplyHighU64Portable (x y : UInt64) :
    (multiplyHighU64Portable x y).toNat = x.toNat * y.toNat / 2 ^ 64 := by
  have hxLo : (x &&& 0xffffffff).toNat < 2 ^ 32 := by
    rw [toNat_lowHalf]
    exact Nat.mod_lt _ (by decide)
  have hyLo : (y &&& 0xffffffff).toNat < 2 ^ 32 := by
    rw [toNat_lowHalf]
    exact Nat.mod_lt _ (by decide)
  have hxHi : (x >>> 32).toNat < 2 ^ 32 := by
    rw [toNat_highHalf]
    exact Nat.div_lt_of_lt_mul x.toNat_lt
  have hyHi : (y >>> 32).toNat < 2 ^ 32 := by
    rw [toNat_highHalf]
    exact Nat.div_lt_of_lt_mul y.toNat_lt
  have hx : (x >>> 32).toNat * 2 ^ 32 + (x &&& 0xffffffff).toNat = x.toNat := by
    rw [toNat_highHalf, toNat_lowHalf]
    exact Nat.div_add_mod' x.toNat (2 ^ 32)
  have hy : (y >>> 32).toNat * 2 ^ 32 + (y &&& 0xffffffff).toNat = y.toNat := by
    rw [toNat_highHalf, toNat_lowHalf]
    exact Nat.div_add_mod' y.toNat (2 ^ 32)
  have hupper := @upper_product (2 ^ 32) (by decide) (x >>> 32).toNat (x &&& 0xffffffff).toNat
    (y >>> 32).toNat (y &&& 0xffffffff).toNat
  have hlt := high_product_lt x y
  rw [hx, hy] at hupper
  rw [show 2 ^ 64 = 2 ^ 32 * 2 ^ 32 from rfl, hupper] at hlt ⊢
  -- the partial sums are below the whole one
  have hcarry := toNat_carry hxHi hxLo hyHi hyLo
  rw [← hcarry, ← toNat_mul_halves hxHi hyHi, ← toNat_mul_halves hxHi hyLo,
    ← toNat_mul_halves hxLo hyHi, ← toNat_highHalf, ← toNat_highHalf] at hlt ⊢
  have hbelow := (Nat.le_add_right _ _).trans_lt hlt
  have htwo := toNat_add_of_lt ((Nat.le_add_right _ _).trans_lt hbelow)
  have hthree := toNat_add_of_lt (htwo ▸ hbelow)
  rw [← htwo, ← hthree] at hlt ⊢
  exact toNat_add_of_lt hlt

/-- **The portable high product is exact**, and all buckets are in range. -/
theorem portable_high_product_exact {β : Type} {m : PresizedCuckooMap β}
    (hpositive : 0 < m.numBuckets.toNat) :
    (∀ x y : UInt64, multiplyHighU64Portable x y = multiplyHighU64 x y ∧
      (multiplyHighU64Portable x y).toNat = x.toNat * y.toNat / 2 ^ 64) ∧
    ∀ x : UInt64, m.fastMapToBucketsPortable x = m.fastMapToBuckets x ∧
      m.fastMapToBuckets x < m.numBuckets := by
  have hsame : ∀ x y : UInt64, multiplyHighU64Portable x y = multiplyHighU64 x y := by
    intro x y
    refine UInt64.toNat_inj.mp ?_
    rw [toNat_multiplyHighU64Portable, toNat_multiplyHighU64]
  refine ⟨fun x y => ⟨hsame x y, toNat_multiplyHighU64Portable x y⟩, fun x => ⟨?_, ?_⟩⟩
  · exact hsame x m.numBuckets
  · exact UInt64.lt_iff_toNat_lt.mpr (fastMapToBuckets_lt hpositive x)

theorem portable_high_product_exact_clear :
    let m := clear 32 (Vector.replicate _ ⟨0, 0, 0, 0⟩) (Vector.replicate _ ⟨0, 0, 0, 0⟩) 0
    (∀ x y : UInt64, multiplyHighU64Portable x y = multiplyHighU64 x y ∧
      (multiplyHighU64Portable x y).toNat = x.toNat * y.toNat / 2 ^ 64) ∧
    ∀ x : UInt64, m.fastMapToBucketsPortable x = m.fastMapToBuckets x ∧
      m.fastMapToBuckets x < 32 :=
  portable_high_product_exact (m := clear 32 _ _ 0) (by decide)

end Cuckoo

end ContainerScheduler.Analysis
