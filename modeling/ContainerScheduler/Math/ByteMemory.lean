/-
# Numbers in a memory of bytes

A number of a fixed width is kept in consecutive bytes, the least significant one first. What was
stored last is loaded back, and a number elsewhere is not affected, so that several layouts can
share one memory.
-/

import Mathlib.Algebra.Order.Ring.Int
import Mathlib.Tactic.Ring

namespace ContainerScheduler.Math

/-- The bytes of a memory at their offsets. -/
abbrev Bytes := ℕ → UInt8

namespace Bytes

/-- The number in the next `width` bytes. -/
def load (bytes : Bytes) (offset : ℕ) : ℕ → ℕ
  | 0 => 0
  | width + 1 => (bytes offset).toNat + 256 * load bytes (offset + 1) width

/-- The number is put into the next `width` bytes, and cut off if it needs more. -/
def store (bytes : Bytes) (offset : ℕ) : ℕ → ℕ → Bytes
  | 0, _ => bytes
  | width + 1, value =>
      Function.update (store bytes (offset + 1) width (value / 256)) offset (UInt8.ofNat value)

variable {bytes bytes' : Bytes} {offset offset' width width' value : ℕ}

theorem store_apply_of_outside {index : ℕ} (houtside : index < offset ∨ offset + width ≤ index) :
    bytes.store offset width value index = bytes index := by
  induction width generalizing offset value with
  | zero => rfl
  | succ width ih =>
      have hne : index ≠ offset := by omega
      rw [store, Function.update_of_ne hne]
      apply ih
      omega

theorem load_congr (hsame : ∀ index, offset ≤ index → index < offset + width →
    bytes index = bytes' index) : bytes.load offset width = bytes'.load offset width := by
  induction width generalizing offset with
  | zero => rfl
  | succ width ih =>
      rw [load, load, hsame offset le_rfl (Nat.lt_add_of_pos_right (Nat.succ_pos width)), ih]
      intro index hge hlt
      apply hsame index <;> omega

theorem load_lt (bytes : Bytes) (offset width : ℕ) : bytes.load offset width < 256 ^ width := by
  induction width generalizing offset with
  | zero => exact Nat.one_pos
  | succ width ih =>
      have hbyte := (bytes offset).toNat_lt
      have hrest := ih (offset + 1)
      rw [load, pow_succ']
      omega

/-- A number elsewhere is not affected. -/
theorem load_store_of_disjoint (hdisjoint : offset' + width' ≤ offset ∨ offset + width ≤ offset') :
    (bytes.store offset width value).load offset' width' = bytes.load offset' width' := by
  apply load_congr
  intro index hge hlt
  apply store_apply_of_outside
  rcases hdisjoint with hle | hle
  · exact .inl (by omega)
  · exact .inr (by omega)

/-- What was stored is loaded back. -/
theorem load_store_self :
    (bytes.store offset width value).load offset width = value % 256 ^ width := by
  induction width generalizing offset value with
  | zero => rw [load, pow_zero, Nat.mod_one]
  | succ width ih =>
      have hrest : (bytes.store offset (width + 1) value).load (offset + 1) width =
          (bytes.store (offset + 1) width (value / 256)).load (offset + 1) width := by
        apply load_congr
        intro index hge _
        rw [store, Function.update_of_ne (by omega)]
      rw [load, hrest, ih, store, Function.update_self, UInt8.toNat_ofNat', pow_succ' 256 width,
        Nat.mod_mul]

theorem load_store_of_lt (hlt : value < 256 ^ width) :
    (bytes.store offset width value).load offset width = value := by
  rw [load_store_self, Nat.mod_eq_of_lt hlt]

end Bytes

end ContainerScheduler.Math
