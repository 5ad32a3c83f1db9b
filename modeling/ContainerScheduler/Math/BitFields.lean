/-
# Fields of bits in a number

A field is a run of consecutive bits of a number. What was put into a field is read from it, cut off
to the field's width, and the fields beside it keep their content, so that several small numbers can
share one word.
-/

import Mathlib.Algebra.Order.Ring.Int
import Mathlib.Data.Nat.Bitwise

namespace ContainerScheduler.Math

/-- The `bits` bits of a number from bit `shift` on. -/
structure BitField where
  shift : ℕ
  bits : ℕ

namespace BitField

/-- What a number holds in the field. -/
def get (field : BitField) (value : ℕ) : ℕ := (value >>> field.shift) % 2 ^ field.bits

/-- The number with other content in the field, cut off if it needs more bits. -/
def set (field : BitField) (value content : ℕ) : ℕ :=
  (value >>> (field.shift + field.bits)) <<< (field.shift + field.bits) |||
    (content % 2 ^ field.bits) <<< field.shift ||| value % 2 ^ field.shift

/-- The first field ends before the second one starts. -/
def Below (field other : BitField) : Prop := field.shift + field.bits ≤ other.shift

instance (field other : BitField) : Decidable (field.Below other) :=
  inferInstanceAs (Decidable (_ ≤ _))

variable {field other : BitField} {value content index width : ℕ}

theorem testBit_get : (field.get value).testBit index =
    (decide (index < field.bits) && value.testBit (field.shift + index)) := by
  rw [get, Nat.testBit_mod_two_pow, Nat.testBit_shiftRight]

/-- The bits of the field are those of the content, and the others stay. -/
theorem testBit_set : (field.set value content).testBit index =
    if field.shift ≤ index ∧ index < field.shift + field.bits
    then content.testBit (index - field.shift) else value.testBit index := by
  simp only [set, Nat.testBit_or, Nat.testBit_shiftLeft, Nat.testBit_shiftRight,
    Nat.testBit_mod_two_pow]
  by_cases hlow : index < field.shift
  · simp [hlow, Nat.not_le.mpr hlow, Nat.not_le.mpr (Nat.lt_add_right field.bits hlow)]
  · by_cases hinside : index < field.shift + field.bits
    · have hbit : index - field.shift < field.bits := by omega
      simp [hlow, hinside, hbit, Nat.not_lt.mp hlow, Nat.not_le.mpr hinside]
    · have hbit : ¬ index - field.shift < field.bits := by omega
      simp [hlow, hinside, hbit, Nat.not_lt.mp hinside, Nat.add_sub_cancel' (Nat.not_lt.mp hinside)]

theorem get_lt : field.get value < 2 ^ field.bits := Nat.mod_lt _ (Nat.two_pow_pos _)

/-- What was put into a field is read from it. -/
theorem get_set_self : field.get (field.set value content) = content % 2 ^ field.bits := by
  apply Nat.eq_of_testBit_eq
  intro index
  rw [testBit_get, testBit_set, Nat.testBit_mod_two_pow, Nat.add_sub_cancel_left]
  by_cases hinside : index < field.bits
  · simp [hinside]
  · simp [hinside]

theorem get_set_of_lt (hfits : content < 2 ^ field.bits) :
    field.get (field.set value content) = content := by
  rw [get_set_self, Nat.mod_eq_of_lt hfits]

/-- A field below keeps its content. -/
theorem get_set_of_below (hbelow : other.Below field) :
    other.get (field.set value content) = other.get value := by
  apply Nat.eq_of_testBit_eq
  intro index
  rw [testBit_get, testBit_get, testBit_set]
  by_cases hinside : index < other.bits
  · have hlow : ¬ field.shift ≤ other.shift + index := by
      unfold Below at hbelow
      omega
    rw [if_neg fun h => hlow h.1]
  · simp [hinside]

/-- A field above keeps its content. -/
theorem get_set_of_above (habove : field.Below other) :
    other.get (field.set value content) = other.get value := by
  apply Nat.eq_of_testBit_eq
  intro index
  have hhigh : ¬ other.shift + index < field.shift + field.bits := by
    unfold Below at habove
    omega
  rw [testBit_get, testBit_get, testBit_set, if_neg fun h => hhigh h.2]

/-- A number of `width` bits stays one when a field inside it is set. -/
theorem set_lt (hvalue : value < 2 ^ width) (hinside : field.shift + field.bits ≤ width) :
    field.set value content < 2 ^ width := by
  apply Nat.lt_pow_two_of_testBit
  intro index hge
  rw [testBit_set, if_neg fun h => absurd h.2 (Nat.not_lt.mpr (hinside.trans hge))]
  exact Nat.testBit_lt_two_pow (hvalue.trans_le (Nat.pow_le_pow_right Nat.two_pos hge))

/-- A mask of all bits but the lowest one clears that bit. -/
theorem and_mask_lowest (hvalue : value < 2 ^ (width + 1)) :
    value &&& 2 * (2 ^ width - 1) = value / 2 * 2 := by
  have hhalf : (value &&& 2 * (2 ^ width - 1)) / 2 = value / 2 := by
    rw [Nat.and_div_two, Nat.mul_div_cancel_left _ Nat.two_pos, Nat.and_two_pow_sub_one_eq_mod]
    apply Nat.mod_eq_of_lt
    rw [pow_succ] at hvalue
    omega
  have heven : (value &&& 2 * (2 ^ width - 1)) % 2 = 0 := by
    rw [Nat.and_mod_two_pow (n := 1), Nat.mul_mod_right, Nat.and_zero]
  rw [← Nat.div_add_mod (value &&& 2 * (2 ^ width - 1)) 2, hhalf, heven, add_zero, mul_comm]

/-- A mask of all bits from the `k`-th one on clears the bits below. -/
theorem and_mask_high {k : ℕ} (hvalue : value < 2 ^ width) (hk : k ≤ width) :
    value &&& (2 ^ width - 2 ^ k) = value / 2 ^ k * 2 ^ k := by
  have hpow : 2 ^ k ≤ 2 ^ width := Nat.pow_le_pow_right Nat.two_pos hk
  have hone : 0 < 2 ^ k := Nat.two_pow_pos k
  have hmask : 2 ^ width - 2 ^ k = 2 ^ width - (2 ^ k - 1 + 1) := by
    rw [Nat.sub_add_cancel hone]
  rw [← Nat.shiftRight_eq_div_pow, ← Nat.shiftLeft_eq]
  apply Nat.eq_of_testBit_eq
  intro i
  rw [Nat.testBit_and, hmask, Nat.testBit_two_pow_sub_succ (by omega), Nat.testBit_two_pow_sub_one,
    Nat.testBit_shiftLeft]
  by_cases hlow : i < k
  · rw [decide_eq_true hlow, Bool.not_true, Bool.and_false, Bool.and_false,
      decide_eq_false (Nat.not_le.mpr hlow), Bool.false_and]
  · have hge : k ≤ i := Nat.le_of_not_lt hlow
    rw [decide_eq_false hlow, Bool.not_false, Bool.and_true, decide_eq_true hge, Bool.true_and,
      Nat.testBit_shiftRight, Nat.add_sub_cancel' hge]
    by_cases hwide : i < width
    · rw [decide_eq_true hwide, Bool.and_true]
    · rw [decide_eq_false hwide, Bool.and_false]
      have hfit := Nat.pow_le_pow_right Nat.two_pos (Nat.le_of_not_lt hwide)
      exact (Nat.testBit_lt_two_pow (hvalue.trans_le hfit)).symm

end BitField

end ContainerScheduler.Math
