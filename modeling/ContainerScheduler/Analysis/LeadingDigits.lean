/-
# Leading digits

The number of the leading digits is stored if it has 64 bits. A number that has wrapped is less
than eight times the one before the digit, and one that has not is not.
-/

import ContainerScheduler.Analysis.DeviceNames

namespace ContainerScheduler.Analysis

open Devices
open Strings

/-- The test for an overflow finds each of the multiples of `2 ^ 64`. -/
theorem wrapped_lt_iff {v d : ℕ} (hd : d < 10) :
    (10 * v + d) % 2 ^ 64 / 8 < v ↔ 2 ^ 64 ≤ 10 * v + d := by
  omega

section LeadingDigits

variable {front s : List UInt8} {v : UInt64} {c : UInt8}

theorem not_isDigit_iff : (c < 48 || 57 < c) = !isDigit c := by
  rw [isDigit, Bool.not_and, ← decide_not, ← decide_not]
  simp only [UInt8.not_le]

theorem digit_toNat (hdigit : isDigit c = true) :
    (c - 48).toUInt64.toNat = c.toNat - 48 ∧ c.toNat - 48 < 10 := by
  obtain ⟨hlow, hhigh⟩ := isDigit_iff.mp hdigit
  have hle : (48 : UInt8) ≤ c := UInt8.le_iff_toNat_le.mpr hlow
  have hsub := UInt8.toNat_sub_of_le c 48 hle
  change (c - 48).toNat = c.toNat - 48 at hsub
  rw [UInt8.toNat_toUInt64, hsub]
  exact ⟨rfl, by omega⟩

/-- The value of the digits up to the next one, wrapped. -/
theorem newV_toNat (hv : v.toNat = decimal front) (hdigit : isDigit c = true) :
    (v * 10 + (c - 48).toUInt64).toNat = decimal (front ++ [c]) % 2 ^ 64 := by
  rw [UInt64.toNat_add, UInt64.toNat_mul, (digit_toNat hdigit).1, decimal_concat, hv]
  change (decimal front * 10 % 2 ^ 64 + _) % 2 ^ 64 = _
  rw [Nat.mod_add_mod, Nat.mul_comm]

theorem consumeLoop_eq (hv : v.toNat = decimal front) :
    StrUtil.consumeLoop v s =
      if decimal (front ++ s.takeWhile isDigit) < 2 ^ 64 then
        some ((s.takeWhile isDigit).length, UInt64.ofNat (decimal (front ++ s.takeWhile isDigit)))
      else none := by
  induction s generalizing front v with
  | nil =>
      rw [List.takeWhile_nil, List.append_nil, ← hv, if_pos v.toNat_lt, UInt64.ofNat_toNat]
      rfl
  | cons c s ih =>
      rw [StrUtil.consumeLoop, not_isDigit_iff]
      cases hdigit : isDigit c with
      | false =>
          rw [List.takeWhile_cons_of_neg (by rw [hdigit]; exact Bool.false_ne_true), List.append_nil,
            ← hv, if_pos v.toNat_lt, UInt64.ofNat_toNat]
          rfl
      | true =>
          have hnew := newV_toNat hv hdigit
          have hconcat := decimal_concat front c
          have hwrapped := @wrapped_lt_iff v.toNat _ (digit_toNat hdigit).2
          rw [hv, ← hconcat, ← hnew] at hwrapped
          rw [List.takeWhile_cons_of_pos hdigit, List.append_cons]
          by_cases hfits : decimal (front ++ [c]) < 2 ^ 64
          · have htest : ¬(v * 10 + (c - 48).toUInt64) / 8 < v := by
              rw [UInt64.lt_iff_toNat_lt, UInt64.toNat_div, hv]
              exact fun hlt => Nat.not_le.mpr hfits (hwrapped.mp hlt)
            rw [Nat.mod_eq_of_lt hfits] at hnew
            simp only [Bool.not_true, Bool.false_eq_true, if_false, if_neg htest, ih hnew]
            split_ifs
            · rfl
            · rfl
          · have htest : (v * 10 + (c - 48).toUInt64) / 8 < v := by
              rw [UInt64.lt_iff_toNat_lt, UInt64.toNat_div, hv]
              exact hwrapped.mpr (Nat.not_lt.mp hfits)
            have hle := le_decimal_append (front ++ [c]) (s.takeWhile isDigit)
            simp only [Bool.not_true, Bool.false_eq_true, if_false, if_pos htest]
            rw [if_neg (by omega)]

theorem length_takeWhile_pos_iff :
    (s.takeWhile isDigit).length > 0 ↔ s.head?.any isDigit = true := by
  cases s with
  | nil => exact ⟨fun hlt => absurd hlt (Nat.lt_irrefl 0), nofun⟩
  | cons c s =>
      change _ ↔ isDigit c = true
      cases hdigit : isDigit c with
      | false =>
          rw [List.takeWhile_cons_of_neg (by rw [hdigit]; exact Bool.false_ne_true)]
          exact ⟨fun hlt => absurd hlt (Nat.lt_irrefl 0), nofun⟩
      | true =>
          rw [List.takeWhile_cons_of_pos hdigit]
          exact ⟨fun _ => rfl, fun _ => Nat.succ_pos _⟩

theorem drop_length_takeWhile : s.drop (s.takeWhile isDigit).length = s.dropWhile isDigit :=
  calc s.drop (s.takeWhile isDigit).length
      = (s.takeWhile isDigit ++ s.dropWhile isDigit).drop (s.takeWhile isDigit).length := by
        rw [List.takeWhile_append_dropWhile]
    _ = s.dropWhile isDigit := List.drop_left

/-- **Leading digits never wrap**: they are consumed if and only if there are any and their number
has 64 bits, which is then stored; otherwise nothing changes. -/
theorem leading_digits_never_wrap (s : List UInt8) (val : UInt64) :
    StrUtil.consumeLeadingDigits s val =
      if s.head?.any isDigit = true ∧ decimal (s.takeWhile isDigit) < 2 ^ 64 then
        (true, s.dropWhile isDigit, UInt64.ofNat (decimal (s.takeWhile isDigit)))
      else (false, s, val) := by
  rw [StrUtil.consumeLeadingDigits, @consumeLoop_eq [] s 0 rfl, List.nil_append]
  simp only [← length_takeWhile_pos_iff]
  by_cases hfits : decimal (s.takeWhile isDigit) < 2 ^ 64
  · simp only [hfits, if_true, and_true, drop_length_takeWhile]
  · simp only [hfits, if_false, and_false]

end LeadingDigits

end ContainerScheduler.Analysis
