/-
# Uniform draws

A word is rejected if it is below the remainder of `2 ^ 32`, so that each number below the bound has
equally many words. For a power of two nothing is rejected.
-/

import ContainerScheduler.Math.Rejection
import ContainerScheduler.Random.WeightedPicker
import Mathlib.Data.Nat.Prime.Basic

namespace ContainerScheduler.Analysis

open Math
open ContainerScheduler.Random.WeightedPicker

namespace Picking

/-- Each number below `n` has as many words as the others, the remaining words are rejected, and
rejected words are skipped. -/
structure DrawsEvenly (n : Int32) : Prop where
  even : ∀ v, 0 ≤ v → v < n → ((Finset.range (2 ^ 32)).filter fun w =>
    uniformOfWord n (UInt32.ofNat w) = some v).card = 2 ^ 32 / n.toNatClampNeg
  below : ∀ rnd v, uniformOfWord n rnd = some v → 0 ≤ v ∧ v < n
  draws : ∀ rejected rnd v words, (∀ r ∈ rejected, uniformOfWord n r = none) →
    uniformOfWord n rnd = some v →
    unbiasedUniform n (rejected ++ rnd :: words) = .ok (some (v, words))

section Words

variable {m : ℕ} {rnd : UInt32}

/-- The remainder, computed without `2 ^ 32`. -/
theorem pred_mod_succ {M : ℕ} (hm : 0 < m) (hM : 0 < M) (hdvd : ¬m ∣ M) :
    (M - 1) % m + 1 = M % m := by
  have hne : M % m ≠ 0 := fun hzero => hdvd (Nat.dvd_of_mod_eq_zero hzero)
  have hlt := Nat.mod_lt M hm
  have hdiv := Nat.div_add_mod M m
  have hpred : M - 1 = m * (M / m) + (M % m - 1) := by omega
  rw [hpred, Nat.mul_add_mod, Nat.mod_eq_of_lt (by omega)]
  omega

theorem toInt32_eq (word : UInt32) : word.toInt32 = Int32.ofNat word.toNat :=
  (congrArg UInt32.toInt32 (UInt32.ofNat_toNat (x := word))).symm

theorem ofNat_sub_one (hm : 0 < m) : Int32.ofNat m - 1 = Int32.ofNat (m - 1) :=
  (Int32.ofNat_sub m 1 hm).symm

/-- The test for a power of two. -/
theorem and_pred_eq_zero_iff (hm : 0 < m) (hlt : m < 2 ^ 31) :
    Int32.ofNat m &&& (Int32.ofNat m - 1) = 0 ↔ m.isPowerOfTwo := by
  rw [ofNat_sub_one hm, ← Nat.and_sub_one_eq_zero_iff_isPowerOfTwo hm.ne']
  change (UInt32.ofNat m &&& UInt32.ofNat (m - 1)).toInt32 = 0 ↔ _
  have hand : (UInt32.ofNat m &&& UInt32.ofNat (m - 1)).toNat = m &&& (m - 1) := by
    rw [UInt32.toNat_and, UInt32.toNat_ofNat', UInt32.toNat_ofNat', Nat.mod_eq_of_lt (by omega),
      Nat.mod_eq_of_lt (by omega)]
  have hle : m &&& (m - 1) ≤ m := Nat.and_le_left
  rw [toInt32_eq, hand]
  constructor
  · intro hzero
    have htoInt := congrArg Int32.toInt hzero
    rw [Int32.toInt_ofNat_of_lt (by omega), Int32.toInt_zero] at htoInt
    exact Int.natCast_eq_zero.mp htoInt
  · intro hzero
    rw [hzero]
    rfl

/-- What a word gives, for powers of two as for other numbers. -/
theorem uniformOfWord_eq (hm : 0 < m) (hlt : m < 2 ^ 31) (rnd : UInt32) :
    uniformOfWord (Int32.ofNat m) rnd =
      if 2 ^ 32 % m ≤ rnd.toNat then some (Int32.ofNat (rnd.toNat % m)) else none := by
  have htoNat : (UInt32.ofNat m).toNat = m := by
    rw [UInt32.toNat_ofNat', Nat.mod_eq_of_lt (by omega)]
  have hrest : rnd % UInt32.ofNat m = UInt32.ofNat (rnd.toNat % m) := by
    refine UInt32.toNat_inj.mp ?_
    have hbelow := (Nat.mod_le rnd.toNat m).trans_lt rnd.toNat_lt
    rw [UInt32.toNat_mod, htoNat, UInt32.toNat_ofNat', Nat.mod_eq_of_lt hbelow]
  rw [uniformOfWord]
  by_cases hpower : m.isPowerOfTwo
  · rw [if_pos ((and_pred_eq_zero_iff hm hlt).mpr hpower)]
    obtain ⟨k, rfl⟩ := hpower
    have hk : k < 31 := (Nat.pow_lt_pow_iff_right (by decide : 1 < 2)).mp hlt
    have hdvd : 2 ^ 32 % 2 ^ k = 0 :=
      Nat.mod_eq_zero_of_dvd (Nat.pow_dvd_pow 2 (by omega))
    rw [hdvd, if_pos (Nat.zero_le _), ofNat_sub_one hm]
    refine congrArg some ((toInt32_eq _).trans (congrArg Int32.ofNat ?_))
    rw [UInt32.toNat_and, Int32.toUInt32_ofNat', UInt32.toNat_ofNat',
      Nat.mod_eq_of_lt (a := 2 ^ k - 1) (by omega), Nat.and_two_pow_sub_one_eq_mod]
  · rw [if_neg fun hzero => hpower ((and_pred_eq_zero_iff hm hlt).mp hzero)]
    have hdvd : ¬m ∣ 2 ^ 32 := by
      intro hdvd
      obtain ⟨k, -, hk⟩ := (Nat.dvd_prime_pow Nat.prime_two).mp hdvd
      exact hpower ⟨k, hk⟩
    have hmod := Nat.mod_lt (2 ^ 32) hm
    have hrem : ((~~~0 : UInt32) % UInt32.ofNat m + 1).toNat = 2 ^ 32 % m := by
      have hsucc := pred_mod_succ hm (by decide : 0 < 2 ^ 32) hdvd
      rw [UInt32.toNat_add, UInt32.toNat_mod, htoNat]
      change ((2 ^ 32 - 1) % m + 1) % 2 ^ 32 = _
      rw [hsucc, Nat.mod_eq_of_lt (by omega)]
    simp only [UInt32.lt_iff_toNat_lt, Int32.toUInt32_ofNat', hrem, hrest]
    by_cases hreject : rnd.toNat < 2 ^ 32 % m
    · rw [if_pos hreject, if_neg (Nat.not_le.mpr hreject)]
    · rw [if_neg hreject, if_pos (Nat.not_lt.mp hreject)]
      rfl

theorem uniformOfWord_eq_some_iff (hm : 0 < m) (hlt : m < 2 ^ 31) {v : ℕ} (hv : v < m) :
    uniformOfWord (Int32.ofNat m) rnd = some (Int32.ofNat v) ↔
      2 ^ 32 % m ≤ rnd.toNat ∧ rnd.toNat % m = v := by
  have hmod := Nat.mod_lt rnd.toNat hm
  rw [uniformOfWord_eq hm hlt]
  split_ifs with haccept
  · rw [Option.some_inj]
    constructor
    · intro heq
      have htoInt := congrArg Int32.toInt heq
      rw [Int32.toInt_ofNat_of_lt (by omega), Int32.toInt_ofNat_of_lt (by omega)] at htoInt
      exact ⟨haccept, Int.ofNat_inj.mp htoInt⟩
    · rintro ⟨-, rfl⟩
      rfl
  · exact ⟨nofun, fun hboth => absurd hboth.1 haccept⟩

theorem drawWord_skip {n : Int32} {rejected words : List UInt32} {v : Int32}
    (hrejected : ∀ r ∈ rejected, uniformOfWord n r = none) (hword : uniformOfWord n rnd = some v) :
    drawWord n (rejected ++ rnd :: words) = some (v, words) := by
  induction rejected with
  | nil => rw [List.nil_append, drawWord, hword]
  | cons r rejected ih =>
      obtain ⟨hr, hrest⟩ := List.forall_mem_cons.mp hrejected
      rw [List.cons_append, drawWord, hr]
      exact ih hrest

/-- **No bias.** -/
theorem drawsEvenly {n : Int32} (hn : 0 < n) : DrawsEvenly n := by
  have hle : 0 ≤ n := Int32.le_of_lt hn
  obtain ⟨m, rfl, hlt⟩ : ∃ m, n = Int32.ofNat m ∧ m < 2 ^ 31 :=
    ⟨n.toNatClampNeg, (Int32.ofNat_toNatClampNeg n hle).symm, n.toNatClampNeg_lt⟩
  have hm : 0 < m := (Int32.ofNat_lt_iff_lt (by decide) hlt).mp hn
  refine ⟨fun v hv hvlt => ?_, fun rnd v hword => ?_, fun rejected rnd v words hrejected hword => ?_⟩
  · obtain ⟨k, rfl, hk⟩ : ∃ k, v = Int32.ofNat k ∧ k < 2 ^ 31 :=
      ⟨v.toNatClampNeg, (Int32.ofNat_toNatClampNeg v hv).symm, v.toNatClampNeg_lt⟩
    have hkm : k < m := (Int32.ofNat_lt_iff_lt hk hlt).mp hvlt
    rw [Int32.toNatClampNeg_ofNat_of_lt hlt, ← card_accepted (2 ^ 32) hkm]
    refine congrArg Finset.card (Finset.filter_congr fun w hw => ?_)
    rw [uniformOfWord_eq_some_iff hm hlt hkm, UInt32.toNat_ofNat',
      Nat.mod_eq_of_lt (Finset.mem_range.mp hw)]
  · rw [uniformOfWord_eq hm hlt] at hword
    split_ifs at hword
    obtain rfl := Option.some.inj hword
    have hmod := Nat.mod_lt rnd.toNat hm
    exact ⟨Int32.zero_le_ofNat_of_lt (by omega), (Int32.ofNat_lt_iff_lt (by omega) hlt).mpr hmod⟩
  · rw [unbiasedUniform, if_neg (Int32.not_lt.mpr hle), if_neg fun hzero => Int32.lt_irrefl (hzero ▸ hn),
      drawWord_skip hrejected hword]

end Words

end Picking

end ContainerScheduler.Analysis
