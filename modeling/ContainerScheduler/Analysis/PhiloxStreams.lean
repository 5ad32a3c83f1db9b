/-
# Streams of Philox

A call adds one to the counter, modulo `2 ^ 128`, and a skip adds its count unless a carry is lost.
Each round can be undone, since its multipliers are odd; so the blocks differ for a whole period.
-/

import ContainerScheduler.Random.PhiloxRandom
import Mathlib.Tactic.NormNum

namespace ContainerScheduler.Analysis

open Math
open ContainerScheduler.Random

/-! ## The counter -/

/-- The number that the limbs stand for. -/
def counterValue (counter : ResultType) : ℕ :=
  counter.w0.toNat + 2 ^ 32 * counter.w1.toNat + 2 ^ 64 * counter.w2.toNat +
    2 ^ 96 * counter.w3.toNat

theorem counterValue_lt (counter : ResultType) : counterValue counter < 2 ^ 128 := by
  have h0 := counter.w0.toNat_lt
  have h1 := counter.w1.toNat_lt
  have h2 := counter.w2.toNat_lt
  have h3 := counter.w3.toNat_lt
  rw [counterValue]
  omega

theorem counterValue_injective : Function.Injective counterValue := by
  rintro ⟨a0, a1, a2, a3⟩ ⟨b0, b1, b2, b3⟩ heq
  have ha0 := a0.toNat_lt
  have ha1 := a1.toNat_lt
  have ha2 := a2.toNat_lt
  have hb0 := b0.toNat_lt
  have hb1 := b1.toNat_lt
  have hb2 := b2.toNat_lt
  simp only [counterValue] at heq
  have h0 : a0 = b0 := UInt32.toNat_inj.mp (by omega)
  have h1 : a1 = b1 := UInt32.toNat_inj.mp (by omega)
  have h2 : a2 = b2 := UInt32.toNat_inj.mp (by omega)
  have h3 : a3 = b3 := UInt32.toNat_inj.mp (by omega)
  rw [h0, h1, h2, h3]

/-- A sum has wrapped if it is below an addend. -/
theorem toNat_add_wrapped (a b : UInt32) :
    (a + b).toNat + (if a + b < b then 2 ^ 32 else 0) = a.toNat + b.toNat := by
  have ha := a.toNat_lt
  have hb := b.toNat_lt
  simp only [UInt32.lt_iff_toNat_lt, UInt32.toNat_add]
  split_ifs <;> omega

/-- An increment has wrapped if it gives zero. -/
theorem toNat_succ_wrapped (a : UInt32) :
    (a + 1).toNat + (if a + 1 = 0 then 2 ^ 32 else 0) = a.toNat + 1 := by
  have ha := a.toNat_lt
  have hone : (1 : UInt32).toNat = 1 := rfl
  have hzero : (0 : UInt32).toNat = 0 := rfl
  simp only [← UInt32.toNat_inj, UInt32.toNat_add, hone, hzero]
  split_ifs <;> omega

theorem counterValue_skipOne (counter : ResultType) :
    counterValue (skipOne counter) = (counterValue counter + 1) % 2 ^ 128 := by
  have h0 := toNat_succ_wrapped counter.w0
  have h1 := toNat_succ_wrapped counter.w1
  have h2 := toNat_succ_wrapped counter.w2
  have h3 := toNat_succ_wrapped counter.w3
  have hlt := counterValue_lt (skipOne counter)
  rw [skipOne] at hlt ⊢
  simp only [counterValue] at hlt ⊢
  split_ifs at h0 h1 h2 h3 hlt ⊢ <;> simp only at hlt ⊢ <;> omega

theorem cyclic_skipOne : CyclicCounter (2 ^ 128) counterValue skipOne :=
  ⟨counterValue_lt, counterValue_injective, counterValue_skipOne⟩

section Calls

variable (gen : PhiloxRandom) (n m : ℕ)

theorem afterCalls_eq :
    gen.afterCalls n = { gen with counter := skipOne^[n] gen.counter } := by
  induction n with
  | zero => rfl
  | succ n ih =>
      rw [PhiloxRandom.afterCalls] at ih ⊢
      rw [Function.iterate_succ_apply', ih, Function.iterate_succ_apply']
      rfl

theorem afterCalls_add : (gen.afterCalls n).afterCalls m = gen.afterCalls (n + m) := by
  rw [PhiloxRandom.afterCalls, PhiloxRandom.afterCalls, PhiloxRandom.afterCalls, Nat.add_comm,
    Function.iterate_add_apply]

theorem blocks_afterCalls : (gen.afterCalls n).blocks m = (gen.blocks (n + m)).drop n := by
  rw [PhiloxRandom.blocks, PhiloxRandom.blocks, ← List.map_drop, List.range_add,
    List.drop_left' List.length_range, List.map_map]
  refine List.map_congr_left fun i _ => ?_
  rw [afterCalls_add]
  rfl

end Calls

/-! ## Skips -/

section Skips

variable (gen : PhiloxRandom) (count : UInt64)

theorem toNat_high : (count >>> 32).toUInt32.toNat = count.toNat / 2 ^ 32 := by
  have hlt := count.toNat_lt
  rw [UInt64.toNat_toUInt32, UInt64.toNat_shiftRight, Nat.shiftRight_eq_div_pow,
    show (32 : UInt64).toNat % 64 = 32 from rfl]
  omega

/-- The carry from the lowest limb is added to an upper half that is full. -/
def LosesCarry : Prop :=
  count.toNat / 2 ^ 32 = 2 ^ 32 - 1 ∧ 2 ^ 32 ≤ gen.counter.w0.toNat + count.toNat % 2 ^ 32

instance : Decidable (LosesCarry gen count) := inferInstanceAs (Decidable (_ ∧ _))

/-- The number of the three upper limbs. -/
def upperValue (counter : ResultType) : ℕ :=
  counter.w1.toNat + 2 ^ 32 * counter.w2.toNat + 2 ^ 64 * counter.w3.toNat

theorem counterValue_eq (counter : ResultType) :
    counterValue counter = counter.w0.toNat + 2 ^ 32 * upperValue counter := by
  rw [counterValue, upperValue]
  omega

theorem upperValue_lt (counter : ResultType) : upperValue counter < 2 ^ 96 := by
  have hlt := counterValue_lt counter
  rw [counterValue_eq] at hlt
  omega

/-- What is added to the second limb. -/
def carriedHigh : UInt32 :=
  if gen.counter.w0 + count.toUInt32 < count.toUInt32 then (count >>> 32).toUInt32 + 1
  else (count >>> 32).toUInt32

theorem skip_eq : gen.skip count =
    let w0 := gen.counter.w0 + count.toUInt32
    let w1 := gen.counter.w1 + carriedHigh gen count
    let w2 := gen.counter.w2 + 1
    if w1 < carriedHigh gen count then
      if w2 = 0 then { gen with counter := ⟨w0, w1, w2, gen.counter.w3 + 1⟩ }
      else { gen with counter := ⟨w0, w1, w2, gen.counter.w3⟩ }
    else { gen with counter := ⟨w0, w1, gen.counter.w2, gen.counter.w3⟩ } := rfl

theorem upperValue_skip : upperValue (gen.skip count).counter =
    (upperValue gen.counter + (carriedHigh gen count).toNat) % 2 ^ 96 := by
  have h1 := toNat_add_wrapped gen.counter.w1 (carriedHigh gen count)
  have h2 := toNat_succ_wrapped gen.counter.w2
  have h3 := toNat_succ_wrapped gen.counter.w3
  have hlt := upperValue_lt (gen.skip count).counter
  rw [skip_eq] at hlt ⊢
  simp only [upperValue] at hlt ⊢
  split_ifs at h1 h2 h3 hlt ⊢ <;> simp only at hlt ⊢ <;> omega

theorem skip_w0 : (gen.skip count).counter.w0 = gen.counter.w0 + count.toUInt32 := by
  simp only [skip_eq]
  split_ifs <;> rfl

/-- The carry is lost where the upper half wraps to zero. -/
theorem toNat_carriedHigh :
    (gen.counter.w0 + count.toUInt32).toNat + 2 ^ 32 * (carriedHigh gen count).toNat +
      (if LosesCarry gen count then 2 ^ 64 else 0) = gen.counter.w0.toNat + count.toNat := by
  have hlo := UInt64.toNat_toUInt32 count
  have hhi := toNat_high count
  have h0 := toNat_add_wrapped gen.counter.w0 count.toUInt32
  have hcarry := toNat_succ_wrapped (count >>> 32).toUInt32
  have hlt := (gen.counter.w0 + count.toUInt32).toNat_lt
  rw [carriedHigh]
  by_cases hwrap : gen.counter.w0 + count.toUInt32 < count.toUInt32
  · rw [if_pos hwrap] at h0 ⊢
    by_cases hzero : (count >>> 32).toUInt32 + 1 = 0
    · have hnone : ((count >>> 32).toUInt32 + 1).toNat = 0 := by rw [hzero, UInt32.toNat_zero]
      rw [if_pos hzero] at hcarry
      have hlost : LosesCarry gen count := ⟨by omega, by omega⟩
      rw [if_pos hlost]
      omega
    · have hhigh := ((count >>> 32).toUInt32 + 1).toNat_lt
      rw [if_neg hzero] at hcarry
      have hkept : ¬ LosesCarry gen count := fun hlost => by
        have hfull := hlost.1
        omega
      rw [if_neg hkept]
      omega
  · rw [if_neg hwrap] at h0 ⊢
    have hkept : ¬ LosesCarry gen count := fun hlost => by
      have hover := hlost.2
      omega
    rw [if_neg hkept]
    omega

theorem counterValue_skip : counterValue (gen.skip count).counter =
    (counterValue gen.counter + count.toNat - if LosesCarry gen count then 2 ^ 64 else 0) %
      2 ^ 128 := by
  have hupper := upperValue_skip gen count
  have hcarried := toNat_carriedHigh gen count
  have hlt := (gen.counter.w0 + count.toUInt32).toNat_lt
  rw [counterValue_eq, counterValue_eq, skip_w0, hupper]
  omega

/-- What a skip is for: it counts, as the calls do, in one step or in two, and leads to the blocks
that the calls would lead to. -/
structure SkipsExactly : Prop where
  value_eq : counterValue (gen.skip count).counter =
    (counterValue gen.counter + count.toNat) % 2 ^ 128
  calls_eq : gen.skip count = gen.afterCalls count.toNat
  split_eq : ∀ a b : UInt64, a.toNat + b.toNat = count.toNat →
    (gen.skip a).skip b = gen.skip count
  blocks_eq : ∀ n, (gen.skip count).blocks n = (gen.blocks (count.toNat + n)).drop count.toNat

theorem skip_key : (gen.skip count).key = gen.key := by
  simp only [skip_eq]
  split_ifs <;> rfl

variable {gen count}

theorem skip_eq_afterCalls (hcarry : ¬ LosesCarry gen count) :
    gen.skip count = gen.afterCalls count.toNat := by
  have hcounter : (gen.skip count).counter = skipOne^[count.toNat] gen.counter := by
    apply counterValue_injective
    rw [counterValue_skip, if_neg hcarry, cyclic_skipOne.value_iterate, Nat.sub_zero]
  have hkey := skip_key gen count
  rw [afterCalls_eq, ← hcounter, ← hkey]

theorem not_losesCarry_parts {a b : UInt64} (hcarry : ¬ LosesCarry gen count)
    (hsum : a.toNat + b.toNat = count.toNat) :
    ¬ LosesCarry gen a ∧ ¬ LosesCarry (gen.skip a) b := by
  have h0 := gen.counter.w0.toNat_lt
  have ha := UInt64.toNat_toUInt32 a
  have hcount := count.toNat_lt
  have hw0 : (gen.skip a).counter.w0.toNat = (gen.counter.w0.toNat + a.toNat) % 2 ^ 32 := by
    rw [skip_w0, UInt32.toNat_add, ha]
    omega
  rw [LosesCarry] at hcarry ⊢
  rw [LosesCarry, hw0]
  omega

/-- **Skipping equals generating**, unless a carry is lost. -/
theorem skips_exactly_iff (gen : PhiloxRandom) (count : UInt64) :
    SkipsExactly gen count ↔ ¬ LosesCarry gen count := by
  constructor
  · intro hexact hlost
    have heq := hexact.value_eq
    have hlt := counterValue_lt gen.counter
    rw [counterValue_skip, if_pos hlost] at heq
    rw [LosesCarry] at hlost
    omega
  · intro hcarry
    have hcalls := skip_eq_afterCalls hcarry
    refine ⟨?_, hcalls, fun a b hsum => ?_, fun n => ?_⟩
    · rw [counterValue_skip, if_neg hcarry, Nat.sub_zero]
    · obtain ⟨hfirst, hsecond⟩ := not_losesCarry_parts hcarry hsum
      rw [skip_eq_afterCalls hsecond, skip_eq_afterCalls hfirst, afterCalls_add, hsum, hcalls]
    · rw [hcalls, blocks_afterCalls]

theorem losesCarry_full : LosesCarry ⟨⟨1, 0, 0, 0⟩, ⟨0, 0⟩⟩ 0xFFFFFFFFFFFFFFFF := by decide

/-- A skip by `2 ^ 64 - 1` from the counter 1. -/
theorem skip_loses_carry : ¬ SkipsExactly ⟨⟨1, 0, 0, 0⟩, ⟨0, 0⟩⟩ 0xFFFFFFFFFFFFFFFF := by
  intro hexact
  have heq := hexact.value_eq
  rw [counterValue_skip, if_pos losesCarry_full] at heq
  exact absurd heq (by decide)

end Skips

/-! ## Blocks -/

section Blocks

theorem multiplyHighLow_low (a b : UInt32) : (multiplyHighLow a b).1 = a * b := by
  rw [multiplyHighLow, UInt64.toUInt32_mul, UInt32.toUInt32_toUInt64, UInt32.toUInt32_toUInt64]

/-- The inverses of the multipliers. -/
def inverseA : UInt32 := 0x991A7CDB

def inverseB : UInt32 := 0x6D7CAE67

theorem mul_inverseA (a : UInt32) : kPhiloxM4x32A * (a * inverseA) = a := by
  rw [UInt32.mul_comm, UInt32.mul_assoc, show inverseA * kPhiloxM4x32A = 1 from rfl,
    UInt32.mul_one]

theorem inverseA_mul (a : UInt32) : kPhiloxM4x32A * a * inverseA = a := by
  rw [UInt32.mul_comm kPhiloxM4x32A, UInt32.mul_assoc,
    show kPhiloxM4x32A * inverseA = 1 from rfl, UInt32.mul_one]

theorem mul_inverseB (a : UInt32) : kPhiloxM4x32B * (a * inverseB) = a := by
  rw [UInt32.mul_comm, UInt32.mul_assoc, show inverseB * kPhiloxM4x32B = 1 from rfl,
    UInt32.mul_one]

theorem inverseB_mul (a : UInt32) : kPhiloxM4x32B * a * inverseB = a := by
  rw [UInt32.mul_comm kPhiloxM4x32B, UInt32.mul_assoc,
    show kPhiloxM4x32B * inverseB = 1 from rfl, UInt32.mul_one]

theorem xor_cancel (a b c : UInt32) : a ^^^ (a ^^^ b ^^^ c) ^^^ c = b := by
  rw [← UInt32.xor_assoc, ← UInt32.xor_assoc, UInt32.xor_self, UInt32.zero_xor, UInt32.xor_assoc,
    UInt32.xor_self, UInt32.xor_zero]

/-- The round that is undone: the lower halves give the limbs that were multiplied, and these the
higher halves. -/
def undoRound (result : ResultType) (key : Key) : ResultType :=
  let w0 := result.w3 * inverseA
  let w2 := result.w1 * inverseB
  { w0
    w1 := (multiplyHighLow kPhiloxM4x32B w2).2 ^^^ result.w0 ^^^ key.k0
    w2
    w3 := (multiplyHighLow kPhiloxM4x32A w0).2 ^^^ result.w2 ^^^ key.k1 }

theorem undoRound_computeSingleRound (counter : ResultType) (key : Key) :
    undoRound (computeSingleRound counter key) key = counter := by
  simp only [undoRound, computeSingleRound, multiplyHighLow_low, inverseA_mul, inverseB_mul,
    xor_cancel]

theorem computeSingleRound_undoRound (result : ResultType) (key : Key) :
    computeSingleRound (undoRound result key) key = result := by
  simp only [undoRound, computeSingleRound, multiplyHighLow_low, mul_inverseA, mul_inverseB,
    xor_cancel]

theorem bijective_computeSingleRound (key : Key) :
    Function.Bijective fun counter => computeSingleRound counter key :=
  Function.bijective_iff_has_inverse.mpr ⟨fun result => undoRound result key,
    fun counter => undoRound_computeSingleRound counter key,
    fun result => computeSingleRound_undoRound result key⟩

theorem bijective_computeRounds (rounds : ℕ) (key : Key) :
    Function.Bijective fun counter => computeRounds rounds counter key :=
  bijective_rounds (fun key counter => computeSingleRound counter key) raiseKey
    bijective_computeSingleRound rounds key

theorem afterCalls_period {period : ℕ} (hcyclic : CyclicCounter period counterValue skipOne)
    (gen : PhiloxRandom) : gen.afterCalls period = gen := by
  rw [afterCalls_eq, hcyclic.iterate_period]

theorem call_afterCalls_ne {period : ℕ} (hcyclic : CyclicCounter period counterValue skipOne)
    (gen : PhiloxRandom) {n m : ℕ} (hnm : n < m) (hm : m < n + period) :
    (gen.afterCalls n).call.1 ≠ (gen.afterCalls m).call.1 := by
  rw [afterCalls_eq, afterCalls_eq]
  exact hcyclic.map_iterate_ne (bijective_computeRounds 10 gen.key).injective hnm hm gen.counter

/-- **Philox never repeats a block**: counters and blocks correspond to each other, and a period of
calls returns different blocks and the first counter. -/
theorem philox_never_repeats (key : Key) :
    (Function.Bijective fun counter => (PhiloxRandom.call ⟨counter, key⟩).1) ∧
    ∀ counter, (∀ n m, n < m → m < n + 2 ^ 128 →
        (PhiloxRandom.afterCalls ⟨counter, key⟩ n).call.1 ≠
          (PhiloxRandom.afterCalls ⟨counter, key⟩ m).call.1) ∧
      PhiloxRandom.afterCalls ⟨counter, key⟩ (2 ^ 128) = ⟨counter, key⟩ := by
  exact ⟨bijective_computeRounds 10 key, fun counter =>
    ⟨fun n m hnm hm => call_afterCalls_ne cyclic_skipOne ⟨counter, key⟩ hnm hm,
      afterCalls_period cyclic_skipOne ⟨counter, key⟩⟩⟩

end Blocks

end ContainerScheduler.Analysis
