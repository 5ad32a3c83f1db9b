/-
# Probing in the flat hash map ends

The probes of a key meet every slot, so a loop over them ends as soon as there is an empty
slot. Where the counters are right the tables are resized before they are full, and so
there always is one.

`clear_no_resize` forgets the deleted slots: it leaves them in the table and counts none of
them. What follows holds while the table is cleared without deleted slots, or resized when it is
cleared.
-/

import ContainerScheduler.Containers.FlatMap
import ContainerScheduler.Math.QuadraticProbing

namespace ContainerScheduler.Analysis

open Math
open Containers

variable {K V : Type} {rep rep' : FlatRep K V} {k : K}

/-! ## Slots -/

/-- The number of slots is a power of two that fits into 32 bits. -/
def Sized (rep : FlatRep K V) : Prop := ∃ lg < 29, rep.slots.length = 2 ^ lg * 8

/-- The number of slots of a kind after one of them has changed. -/
theorem count_set (kind : Slot K V → Bool) {index : ℕ} (hindex : index < rep.slots.length)
    (entry : Slot K V) :
    (rep.slots.set index entry).countP kind + (if kind (rep.slot index) then 1 else 0) =
      rep.slots.countP kind + if kind entry then 1 else 0 := by
  have hslot : rep.slot index = rep.slots[index] := by
    rw [FlatRep.slot, List.getElem?_eq_getElem hindex, Option.getD_some]
  have hpos : (if kind rep.slots[index] then 1 else 0) ≤ rep.slots.countP kind := by
    split_ifs with hkind
    · exact List.countP_pos_iff.mpr ⟨_, List.getElem_mem hindex, hkind⟩
    · exact Nat.zero_le _
  rw [List.countP_set hindex, hslot]
  omega

theorem count_notEmpty (slots : List (Slot K V)) :
    slots.countP (fun entry => !entry.isEmpty) =
      slots.countP Slot.isDeleted + slots.countP Slot.isFull := by
  induction slots with
  | nil => rfl
  | cons entry slots ih =>
      rw [List.countP_cons, List.countP_cons, List.countP_cons, ih]
      cases entry <;> simp <;> omega

/-- Changing one slot. -/
theorem slot_set {index : ℕ} (hindex : index < rep.slots.length) (entry : Slot K V)
    (hslots : rep'.slots = rep.slots.set index entry) (other : ℕ) :
    rep'.slot other = if other = index then entry else rep.slot other := by
  rw [FlatRep.slot, hslots, List.getElem?_set]
  by_cases hsame : index = other
  · rw [if_pos hsame, if_pos hindex, if_pos hsame.symm, Option.getD_some]
  · rw [if_neg hsame, if_neg (Ne.symm hsame), FlatRep.slot]

/-! ## The probes of a key -/

section Probes

variable (hash : K → ℕ) (equal : K → K → Bool)

/-- The slot of a probe. -/
def probe (rep : FlatRep K V) (k : K) (j : ℕ) : ℕ :=
  ((hash k >>> 8) + triangle j) % rep.slots.length

variable {hash equal} (hsized : Sized rep)

include hsized

theorem Sized.pos : 0 < rep.slots.length := by
  obtain ⟨lg, -, hlength⟩ := hsized
  rw [hlength]
  exact Nat.mul_pos (Nat.two_pow_pos lg) (by decide)

theorem Sized.le : rep.slots.length ≤ 2 ^ 31 := by
  obtain ⟨lg, hlg, hlength⟩ := hsized
  rw [hlength]
  have hle : 2 ^ lg ≤ 2 ^ 28 := Nat.pow_le_pow_right (by decide) (by omega)
  omega

theorem Sized.and_mask (value : ℕ) : value &&& rep.mask = value % rep.slots.length := by
  obtain ⟨lg, -, hlength⟩ := hsized
  have hpow : rep.slots.length = 2 ^ (lg + 3) := by
    rw [hlength, Nat.pow_add]
  rw [FlatRep.mask, hpow, Nat.and_two_pow_sub_one_eq_mod]

theorem probe_lt (j : ℕ) : probe hash rep k j < rep.slots.length := Nat.mod_lt _ hsized.pos

theorem firstIndex_eq : rep.firstIndex hash k = probe hash rep k 0 := hsized.and_mask _

theorem nextIndex_probe (j : ℕ) :
    rep.nextIndex (probe hash rep k j) (j + 1) = probe hash rep k (j + 1) := by
  rw [FlatRep.nextIndex, hsized.and_mask, probe, Nat.mod_add_mod, probe, triangle, Nat.add_assoc]

omit hsized in
theorem nextProbes_eq {j : ℕ} (hj : j < 2 ^ 31) : FlatRep.nextProbes (j + 1) = j + 2 :=
  Nat.mod_eq_of_lt (by omega)

variable (hash) (equal) (k)

/-- **Every slot is met.** -/
theorem exists_probe_eq {index : ℕ} (hindex : index < rep.slots.length) :
    ∃ j < rep.slots.length, probe hash rep k j = index := by
  obtain ⟨lg, -, hlength⟩ := hsized
  have hpow : rep.slots.length = 2 ^ (lg + 3) := by
    rw [hlength, Nat.pow_add]
  obtain ⟨j, hj, heq⟩ := exists_probe (lg + 3) (hash k >>> 8) (hpow ▸ hindex)
  exact ⟨j, hpow ▸ hj, by rw [probe, hpow, heq]⟩

/-- A probe that no loop for a key stops at. -/
def Passes (hash : K → ℕ) (equal : K → K → Bool) (rep : FlatRep K V) (k : K) (j : ℕ) : Prop :=
  FlatRep.holds hash equal k (rep.slot (probe hash rep k j)) = false ∧
    (rep.slot (probe hash rep k j)).isEmpty = false

/-- How the loop of `Find` ends. -/
theorem findLoop_spec (fuel j : ℕ) (hfuel : j + fuel = rep.slots.length)
    (hpassed : ∀ i < j, Passes hash equal rep k i) :
    (∃ i, (∀ i' < i, Passes hash equal rep k i') ∧
      (FlatRep.holds hash equal k (rep.slot (probe hash rep k i)) = true ∧
          rep.findLoop hash equal k fuel (probe hash rep k j) (j + 1) =
            .ok (some (probe hash rep k i)) ∨
        (rep.slot (probe hash rep k i)).isEmpty = true ∧
          rep.findLoop hash equal k fuel (probe hash rep k j) (j + 1) = .ok none)) ∨
      (∀ i < rep.slots.length, Passes hash equal rep k i) ∧
        rep.findLoop hash equal k fuel (probe hash rep k j) (j + 1) = .error .spins := by
  induction fuel generalizing j with
  | zero => exact .inr ⟨fun i hi => hpassed i (by omega), rfl⟩
  | succ fuel ih =>
      have hle := hsized.le
      rw [FlatRep.findLoop]
      split_ifs with hholds hempty
      · exact .inl ⟨j, hpassed, .inl ⟨hholds, rfl⟩⟩
      · exact .inl ⟨j, hpassed, .inr ⟨hempty, rfl⟩⟩
      · rw [nextIndex_probe hsized, nextProbes_eq (by omega)]
        refine ih (j + 1) (by omega) fun i hi => ?_
        obtain hlt | rfl := Nat.lt_succ_iff_lt_or_eq.mp hi
        · exact hpassed i hlt
        · exact ⟨Bool.not_eq_true _ ▸ hholds, Bool.not_eq_true _ ▸ hempty⟩

/-- How the loop of `FindOrInsert` ends. -/
theorem findOrInsertLoop_spec (fuel j : ℕ) (hfuel : j + fuel = rep.slots.length)
    (hpassed : ∀ i < j, Passes hash equal rep k i) (del : Option ℕ)
    (hdel : ∀ index, del = some index →
      ∃ d < j, index = probe hash rep k d ∧ (rep.slot index).isDeleted = true) :
    (∃ i, (∀ i' < i, Passes hash equal rep k i') ∧
      (FlatRep.holds hash equal k (rep.slot (probe hash rep k i)) = true ∧
          rep.findOrInsertLoop hash equal k fuel (probe hash rep k j) (j + 1) del =
            .ok (.found (probe hash rep k i)) ∨
        (rep.slot (probe hash rep k i)).isEmpty = true ∧
          ((∃ d < i, (rep.slot (probe hash rep k d)).isDeleted = true ∧
              rep.findOrInsertLoop hash equal k fuel (probe hash rep k j) (j + 1) del =
                .ok (.reuse (probe hash rep k d))) ∨
            rep.findOrInsertLoop hash equal k fuel (probe hash rep k j) (j + 1) del =
              .ok (.fresh (probe hash rep k i))))) ∨
      (∀ i < rep.slots.length, Passes hash equal rep k i) ∧
        rep.findOrInsertLoop hash equal k fuel (probe hash rep k j) (j + 1) del =
          .error .spins := by
  induction fuel generalizing j del with
  | zero => exact .inr ⟨fun i hi => hpassed i (by omega), rfl⟩
  | succ fuel ih =>
      have hle := hsized.le
      rw [FlatRep.findOrInsertLoop]
      split_ifs with hholds hempty hfirst
      · exact .inl ⟨j, hpassed, .inl ⟨hholds, rfl⟩⟩
      · refine .inl ⟨j, hpassed, .inr ⟨hempty, ?_⟩⟩
        cases del with
        | none => exact .inr rfl
        | some index =>
            obtain ⟨d, hd, rfl, hdeleted⟩ := hdel index rfl
            exact .inl ⟨d, hd, hdeleted, rfl⟩
      all_goals
        rw [nextIndex_probe hsized, nextProbes_eq (by omega)]
        refine ih (j + 1) (by omega) (fun i hi => ?_) _ fun index hindex => ?_
        · obtain hlt | rfl := Nat.lt_succ_iff_lt_or_eq.mp hi
          · exact hpassed i hlt
          · exact ⟨Bool.not_eq_true _ ▸ hholds, Bool.not_eq_true _ ▸ hempty⟩
      · obtain rfl := Option.some.inj hindex
        exact ⟨j, Nat.lt_succ_self j, rfl, hfirst.2⟩
      · obtain ⟨d, hd, hplace⟩ := hdel index hindex
        exact ⟨d, Nat.lt_succ_of_lt hd, hplace⟩

/-- How the loop of `FreshInsert` ends. -/
theorem freshInsertLoop_spec (fuel j : ℕ) (hfuel : j + fuel = rep.slots.length)
    (hpassed : ∀ i < j, (rep.slot (probe hash rep k i)).isEmpty = false) :
    (∃ i, (∀ i' < i, (rep.slot (probe hash rep k i')).isEmpty = false) ∧
      (rep.slot (probe hash rep k i)).isEmpty = true ∧
        rep.freshInsertLoop fuel (probe hash rep k j) (j + 1) = .ok (probe hash rep k i)) ∨
      (∀ i < rep.slots.length, (rep.slot (probe hash rep k i)).isEmpty = false) ∧
        rep.freshInsertLoop fuel (probe hash rep k j) (j + 1) = .error .spins := by
  induction fuel generalizing j with
  | zero => exact .inr ⟨fun i hi => hpassed i (by omega), rfl⟩
  | succ fuel ih =>
      have hle := hsized.le
      rw [FlatRep.freshInsertLoop]
      split_ifs with hempty
      · exact .inl ⟨j, hpassed, hempty, rfl⟩
      · rw [nextIndex_probe hsized, nextProbes_eq (by omega)]
        refine ih (j + 1) (by omega) fun i hi => ?_
        obtain hlt | rfl := Nat.lt_succ_iff_lt_or_eq.mp hi
        · exact hpassed i hlt
        · exact Bool.not_eq_true _ ▸ hempty

end Probes

end ContainerScheduler.Analysis
