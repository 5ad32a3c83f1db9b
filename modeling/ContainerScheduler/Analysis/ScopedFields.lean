/-
# The fields of scoped allocators

Sizes are rounded up to the alignment. The fields fit behind each other if and only if the sum of
the rounded sizes is a `size_t`.
-/

import ContainerScheduler.Memory.ScopedAllocator

namespace ContainerScheduler.Analysis

open Memory
open Memory.ScopedAllocator
open Memory.ScopedAllocatorMgr

/-- Aligned and disjoint fields within a total, with room for what is requested. -/
structure FieldsFit (fields : List Field) (total : ℕ) : Prop where
  aligned : ∀ field ∈ fields, kAllocatorAlignment ∣ field.offset
  room : ∀ field ∈ fields, field.bytesRequested ≤ field.bytesAllocated
  disjoint : fields.Pairwise fun field other =>
    field.offset + field.bytesAllocated ≤ other.offset
  within : ∀ field ∈ fields, field.offset + field.bytesAllocated ≤ total

def alignedBytes (bytes : ℕ) : ℕ :=
  (bytes + (kAllocatorAlignment - 1)) / kAllocatorAlignment * kAllocatorAlignment

/-- The sum of the rounded sizes. -/
def roundedBytes (dataTypeSize : ℕ) (shapes : List ℕ) : ℕ :=
  (shapes.map fun numElements => alignedBytes (numElements * dataTypeSize % 2 ^ 64)).sum

section Populating

variable {scopeId : Int32} {dataTypeSize offset : ℕ} {shapes : List ℕ}

/-- The bytes that a field leaves to the next one. -/
def padding (behind : ℕ) : ℕ :=
  if behind % kAllocatorAlignment > 0 then kAllocatorAlignment - behind % kAllocatorAlignment else 0

theorem padding_spec (behind : ℕ) :
    (behind + padding behind) % kAllocatorAlignment = 0 ∧ padding behind < kAllocatorAlignment := by
  rw [padding, kAllocatorAlignment]
  by_cases hover : behind % 64 > 0
  · rw [if_pos hover]
    omega
  · rw [if_neg hover]
    omega

theorem alignedBytes_eq {bytes : ℕ} (haligned : kAllocatorAlignment ∣ offset) :
    alignedBytes bytes = bytes + padding ((offset + bytes) % 2 ^ 64) := by
  obtain ⟨k, rfl⟩ := haligned
  obtain ⟨hmod, hlt⟩ := padding_spec ((kAllocatorAlignment * k + bytes) % 2 ^ 64)
  rw [alignedBytes]
  simp only [kAllocatorAlignment] at *
  omega

theorem populateFrom_cons (i numElements : ℕ) :
    populateFrom scopeId dataTypeSize i offset (numElements :: shapes) =
      let bytesRequested := numElements * dataTypeSize % 2 ^ 64
      let behind := (offset + bytesRequested) % 2 ^ 64
      let rest := populateFrom scopeId dataTypeSize (i + 1) ((behind + padding behind) % 2 ^ 64) shapes
      (⟨scopeId + 1 + Int32.ofNat i, offset, bytesRequested,
        (bytesRequested + padding behind) % 2 ^ 64⟩ :: rest.1, rest.2) := rfl

theorem populateFrom_total (haligned : kAllocatorAlignment ∣ offset) (hlt : offset < 2 ^ 64) (i : ℕ) :
    kAllocatorAlignment ∣ (populateFrom scopeId dataTypeSize i offset shapes).2 ∧
      (populateFrom scopeId dataTypeSize i offset shapes).2 < 2 ^ 64 := by
  induction shapes generalizing i offset with
  | nil => exact ⟨haligned, hlt⟩
  | cons numElements shapes ih =>
      rw [populateFrom_cons]
      have hpadding := padding_spec ((offset + numElements * dataTypeSize % 2 ^ 64) % 2 ^ 64)
      refine ih ?_ (Nat.mod_lt _ (by decide)) (i + 1)
      simp only [kAllocatorAlignment] at *
      omega

/-- Without an overflow the fields fit. -/
theorem populateFrom_fit (haligned : kAllocatorAlignment ∣ offset)
    (hlt : offset + roundedBytes dataTypeSize shapes < 2 ^ 64) (i : ℕ) :
    (populateFrom scopeId dataTypeSize i offset shapes).2 =
        offset + roundedBytes dataTypeSize shapes ∧
      FieldsFit (populateFrom scopeId dataTypeSize i offset shapes).1
        (offset + roundedBytes dataTypeSize shapes) ∧
      ∀ field ∈ (populateFrom scopeId dataTypeSize i offset shapes).1, offset ≤ field.offset := by
  induction shapes generalizing i offset with
  | nil => exact ⟨rfl, ⟨nofun, nofun, .nil, nofun⟩, nofun⟩
  | cons numElements shapes ih =>
      have hround := @alignedBytes_eq offset (numElements * dataTypeSize % 2 ^ 64) haligned
      rw [roundedBytes, List.map_cons, List.sum_cons, ← roundedBytes] at hlt ⊢
      rw [populateFrom_cons]
      generalize numElements * dataTypeSize % 2 ^ 64 = bytes at hlt hround ⊢
      have hbehind : (offset + bytes) % 2 ^ 64 = offset + bytes := Nat.mod_eq_of_lt (by omega)
      have hpadding := padding_spec (offset + bytes)
      rw [hbehind] at hround
      have hnext : (offset + bytes + padding (offset + bytes)) % 2 ^ 64 = offset + alignedBytes bytes := by
        rw [Nat.mod_eq_of_lt (by omega)]
        omega
      have hallocated : (bytes + padding (offset + bytes)) % 2 ^ 64 = alignedBytes bytes := by
        rw [Nat.mod_eq_of_lt (by omega)]
        exact hround.symm
      have haligned' : kAllocatorAlignment ∣ offset + alignedBytes bytes :=
        Nat.dvd_add haligned (Dvd.intro_left _ rfl)
      obtain ⟨htotal, hfit, hbelow⟩ := ih haligned' (by omega) (i + 1)
      simp only [hbehind, hnext, hallocated, ← Nat.add_assoc] at htotal hfit hbelow ⊢
      refine ⟨htotal, ⟨?_, ?_, ?_, ?_⟩, ?_⟩
      · exact List.forall_mem_cons.mpr ⟨haligned, hfit.aligned⟩
      · exact List.forall_mem_cons.mpr ⟨show bytes ≤ alignedBytes bytes by omega, hfit.room⟩
      · exact List.pairwise_cons.mpr ⟨hbelow, hfit.disjoint⟩
      · exact List.forall_mem_cons.mpr ⟨show offset + alignedBytes bytes ≤ _ by omega, hfit.within⟩
      · exact List.forall_mem_cons.mpr ⟨Nat.le_refl _, fun field hfield =>
          (Nat.le_add_right _ _).trans (hbelow field hfield)⟩

/-- Fields that fit leave no overflow. -/
theorem populateFrom_rounded (haligned : kAllocatorAlignment ∣ offset) (hlt : offset < 2 ^ 64) (i : ℕ)
    (hfit : ∀ field ∈ (populateFrom scopeId dataTypeSize i offset shapes).1,
      field.offset + field.bytesRequested ≤ (populateFrom scopeId dataTypeSize i offset shapes).2) :
    offset + roundedBytes dataTypeSize shapes =
      (populateFrom scopeId dataTypeSize i offset shapes).2 := by
  induction shapes generalizing i offset with
  | nil => rfl
  | cons numElements shapes ih =>
      have hround := @alignedBytes_eq offset (numElements * dataTypeSize % 2 ^ 64) haligned
      rw [roundedBytes, List.map_cons, List.sum_cons, ← roundedBytes]
      rw [populateFrom_cons] at hfit ⊢
      have hbytes := Nat.mod_lt (numElements * dataTypeSize) (by decide : 0 < 2 ^ 64)
      generalize numElements * dataTypeSize % 2 ^ 64 = bytes at hfit hround hbytes ⊢
      simp only [List.forall_mem_cons] at hfit ⊢
      obtain ⟨hfirst, hrest⟩ := hfit
      have hpadding := padding_spec ((offset + bytes) % 2 ^ 64)
      have hdvd : kAllocatorAlignment ∣
          ((offset + bytes) % 2 ^ 64 + padding ((offset + bytes) % 2 ^ 64)) % 2 ^ 64 := by
        simp only [kAllocatorAlignment] at *
        omega
      obtain ⟨htotalAligned, htotal⟩ := @populateFrom_total scopeId dataTypeSize _ shapes hdvd
        (Nat.mod_lt _ (by decide)) (i + 1)
      have hnext : ((offset + bytes) % 2 ^ 64 + padding ((offset + bytes) % 2 ^ 64)) % 2 ^ 64 =
          offset + alignedBytes bytes := by
        -- the end of the field is not behind the total, which is aligned
        rw [hround]
        simp only [kAllocatorAlignment] at *
        omega
      rw [← Nat.add_assoc, ← hnext]
      exact ih hdvd (Nat.mod_lt _ (by decide)) (i + 1) hrest

theorem populateFrom_scopeId (i j : ℕ) :
    ((populateFrom scopeId dataTypeSize i offset shapes).1[j]?).map Field.scopeId =
      if j < shapes.length then some (scopeId + 1 + Int32.ofNat (i + j)) else none := by
  induction shapes generalizing i j offset with
  | nil => rfl
  | cons numElements shapes ih =>
      rw [populateFrom_cons]
      cases j with
      | zero => rfl
      | succ j =>
          rw [List.getElem?_cons_succ, List.length_cons, ih (i + 1) j]
          simp only [Nat.add_lt_add_iff_right, show i + 1 + j = i + (j + 1) by omega]

theorem populateFrom_length (i : ℕ) :
    (populateFrom scopeId dataTypeSize i offset shapes).1.length = shapes.length := by
  induction shapes generalizing i offset with
  | nil => rfl
  | cons numElements shapes ih =>
      rw [populateFrom_cons, List.length_cons, List.length_cons, ih]

end Populating

/-- The ids of a setup differ. -/
structure DistinctIds (id : Int32) (fields : List Field) : Prop where
  own : ∀ field ∈ fields, field.scopeId ≠ id
  index : ∀ (i j : ℕ) (field other : Field), fields[i]? = some field → fields[j]? = some other →
    field.scopeId = other.scopeId → i = j

theorem ofNat_ne {i j : ℕ} (hi : i < 2 ^ 32) (hj : j < 2 ^ 32) (hne : i ≠ j) :
    Int32.ofNat i ≠ Int32.ofNat j := by
  intro heq
  have htoNat := congrArg (fun x : Int32 => x.toBitVec.toNat) heq
  change (BitVec.ofNat 32 i).toNat = (BitVec.ofNat 32 j).toNat at htoNat
  rw [BitVec.toNat_ofNat, BitVec.toNat_ofNat, Nat.mod_eq_of_lt hi, Nat.mod_eq_of_lt hj] at htoNat
  exact hne htoNat

section PopulateFields

variable {scopeId : Int32} {dataTypeSize total : ℕ} {shapes : List ℕ} {fields : List Field}

/-- The shapes that are counted. -/
def countedShapes (shapes : List ℕ) : List ℕ :=
  shapes.take (Int32.ofNat shapes.length).toInt.toNat

theorem populateFields_eq (hfields : populateFields scopeId shapes dataTypeSize =
    some (fields, total)) :
    0 ≤ Int32.ofNat shapes.length ∧
      populateFrom scopeId dataTypeSize 0 0 (countedShapes shapes) = (fields, total) := by
  rw [populateFields] at hfields
  split_ifs at hfields with hnegative
  exact ⟨Int32.not_lt.mp hnegative, Option.some.inj hfields⟩

theorem fieldsFit_iff (hfields : populateFields scopeId shapes dataTypeSize =
    some (fields, total)) :
    FieldsFit fields total ↔ roundedBytes dataTypeSize (countedShapes shapes) < 2 ^ 64 := by
  obtain ⟨-, hpopulate⟩ := populateFields_eq hfields
  have hzero : kAllocatorAlignment ∣ 0 := Nat.dvd_zero _
  constructor
  · intro hfit
    have hroom : ∀ field ∈ fields, field.offset + field.bytesRequested ≤ total :=
      fun field hfield => (Nat.add_le_add_left (hfit.room field hfield) _).trans
        (hfit.within field hfield)
    have hsum := @populateFrom_rounded scopeId dataTypeSize 0 (countedShapes shapes) hzero
      (by decide) 0 (by rw [hpopulate]; exact hroom)
    have htotal := (@populateFrom_total scopeId dataTypeSize 0 (countedShapes shapes) hzero
      (by decide) 0).2
    omega
  · intro hlt
    obtain ⟨htotal, hfit, -⟩ := @populateFrom_fit scopeId dataTypeSize 0 (countedShapes shapes)
      hzero (by rwa [Nat.zero_add]) 0
    rw [hpopulate] at htotal hfit
    rwa [← htotal] at hfit

theorem countedShapes_length_lt (shapes : List ℕ) : (countedShapes shapes).length < 2 ^ 31 := by
  have hlt := (Int32.ofNat shapes.length).toInt_lt
  rw [countedShapes, List.length_take]
  omega

theorem distinctIds_populateFields (hfields : populateFields scopeId shapes dataTypeSize =
    some (fields, total)) : DistinctIds scopeId fields := by
  obtain ⟨-, hpopulate⟩ := populateFields_eq hfields
  have hlength := countedShapes_length_lt shapes
  have hid : ∀ j field, fields[j]? = some field →
      j < 2 ^ 31 ∧ field.scopeId = scopeId + 1 + Int32.ofNat j := by
    intro j field hj
    have hscope := @populateFrom_scopeId scopeId dataTypeSize 0 (countedShapes shapes) 0 j
    rw [hpopulate, hj, Option.map_some, Nat.zero_add] at hscope
    split_ifs at hscope with hlt
    exact ⟨hlt.trans hlength, Option.some.inj hscope⟩
  constructor
  · intro field hfield heq
    obtain ⟨j, hj⟩ := List.mem_iff_getElem?.mp hfield
    obtain ⟨hlt, hscope⟩ := hid j field hj
    have hzero : Int32.ofNat (j + 1) = Int32.ofNat 0 := by
      rw [hscope, Int32.add_assoc] at heq
      rw [Nat.add_comm, Int32.ofNat_add]
      exact (Int32.add_right_inj scopeId).mp (heq.trans (Int32.add_zero scopeId).symm)
    exact ofNat_ne (by omega) (by decide) (Nat.succ_ne_zero j) hzero
  · intro i j field other hi hj heq
    obtain ⟨hilt, hione⟩ := hid i field hi
    obtain ⟨hjlt, hjone⟩ := hid j other hj
    by_contra hne
    refine ofNat_ne (by omega) (by omega) hne ?_
    rw [hione, hjone] at heq
    exact (Int32.add_right_inj _).mp heq

end PopulateFields

end ContainerScheduler.Analysis
