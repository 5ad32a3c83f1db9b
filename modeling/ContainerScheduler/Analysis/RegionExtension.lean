/-
# When a region extension ends

The doubling of the region size ends if some doubling, modulo the word size, fits
the request. The loop over smaller sizes takes nine tenths of the size and rounds
up to a multiple of 256; up to 2304 bytes this is the size it had. So for a small
request the loop tries the same size for ever, unless the sub-allocator has memory
for it; for a larger request the sizes decrease until the request does not fit.
-/

import ContainerScheduler.Memory.BFCAllocator
import Mathlib.Algebra.Order.Ring.Nat

namespace ContainerScheduler.Analysis

open Memory Memory.BFCAllocator

/-! ## Smaller sizes -/

theorem toNat_smallerBytes (bytes : UInt64) :
    (smallerBytes bytes).toNat = 256 * ((bytes.toNat * 9 / 10 + 255) / 256) := by
  have hbytes := bytes.toNat_lt
  have hfraction : (UInt64.ofNat (bytes.toNat * 9 / 10)).toNat = bytes.toNat * 9 / 10 :=
    UInt64.toNat_ofNat_of_lt' (show _ < 2 ^ 64 by omega)
  have hsum : bytes.toNat * 9 / 10 + 255 < 2 ^ 64 := by omega
  rw [smallerBytes, roundedBytes, UInt64.toNat_mul, UInt64.toNat_div, UInt64.toNat_add, hfraction]
  change 256 * ((bytes.toNat * 9 / 10 + 255) % 2 ^ 64 / 256) % 2 ^ 64 = _
  rw [Nat.mod_eq_of_lt hsum, Nat.mod_eq_of_lt (by omega)]

section Sizes

variable {bytes request : UInt64}

theorem dvd_smallerBytes (bytes : UInt64) : 256 ∣ (smallerBytes bytes).toNat := by
  rw [toNat_smallerBytes]
  exact Nat.dvd_mul_right _ _

/-- Small sizes stay as they are. -/
theorem smallerBytes_of_le (hmultiple : 256 ∣ bytes.toNat) (hsmall : bytes.toNat ≤ 2304) :
    smallerBytes bytes = bytes := by
  apply UInt64.toNat_inj.mp
  rw [toNat_smallerBytes]
  omega

/-- Larger ones decrease. -/
theorem smallerBytes_lt (hmultiple : 256 ∣ bytes.toNat) (hlarge : 2304 < bytes.toNat) :
    (smallerBytes bytes).toNat < bytes.toNat := by
  rw [toNat_smallerBytes]
  omega

theorem smallerBytes_le (hmultiple : 256 ∣ bytes.toNat) :
    (smallerBytes bytes).toNat ≤ bytes.toNat := by
  rw [toNat_smallerBytes]
  omega

/-- A small request fits every size that is tried. -/
theorem le_smallerBytes (hmultiple : 256 ∣ request.toNat) (hsmall : request.toNat ≤ 2304)
    (hfits : request.toNat ≤ bytes.toNat) : request.toNat ≤ (smallerBytes bytes).toNat := by
  rw [toNat_smallerBytes]
  omega

end Sizes

/-! ## The two loops -/

theorem doubleRegion_eq_some_iff {fuel : ℕ} {request size region : UInt64} :
    doubleRegion fuel request size = some region ↔
      ∃ doublings < fuel, region.toNat = size.toNat * 2 ^ doublings % 2 ^ 64 ∧
        request ≤ region ∧
        ∀ fewer < doublings, size.toNat * 2 ^ fewer % 2 ^ 64 < request.toNat := by
  induction fuel generalizing size with
  | zero => simp [doubleRegion]
  | succ fuel ih =>
      have hmod : size.toNat * 2 ^ 0 % 2 ^ 64 = size.toNat := by
        rw [Nat.pow_zero, Nat.mul_one, Nat.mod_eq_of_lt size.toNat_lt]
      have hdouble : ∀ doublings, (size * 2).toNat * 2 ^ doublings % 2 ^ 64 =
          size.toNat * 2 ^ (doublings + 1) % 2 ^ 64 := by
        intro doublings
        rw [UInt64.toNat_mul, Nat.mod_mul_mod, Nat.pow_succ' (n := doublings),
          Nat.mul_assoc]
        rfl
      rw [doubleRegion]
      split_ifs with hmore
      · rw [ih]
        simp only [hdouble]
        constructor
        · rintro ⟨doublings, hfuel, hregion, hfits, hfewer⟩
          refine ⟨doublings + 1, by omega, hregion, hfits, fun fewer hlt => ?_⟩
          cases fewer with
          | zero =>
              rw [hmod]
              exact UInt64.lt_iff_toNat_lt.mp hmore
          | succ fewer => exact hfewer fewer (by omega)
        · rintro ⟨doublings, hfuel, hregion, hfits, hfewer⟩
          cases doublings with
          | zero =>
              rw [hmod] at hregion
              rw [UInt64.toNat_inj.mp hregion] at hfits
              exact absurd hmore (UInt64.not_lt.mpr hfits)
          | succ doublings =>
              exact ⟨doublings, by omega, hregion, hfits, fun fewer hlt =>
                hfewer (fewer + 1) (by omega)⟩
      · constructor
        · intro hregion
          obtain rfl := Option.some.inj hregion
          exact ⟨0, by omega, hmod.symm, UInt64.not_lt.mp hmore, fun fewer hlt =>
            absurd hlt (by omega)⟩
        · rintro ⟨doublings, hfuel, hregion, hfits, hfewer⟩
          cases doublings with
          | zero =>
              rw [hmod] at hregion
              rw [UInt64.toNat_inj.mp hregion]
          | succ doublings =>
              have hlt := hfewer 0 (by omega)
              rw [hmod] at hlt
              exact absurd (UInt64.lt_iff_toNat_lt.mpr hlt) hmore

theorem doubleRegion_mono {fuel more : ℕ} {request size region : UInt64} (hle : fuel ≤ more)
    (hends : doubleRegion fuel request size = some region) :
    doubleRegion more request size = some region := by
  rcases doubleRegion_eq_some_iff.mp hends with ⟨doublings, hfuel, hregion⟩
  exact doubleRegion_eq_some_iff.mpr ⟨doublings, hfuel.trans_le hle, hregion⟩

section Backpedal

variable {subAllocator : SubAllocator} {alignment request : UInt64} {fuel attempt : ℕ}
  {bytes : UInt64} {outcome : Backpedalled}

theorem backpedal_mono {more : ℕ} (hle : fuel ≤ more)
    (hends : backpedal subAllocator alignment request fuel attempt bytes = some outcome) :
    backpedal subAllocator alignment request more attempt bytes = some outcome := by
  induction fuel generalizing more attempt bytes outcome with
  | zero => cases hends
  | succ fuel ih =>
      obtain ⟨more, rfl⟩ : ∃ other, more = other + 1 := ⟨more - 1, by omega⟩
      rw [backpedal] at hends ⊢
      split_ifs at hends ⊢ with hshort
      · exact hends
      · cases hanswer : subAllocator attempt alignment (smallerBytes bytes) with
        | some memAddr =>
            simp only [hanswer] at hends ⊢
            exact hends
        | none =>
            simp only [hanswer] at hends ⊢
            rcases Option.map_eq_some_iff.mp hends with ⟨rest, hrest, rfl⟩
            rw [ih (by omega) hrest, Option.map_some]

/-- The sizes that are tried are at least the requested one, and at most the first
smaller one. -/
theorem backpedal_tried
    (hends : backpedal subAllocator alignment request fuel attempt bytes = some outcome) :
    ∀ size ∈ outcome.tried, request ≤ size ∧ size.toNat ≤ (smallerBytes bytes).toNat := by
  induction fuel generalizing attempt bytes outcome with
  | zero => cases hends
  | succ fuel ih =>
      rw [backpedal] at hends
      split_ifs at hends with hshort
      · obtain rfl := Option.some.inj hends
        exact List.forall_mem_nil _
      · cases hanswer : subAllocator attempt alignment (smallerBytes bytes) with
        | some memAddr =>
            simp only [hanswer] at hends
            obtain rfl := Option.some.inj hends
            exact List.forall_mem_singleton.mpr ⟨UInt64.not_lt.mp hshort, Nat.le_refl _⟩
        | none =>
            simp only [hanswer] at hends
            rcases Option.map_eq_some_iff.mp hends with ⟨rest, hrest, rfl⟩
            refine List.forall_mem_cons.mpr ⟨⟨UInt64.not_lt.mp hshort, Nat.le_refl _⟩, ?_⟩
            intro size hsize
            rcases ih hrest size hsize with ⟨hrequest, hle⟩
            exact ⟨hrequest, hle.trans (smallerBytes_le (dvd_smallerBytes bytes))⟩

/-- The loop over smaller sizes ends, and tries smaller ones each time. -/
def Decreases (subAllocator : SubAllocator) (alignment request : UInt64) (attempt : ℕ)
    (bytes : UInt64) : Prop :=
  ∃ fuel outcome, backpedal subAllocator alignment request fuel attempt bytes = some outcome ∧
    outcome.tried.Pairwise (· > ·)

/-- One round of the loop: the request does not fit, or there is memory, or the loop
goes on from a size that is not tried again. -/
theorem decreases_iff : Decreases subAllocator alignment request attempt bytes ↔
    smallerBytes bytes < request ∨
      (subAllocator attempt alignment (smallerBytes bytes)).isSome ∨
      Decreases subAllocator alignment request (attempt + 1) (smallerBytes bytes) ∧
        (smallerBytes (smallerBytes bytes) < request ∨ 2304 < (smallerBytes bytes).toNat) := by
  constructor
  · rintro ⟨fuel, outcome, hends, hdecreasing⟩
    cases fuel with
    | zero => cases hends
    | succ fuel =>
        rw [backpedal] at hends
        split_ifs at hends with hshort
        · exact .inl hshort
        · refine .inr ?_
          cases hanswer : subAllocator attempt alignment (smallerBytes bytes) with
          | some memAddr => exact .inl rfl
          | none =>
              simp only [hanswer] at hends
              rcases Option.map_eq_some_iff.mp hends with ⟨rest, hrest, rfl⟩
              rcases List.pairwise_cons.mp hdecreasing with ⟨hless, hdecreasing'⟩
              refine .inr ⟨⟨fuel, rest, hrest, hdecreasing'⟩, ?_⟩
              by_contra hboth
              rcases not_or.mp hboth with ⟨hfits, hsmall⟩
              -- the next size tried is the same
              have hsame := smallerBytes_of_le (dvd_smallerBytes bytes) (Nat.le_of_not_lt hsmall)
              cases fuel with
              | zero => cases hrest
              | succ fuel =>
                  rw [backpedal, if_neg hfits] at hrest
                  have hmem : smallerBytes (smallerBytes bytes) ∈ rest.tried := by
                    cases hnext : subAllocator (attempt + 1) alignment
                        (smallerBytes (smallerBytes bytes)) with
                    | some memAddr =>
                        simp only [hnext] at hrest
                        obtain rfl := Option.some.inj hrest
                        exact List.mem_singleton_self _
                    | none =>
                        simp only [hnext] at hrest
                        rcases Option.map_eq_some_iff.mp hrest with ⟨_, _, rfl⟩
                        exact List.mem_cons_self
                  have hlt := hless _ hmem
                  rw [hsame] at hlt
                  exact UInt64.lt_irrefl _ hlt
  · intro hround
    by_cases hshort : smallerBytes bytes < request
    · exact ⟨1, _, by rw [backpedal, if_pos hshort], .nil⟩
    · cases hanswer : subAllocator attempt alignment (smallerBytes bytes) with
      | some memAddr =>
          refine ⟨1, ⟨some memAddr, smallerBytes bytes, [smallerBytes bytes]⟩, ?_,
            List.pairwise_singleton _ _⟩
          rw [backpedal, if_neg hshort, hanswer]
      | none =>
          rw [hanswer] at hround
          rcases hround with hlt | hsome | ⟨⟨fuel, rest, hrest, hdecreasing⟩, hnext⟩
          · exact absurd hlt hshort
          · cases hsome
          · refine ⟨fuel + 1, { rest with tried := smallerBytes bytes :: rest.tried }, ?_,
              List.pairwise_cons.mpr ⟨?_, hdecreasing⟩⟩
            · rw [backpedal, if_neg hshort, hanswer, hrest]
              rfl
            · intro size hsize
              rcases backpedal_tried hrest size hsize with ⟨hrequest, hle⟩
              apply UInt64.lt_iff_toNat_lt.mpr
              rcases hnext with hshorter | hlarge
              · have hrequest' := UInt64.le_iff_toNat_le.mp hrequest
                have hshorter' := UInt64.lt_iff_toNat_lt.mp hshorter
                omega
              · exact hle.trans_lt (smallerBytes_lt (dvd_smallerBytes bytes) hlarge)

/-- The size after some rounds of the loop over smaller sizes. -/
def backpedalSize (bytes : UInt64) (rounds : ℕ) : UInt64 :=
  smallerBytes^[rounds] bytes

/-- A large request ends the loop. -/
theorem decreases_of_large (hlarge : 2304 < request.toNat) :
    Decreases subAllocator alignment request attempt bytes := by
  -- the size decreases as long as the request fits
  induction hsize : (smallerBytes bytes).toNat using Nat.strong_induction_on
    generalizing attempt bytes with
  | _ size ih =>
      rw [decreases_iff]
      by_cases hshort : smallerBytes bytes < request
      · exact .inl hshort
      · have hfits := UInt64.le_iff_toNat_le.mp (UInt64.not_lt.mp hshort)
        have hlarge' : 2304 < (smallerBytes bytes).toNat := by omega
        have hless := smallerBytes_lt (dvd_smallerBytes bytes) hlarge'
        exact .inr (.inr ⟨ih _ (hsize ▸ hless) rfl, .inr hlarge'⟩)

theorem decreases_of_memory {rounds : ℕ}
    (hmemory : (subAllocator (attempt +
    rounds) alignment (backpedalSize bytes (rounds + 1))).isSome)
    (hlarge : ∀ earlier < rounds, 2304 < (backpedalSize bytes (earlier + 1)).toNat) :
    Decreases subAllocator alignment request attempt bytes := by
  induction rounds generalizing attempt bytes with
  | zero => exact decreases_iff.mpr (.inr (.inl hmemory))
  | succ rounds ih =>
      rw [decreases_iff]
      refine .inr (.inr ⟨ih ?_ fun earlier hlt => hlarge (earlier + 1) (by omega), .inr ?_⟩)
      · rw [Nat.add_right_comm, Nat.add_assoc]
        exact hmemory
      · exact hlarge 0 (by omega)

/-- A small request ends it only if there is memory for a size that is not tried a
second time. -/
theorem exists_memory_of_decreases (hmultiple : 256 ∣ request.toNat)
    (hsmall : request.toNat ≤ 2304) (hfits : request.toNat ≤ bytes.toNat)
    (hdecreases : Decreases subAllocator alignment request attempt bytes) :
    ∃ rounds,
      (subAllocator (attempt + rounds) alignment (backpedalSize bytes (rounds + 1))).isSome ∧
        ∀ earlier < rounds, 2304 < (backpedalSize bytes (earlier + 1)).toNat := by
  induction hsize : (smallerBytes bytes).toNat using Nat.strong_induction_on
    generalizing attempt bytes with
  | _ size ih =>
      have hfits' := le_smallerBytes hmultiple hsmall hfits
      have hfits'' := le_smallerBytes hmultiple hsmall hfits'
      rcases decreases_iff.mp hdecreases with hshort | hmemory | ⟨hnext, hshort | hlarge⟩
      · exact absurd (UInt64.lt_iff_toNat_lt.mp hshort) (by omega)
      · exact ⟨0, hmemory, fun earlier hlt => absurd hlt (Nat.not_lt_zero _)⟩
      · exact absurd (UInt64.lt_iff_toNat_lt.mp hshort) (by omega)
      · have hless := smallerBytes_lt (dvd_smallerBytes bytes) hlarge
        rcases ih _ (hsize ▸ hless) hfits' hnext rfl with ⟨rounds, hmemory, hearlier⟩
        refine ⟨rounds + 1, ?_, fun earlier hlt => ?_⟩
        · rw [Nat.add_right_comm, Nat.add_assoc] at hmemory
          exact hmemory
        · cases earlier with
          | zero => exact hlarge
          | succ earlier => exact hearlier earlier (by omega)

end Backpedal

/-! ## The call -/

section Extend

variable {subAllocator : SubAllocator} {alignment request : UInt64} {allocator : BFCAllocator}

/-- Both loops end, and the sizes tried by the second one decrease and fit the request. -/
def ExtendEnds (subAllocator : SubAllocator) (alignment request : UInt64)
    (allocator : BFCAllocator) : Prop :=
  ∃ fuel extension, allocator.extend fuel subAllocator alignment request = some extension ∧
    extension.tried.Pairwise (· > ·) ∧ ∀ size ∈ extension.tried, request ≤ size

/-- The size of the next region after some doublings. -/
def doubledRegion (allocator : BFCAllocator) (doublings : ℕ) : UInt64 :=
  UInt64.ofNat (allocator.currRegionAllocationBytes.toNat * 2 ^ doublings)

/-- There is memory of some size, and every smaller size tried before it exceeds 2304
bytes. -/
def HasMemory (subAllocator : SubAllocator) (alignment bytes : UInt64) : Prop :=
  (subAllocator 0 alignment bytes).isSome ∨
    ∃ rounds, (subAllocator (rounds + 1) alignment (backpedalSize bytes (rounds + 1))).isSome ∧
      ∀ earlier < rounds, 2304 < (backpedalSize bytes (earlier + 1)).toNat

/-- The request exceeds what is available; or some doubling of the region size fits it
and, at the first one that does, smaller sizes have been tried before, or the request
exceeds 2304 bytes, or the sub-allocator has memory. -/
def EndsWhen (subAllocator : SubAllocator) (alignment request : UInt64)
    (allocator : BFCAllocator) : Prop :=
  allocator.availableBytes < request ∨
    ∃ doublings, request ≤ doubledRegion allocator doublings ∧
      (∀ fewer < doublings, doubledRegion allocator fewer < request) ∧
      (allocator.startedBackpedal = true ∨ 2304 < request.toNat ∨
        HasMemory subAllocator alignment
          (min (doubledRegion allocator doublings) allocator.availableBytes))

theorem doubleRegion_eq_doubledRegion {fuel : ℕ} {region : UInt64} :
    doubleRegion fuel request allocator.currRegionAllocationBytes = some region ↔
      ∃ doublings < fuel, region = doubledRegion allocator doublings ∧
        request ≤ doubledRegion allocator doublings ∧
        ∀ fewer < doublings, doubledRegion allocator fewer < request := by
  rw [doubleRegion_eq_some_iff]
  constructor
  · rintro ⟨doublings, hfuel, hregion, hfits, hfewer⟩
    have hequal : region = doubledRegion allocator doublings := by
      apply UInt64.toNat_inj.mp
      rw [hregion, doubledRegion, UInt64.toNat_ofNat']
    exact ⟨doublings, hfuel, hequal, hequal ▸ hfits, fun fewer hlt =>
      UInt64.lt_iff_toNat_lt.mpr (UInt64.toNat_ofNat'.trans_lt (hfewer fewer hlt))⟩
  · rintro ⟨doublings, hfuel, rfl, hfits, hfewer⟩
    exact ⟨doublings, hfuel, UInt64.toNat_ofNat', hfits, fun fewer hlt =>
      UInt64.toNat_ofNat'.symm.trans_lt (UInt64.lt_iff_toNat_lt.mp (hfewer fewer hlt))⟩

/-- What the call does once the size of the region is known. -/
theorem extend_of_doubleRegion {fuel : ℕ} {region : UInt64}
    (hroom : ¬ allocator.availableBytes < request)
    (hregion : doubleRegion fuel request allocator.currRegionAllocationBytes = some region) :
    (∃ extension, allocator.extend fuel subAllocator alignment request = some extension ∧
        extension.tried.Pairwise (· > ·) ∧ ∀ size ∈ extension.tried, request ≤ size) ↔
      allocator.startedBackpedal = true ∨
        (subAllocator 0 alignment (min region allocator.availableBytes)).isSome ∨
        ∃ outcome, backpedal subAllocator alignment request fuel 1
          (min region allocator.availableBytes) = some outcome ∧
            outcome.tried.Pairwise (· > ·) := by
  simp only [extend, if_neg hroom, hregion, Option.bind_eq_bind, Option.bind_some]
  by_cases hfirst : subAllocator 0 alignment (min region allocator.availableBytes) = none ∧
      !allocator.startedBackpedal
  · rw [if_pos hfirst]
    have hnever : ¬ allocator.startedBackpedal = true := by simpa using hfirst.2
    rw [hfirst.1]
    cases hends : backpedal subAllocator alignment request fuel 1
        (min region allocator.availableBytes) with
    | none => simp [hnever]
    | some outcome =>
        have htried := backpedal_tried hends
        constructor
        · rintro ⟨extension, hextension, hdecreasing, -⟩
          refine .inr (.inr ⟨outcome, rfl, ?_⟩)
          cases hmemory : outcome.memAddr with
          | none =>
              simp [hmemory] at hextension
              subst hextension
              exact hdecreasing
          | some memAddr =>
              simp [hmemory] at hextension
              subst hextension
              exact hdecreasing
        · rintro (hstarted | hsome | ⟨other, hother, hdecreasing⟩)
          · exact absurd hstarted hnever
          · cases hsome
          · obtain rfl := Option.some.inj hother
            have hfits : ∀ size ∈ outcome.tried, request ≤ size := fun size hsize =>
              (htried size hsize).1
            cases hmemory : outcome.memAddr with
            | none => exact ⟨_, by simp [hmemory]; rfl, hdecreasing, hfits⟩
            | some memAddr => exact ⟨_, by simp [hmemory]; rfl, hdecreasing, hfits⟩
  · rw [if_neg hfirst]
    constructor
    · intro _
      cases hstarted : allocator.startedBackpedal with
      | true => exact .inl rfl
      | false =>
          refine .inr (.inl ?_)
          rw [Option.isSome_iff_ne_none]
          exact fun hnone => hfirst ⟨hnone, by rw [hstarted]; rfl⟩
    · intro _
      cases hmemory : subAllocator 0 alignment (min region allocator.availableBytes) with
      | none => exact ⟨_, by simp; rfl, .nil, List.forall_mem_nil _⟩
      | some memAddr => exact ⟨_, by simp; rfl, .nil, List.forall_mem_nil _⟩

theorem extendEnds_iff (hmultiple : 256 ∣ request.toNat) :
    ExtendEnds subAllocator alignment request allocator ↔
      EndsWhen subAllocator alignment request allocator := by
  by_cases hroom : allocator.availableBytes < request
  · refine ⟨fun _ => .inl hroom, fun _ => ⟨0, _, by rw [extend, if_pos hroom], .nil, ?_⟩⟩
    exact List.forall_mem_nil _
  · constructor
    · rintro ⟨fuel, extension, hextension, hsizes⟩
      refine .inr ?_
      cases hregion : doubleRegion fuel request allocator.currRegionAllocationBytes with
      | none => simp [extend, if_neg hroom, hregion] at hextension
      | some region =>
          have hends := (extend_of_doubleRegion hroom hregion).mp ⟨extension, hextension, hsizes⟩
          rcases doubleRegion_eq_doubledRegion.mp hregion with
            ⟨doublings, -, rfl, hfits, hfewer⟩
          refine ⟨doublings, hfits, hfewer, ?_⟩
          rcases hends with hstarted | hfirst | ⟨outcome, houtcome, hdecreasing⟩
          · exact .inl hstarted
          · exact .inr (.inr (.inl hfirst))
          · refine .inr ?_
            by_cases hlarge : 2304 < request.toNat
            · exact .inl hlarge
            · have hbytes : request ≤ min (doubledRegion allocator doublings)
                  allocator.availableBytes := by
                change request ≤ if _ ≤ _ then _ else _
                split_ifs
                · exact hfits
                · exact UInt64.not_lt.mp hroom
              rcases exists_memory_of_decreases hmultiple (Nat.le_of_not_lt hlarge)
                (UInt64.le_iff_toNat_le.mp hbytes) ⟨fuel, outcome, houtcome, hdecreasing⟩ with
                ⟨rounds, hmemory, hearlier⟩
              rw [Nat.add_comm 1 rounds] at hmemory
              exact .inr (.inr ⟨rounds, hmemory, hearlier⟩)
    · rintro (hshort | ⟨doublings, hfits, hfewer, hends⟩)
      · exact absurd hshort hroom
      · have hregion : doubleRegion (doublings + 1) request allocator.currRegionAllocationBytes =
            some (doubledRegion allocator doublings) :=
          doubleRegion_eq_doubledRegion.mpr
            ⟨doublings, Nat.lt_succ_self _, rfl, hfits, hfewer⟩
        have hdecreases : allocator.startedBackpedal = true ∨
            (subAllocator 0 alignment
              (min (doubledRegion allocator doublings) allocator.availableBytes)).isSome ∨
            Decreases subAllocator alignment request 1
              (min (doubledRegion allocator doublings) allocator.availableBytes) := by
          rcases hends with hstarted | hlarge | hfirst | ⟨rounds, hmemory, hearlier⟩
          · exact .inl hstarted
          · exact .inr (.inr (decreases_of_large hlarge))
          · exact .inr (.inl hfirst)
          · refine .inr (.inr (decreases_of_memory ?_ hearlier))
            rw [Nat.add_comm 1 rounds]
            exact hmemory
        rcases hdecreases with hstarted | hfirst | ⟨fuel, outcome, houtcome, hdecreasing⟩
        · exact ⟨_, (extend_of_doubleRegion hroom hregion).mpr (.inl hstarted)⟩
        · exact ⟨_, (extend_of_doubleRegion hroom hregion).mpr (.inr (.inl hfirst))⟩
        · refine ⟨max (doublings + 1) fuel, (extend_of_doubleRegion hroom
            (doubleRegion_mono (Nat.le_max_left _ _) hregion)).mpr (.inr (.inr ⟨outcome, ?_⟩))⟩
          exact ⟨backpedal_mono (Nat.le_max_right _ _) houtcome, hdecreasing⟩

end Extend

/-- **When a region extension ends.** Both loops end, and the sizes tried by the second
one decrease and are at least the requested one, exactly under the condition on the
allocator, the request and the sub-allocator. -/
theorem extend_ends_iff (subAllocator : SubAllocator) (alignment request : UInt64)
    (allocator : BFCAllocator) (hmultiple : 256 ∣ request.toNat) :
    ExtendEnds subAllocator alignment request allocator ↔
      EndsWhen subAllocator alignment request allocator :=
  extendEnds_iff hmultiple

/-- A new allocator of 1 MiB asked for 256 bytes. -/
theorem extend_ends_iff_new :
    256 ∣ (256 : UInt64).toNat ∧
      (ExtendEnds (fun _ _ _ => none) 64 256 (BFCAllocator.new 1048576 true) ↔
        EndsWhen (fun _ _ _ => none) 64 256 (BFCAllocator.new 1048576 true)) :=
  ⟨by decide, extend_ends_iff _ _ _ _ (by decide)⟩

/-- With a sub-allocator that never has memory, the first extension for 256 bytes tries
2304 bytes for ever. -/
theorem extend_never_ends :
    ¬ ExtendEnds (fun _ _ _ => none) 64 256 (BFCAllocator.new 1048576 true) := by
  rw [extendEnds_iff (by decide)]
  rintro (hshort | ⟨doublings, -, -, hstarted | hlarge | hfirst | ⟨rounds, hmemory, -⟩⟩)
  · exact absurd hshort (by decide)
  · cases hstarted
  · exact absurd hlarge (by decide)
  · cases hfirst
  · cases hmemory

end ContainerScheduler.Analysis
