/-
# The slices of a checkpoint are found

A slice has the elements of a box. Overlap tests decide whether two boxes meet, the hull contains
every registered slice, and since registered slices are disjoint, a slice is covered if and only if
what it shares with them adds up to its size.
-/

import ContainerScheduler.Checkpoint.TensorSliceSet
import ContainerScheduler.Math.Boxes
import Mathlib.Tactic.Linarith

namespace ContainerScheduler.Analysis

open Math
open Checkpoint

/-! ## The elements of a slice -/

/-- The extents that callers give: whole dimensions, and 64-bit numbers that say where they start
and that they are not empty. -/
def ExtentOk (extent : Extent) : Prop :=
  extent.isFull ∨ (0 ≤ extent.start ∧ extent.start < 2 ^ 63) ∧ 1 ≤ extent.length ∧
    extent.length < 2 ^ 63

instance (extent : Extent) : Decidable (ExtentOk extent) :=
  inferInstanceAs (Decidable (_ ∨ _))

/-- A shape of a tensor that is not empty. -/
structure ShapeOk (shape : List ℤ) : Prop where
  rank_le : shape.length ≤ 254
  one_le : ∀ size ∈ shape, 1 ≤ size
  prod_lt : shape.prod < 2 ^ 63

/-- An extent is inside of its dimension. -/
def FitsAt (size : ℤ) (extent : Extent) : Prop :=
  extent.isFull ∨ 0 ≤ extent.start ∧ 1 ≤ extent.length ∧ extent.start + extent.length ≤ size

/-- A slice has the rank of the shape and lies within it. -/
def Within (shape : List ℤ) (slice : TensorSlice) : Prop := List.Forall₂ FitsAt shape slice

def rangeAt (size : ℤ) (extent : Extent) : ℤ × ℤ :=
  if extent.isFull then (0, size) else (extent.start, extent.start + extent.length)

/-- The elements of a slice that lies within the shape. -/
noncomputable def elements (shape : List ℤ) (slice : TensorSlice) : Finset (List ℤ) :=
  Box.cells (List.zipWith rangeAt shape slice)

/-- The sizes of a slice that lies within the shape. -/
def sizesOf (shape : List ℤ) (slice : TensorSlice) : List ℤ :=
  List.zipWith (fun size extent => if extent.isFull then size else extent.length) shape slice

variable {shape : List ℤ} {slice other : TensorSlice}

theorem one_le_prod {sizes : List ℤ} (hone : ∀ size ∈ sizes, 1 ≤ size) : 1 ≤ sizes.prod := by
  induction sizes with
  | nil => exact le_rfl
  | cons size sizes ih =>
      rw [List.prod_cons]
      exact one_le_mul_of_one_le_of_one_le (hone size List.mem_cons_self)
        (ih fun size hsize => hone size (List.mem_cons_of_mem _ hsize))

theorem rangeAt_lt {size : ℤ} {extent : Extent} (hsize : 1 ≤ size) (hfits : FitsAt size extent) :
    (rangeAt size extent).1 < (rangeAt size extent).2 := by
  unfold rangeAt
  split_ifs with hfull
  · exact hsize
  · rcases hfits with hfull' | hfits
    · exact absurd hfull' hfull
    · exact lt_of_lt_of_le (Int.lt_succ _) (Int.add_le_add_left hfits.2.1 _)

theorem elements_nonempty (hshape : ∀ size ∈ shape, 1 ≤ size) (hwithin : Within shape slice) :
    (elements shape slice).Nonempty := by
  apply Box.cells_nonempty
  intro range hrange
  induction hwithin with
  | nil => cases hrange
  | cons hfits _ ih =>
      rcases List.mem_cons.mp hrange with rfl | hrange
      · exact rangeAt_lt (hshape _ List.mem_cons_self) hfits
      · exact ih (fun size hsize => hshape size (List.mem_cons_of_mem _ hsize)) hrange

theorem card_elements (hwithin : Within shape slice) (hshape : ∀ size ∈ shape, 1 ≤ size) :
    ((elements shape slice).card : ℤ) = (sizesOf shape slice).prod := by
  rw [elements, Box.card_cells]
  induction hwithin with
  | nil => rfl
  | @cons size extent sizes extents hfits _ ih =>
      rw [List.zipWith_cons_cons, List.map_cons, List.prod_cons, sizesOf, List.zipWith_cons_cons,
        List.prod_cons, Nat.cast_mul, ih fun size hsize =>
          hshape size (List.mem_cons_of_mem _ hsize)]
      congr 1
      rw [Int.toNat_of_nonneg (Int.sub_nonneg_of_le
        (rangeAt_lt (hshape _ List.mem_cons_self) hfits).le), rangeAt]
      split_ifs <;> simp

/-! ## One dimension -/

theorem int64_eq {value : ℤ} (hlower : -2 ^ 63 ≤ value) (hupper : value < 2 ^ 63) :
    int64 value = value := by
  rw [int64, Int.bmod_eq_of_le (by omega) (by omega)]

variable {size : ℤ} {extent extent' : Extent}

theorem finish_eq (hsize : size < 2 ^ 63) (hfits : FitsAt size extent) (hfull : ¬extent.isFull) :
    extent.finish = extent.start + extent.length := by
  rcases hfits with hfull' | hfits
  · exact absurd hfull' hfull
  · exact int64_eq (by omega) (by omega)

theorem rangeAt_of_full (hfull : extent.isFull) : rangeAt size extent = (0, size) := if_pos hfull

theorem rangeAt_of_not_full (hfull : ¬extent.isFull) :
    rangeAt size extent = (extent.start, extent.start + extent.length) := if_neg hfull

/-- No extent leaves its dimension. -/
theorem range_le (hfits : FitsAt size extent) :
    0 ≤ (rangeAt size extent).1 ∧ (rangeAt size extent).2 ≤ size := by
  unfold rangeAt
  split_ifs with hfull
  · exact ⟨le_rfl, le_rfl⟩
  · rcases hfits with hfull' | hfits
    · exact absurd hfull' hfull
    · exact ⟨hfits.1, hfits.2.2⟩

section

variable (hsize : size < 2 ^ 63) (hfits : FitsAt size extent) (hfits' : FitsAt size extent')

include hsize hfits hfits'

/-- Explicit extents intersect in what lies between the later start and the earlier end. -/
theorem intersectAt_explicit (hfull : ¬extent.isFull) (hfull' : ¬extent'.isFull) :
    extent.intersect extent' =
      let range := Box.interRange (rangeAt size extent) (rangeAt size extent')
      if 0 < range.2 - range.1 then some ⟨range.1, range.2 - range.1⟩ else none := by
  have hrange := range_le hfits
  have hrange' := range_le hfits'
  rw [Extent.intersect, if_neg hfull, if_neg hfull', finish_eq hsize hfits hfull,
    finish_eq hsize hfits' hfull', rangeAt_of_not_full hfull, rangeAt_of_not_full hfull']
  rw [rangeAt_of_not_full hfull] at hrange
  rw [rangeAt_of_not_full hfull'] at hrange'
  have hexact : int64 (min (extent.start + extent.length) (extent'.start + extent'.length) -
      max extent.start extent'.start) =
      min (extent.start + extent.length) (extent'.start + extent'.length) -
        max extent.start extent'.start := by
    rcases hfits with hfull'' | hfits
    · exact absurd hfull'' hfull
    rcases hfits' with hfull'' | hfits'
    · exact absurd hfull'' hfull'
    apply int64_eq <;> omega
  simp only
  rw [hexact]
  rfl

/-- A common extent has the common range. -/
theorem intersectAt_some {common : Extent} (hcommon : extent.intersect extent' = some common) :
    FitsAt size common ∧
      rangeAt size common = Box.interRange (rangeAt size extent) (rangeAt size extent') := by
  have hrange := range_le hfits
  have hrange' := range_le hfits'
  by_cases hfull : extent.isFull
  · rw [Extent.intersect, if_pos hfull] at hcommon
    obtain rfl := Option.some.inj hcommon
    refine ⟨hfits', ?_⟩
    rw [rangeAt_of_full hfull, Box.interRange, max_eq_right hrange'.1, min_eq_right hrange'.2]
  by_cases hfull' : extent'.isFull
  · rw [Extent.intersect, if_neg hfull, if_pos hfull'] at hcommon
    obtain rfl := Option.some.inj hcommon
    refine ⟨hfits, ?_⟩
    rw [rangeAt_of_full hfull', Box.interRange, max_eq_left hrange.1, min_eq_left hrange.2]
  rw [intersectAt_explicit hsize hfits hfits' hfull hfull'] at hcommon
  simp only [Option.ite_none_right_eq_some] at hcommon
  rcases hcommon with ⟨hpos, hcommon⟩
  have hlt := Int.lt_of_sub_pos hpos
  obtain rfl := Option.some.inj hcommon
  have hlower : 0 ≤ (Box.interRange (rangeAt size extent) (rangeAt size extent')).1 :=
    hrange.1.trans (le_max_left _ _)
  have hupper : (Box.interRange (rangeAt size extent) (rangeAt size extent')).2 ≤ size :=
    (min_le_left _ _).trans hrange.2
  constructor
  · right
    simp only
    omega
  · rw [rangeAt_of_not_full]
    · simp only [add_sub_cancel]
    · rintro ⟨hlength, -⟩
      simp only [kFullExtent] at hlength
      omega

/-- Extents without a common one have no common element. -/
theorem intersectAt_none (hnone : extent.intersect extent' = none) :
    ¬(Box.interRange (rangeAt size extent) (rangeAt size extent')).1 <
      (Box.interRange (rangeAt size extent) (rangeAt size extent')).2 := by
  by_cases hfull : extent.isFull
  · rw [Extent.intersect, if_pos hfull] at hnone
    cases hnone
  by_cases hfull' : extent'.isFull
  · rw [Extent.intersect, if_neg hfull, if_pos hfull'] at hnone
    cases hnone
  rw [intersectAt_explicit hsize hfits hfits' hfull hfull'] at hnone
  intro hlt
  simp only [if_pos (Int.sub_pos_of_lt hlt)] at hnone
  cases hnone

/-- The hull of two extents is an extent that contains both. -/
theorem updateToCoverAt :
    FitsAt size (extent.updateToCover extent') ∧
      ((rangeAt size (extent.updateToCover extent')).1 ≤ (rangeAt size extent).1 ∧
        (rangeAt size extent).2 ≤ (rangeAt size (extent.updateToCover extent')).2) ∧
      (rangeAt size (extent.updateToCover extent')).1 ≤ (rangeAt size extent').1 ∧
        (rangeAt size extent').2 ≤ (rangeAt size (extent.updateToCover extent')).2 := by
  have hrange := range_le hfits
  have hrange' := range_le hfits'
  by_cases hfull : extent.isFull
  · rw [Extent.updateToCover, if_pos hfull]
    refine ⟨hfits, ⟨le_rfl, le_rfl⟩, ?_⟩
    rw [rangeAt_of_full hfull]
    exact hrange'
  by_cases hfull' : extent'.isFull
  · rw [Extent.updateToCover, if_neg hfull, if_pos hfull']
    have hwhole : (⟨0, kFullExtent⟩ : Extent).isFull := ⟨rfl, rfl⟩
    refine ⟨.inl hwhole, ?_⟩
    rw [rangeAt_of_full hwhole]
    exact ⟨hrange, hrange'⟩
  rw [Extent.updateToCover, if_neg hfull, if_neg hfull', finish_eq hsize hfits hfull,
    finish_eq hsize hfits' hfull']
  rcases hfits with hfull'' | hfits
  · exact absurd hfull'' hfull
  rcases hfits' with hfull'' | hfits'
  · exact absurd hfull'' hfull'
  have hexact : int64 (max (extent.start + extent.length) (extent'.start + extent'.length) -
      min extent.start extent'.start) =
      max (extent.start + extent.length) (extent'.start + extent'.length) -
        min extent.start extent'.start := by
    apply int64_eq <;> omega
  simp only [hexact]
  rw [rangeAt_of_not_full hfull, rangeAt_of_not_full hfull', rangeAt_of_not_full]
  · refine ⟨.inr ?_, ?_, ?_⟩ <;> simp only <;> omega
  · rintro ⟨hlength, -⟩
    simp only [kFullExtent] at hlength
    omega

end

/-! ## Slices -/

/-- No dimension of a shape leaves 64 bits. -/
theorem size_lt (hshape : ShapeOk shape) : ∀ size ∈ shape, size < 2 ^ 63 := by
  intro size hsize
  refine lt_of_le_of_lt ?_ hshape.prod_lt
  have hone := hshape.one_le
  clear hshape
  induction shape with
  | nil => cases hsize
  | cons first rest ih =>
      rw [List.prod_cons]
      have hfirst := hone first List.mem_cons_self
      have hrest : ∀ size ∈ rest, 1 ≤ size := fun size hsize =>
        hone size (List.mem_cons_of_mem _ hsize)
      have hprod : 1 ≤ rest.prod := one_le_prod hrest
      rcases List.mem_cons.mp hsize with rfl | hsize
      · exact le_mul_of_one_le_right (by omega) hprod
      · exact (ih hsize hrest).trans (le_mul_of_one_le_left (by omega) hfirst)

theorem elements_length (hwithin : Within shape slice) :
    (List.zipWith rangeAt shape slice).length = shape.length := by
  rw [List.length_zipWith, hwithin.length_eq, min_self]

theorem intersect_some (hsizes : ∀ size ∈ shape, size < 2 ^ 63) (hwithin : Within shape slice)
    (hother : Within shape other) {common : TensorSlice}
    (hcommon : TensorSlice.intersect slice other = some common) :
    Within shape common ∧ elements shape common = elements shape slice ∩ elements shape other := by
  rw [elements, elements, elements, ← Box.cells_inter
    ((elements_length hwithin).trans (elements_length hother).symm)]
  suffices h : Within shape common ∧ List.zipWith rangeAt shape common =
      List.zipWith Box.interRange (List.zipWith rangeAt shape slice)
        (List.zipWith rangeAt shape other) from ⟨h.1, congrArg Box.cells h.2⟩
  induction hwithin generalizing other common with
  | nil =>
      cases hother
      obtain rfl := Option.some.inj hcommon
      exact ⟨.nil, rfl⟩
  | @cons size extent sizes extents hfits _ ih =>
      rcases hother with _ | ⟨hfits', hother⟩
      rw [TensorSlice.intersect, Option.bind_eq_some_iff] at hcommon
      rcases hcommon with ⟨first, hfirst, hcommon⟩
      rcases Option.map_eq_some_iff.mp hcommon with ⟨rest, hrest, rfl⟩
      have hone := intersectAt_some (hsizes size List.mem_cons_self) hfits hfits' hfirst
      have hmore := ih (fun size hsize => hsizes size (List.mem_cons_of_mem _ hsize)) hother hrest
      refine ⟨.cons hone.1 hmore.1, ?_⟩
      rw [List.zipWith_cons_cons, List.zipWith_cons_cons, List.zipWith_cons_cons,
        List.zipWith_cons_cons, hone.2, hmore.2]

theorem intersect_none (hsizes : ∀ size ∈ shape, size < 2 ^ 63) (hwithin : Within shape slice)
    (hother : Within shape other) (hnone : TensorSlice.intersect slice other = none) :
    Disjoint (elements shape slice) (elements shape other) := by
  rw [Finset.disjoint_iff_inter_eq_empty, elements, elements, ← Box.cells_inter
    ((elements_length hwithin).trans (elements_length hother).symm),
    Finset.eq_empty_iff_forall_notMem]
  intro cell hcell
  induction hwithin generalizing other cell with
  | nil =>
      cases hother
      cases hnone
  | @cons size extent sizes extents hfits _ ih =>
      rcases hother with _ | ⟨hfits', hother⟩
      rw [TensorSlice.intersect, Option.bind_eq_none_iff] at hnone
      rw [List.zipWith_cons_cons, List.zipWith_cons_cons, List.zipWith_cons_cons] at hcell
      cases cell with
      | nil => exact Box.nil_not_mem_cells hcell
      | cons x xs =>
          rw [Box.mem_cells_cons] at hcell
          cases hfirst : extent.intersect _ with
          | none =>
              apply intersectAt_none (hsizes size List.mem_cons_self) hfits hfits' hfirst
              exact lt_of_le_of_lt hcell.1.1 hcell.1.2
          | some first =>
              apply ih (fun size hsize => hsizes size (List.mem_cons_of_mem _ hsize)) hother _ xs
                hcell.2
              exact Option.map_eq_none_iff.mp (hnone first hfirst)

/-- **Overlap tests are right.** -/
theorem overlaps_iff (hshape : ShapeOk shape) (hwithin : Within shape slice)
    (hother : Within shape other) :
    TensorSlice.overlaps slice other = true ↔
      (elements shape slice ∩ elements shape other).Nonempty := by
  rw [TensorSlice.overlaps]
  cases hcommon : TensorSlice.intersect slice other with
  | none =>
      have hdisjoint := intersect_none (size_lt hshape) hwithin hother hcommon
      rw [Finset.disjoint_iff_inter_eq_empty.mp hdisjoint]
      simp
  | some common =>
      have hsome := intersect_some (size_lt hshape) hwithin hother hcommon
      rw [← hsome.2]
      exact ⟨fun _ => elements_nonempty hshape.one_le hsome.1, fun _ => rfl⟩

/-- **The hull contains both slices.** -/
theorem updateToCover_spec (hsizes : ∀ size ∈ shape, size < 2 ^ 63) (hwithin : Within shape slice)
    (hother : Within shape other) :
    Within shape (TensorSlice.updateToCover slice other) ∧
      elements shape slice ⊆ elements shape (TensorSlice.updateToCover slice other) ∧
      elements shape other ⊆ elements shape (TensorSlice.updateToCover slice other) := by
  suffices h : Within shape (TensorSlice.updateToCover slice other) ∧
      List.Forall₂ (fun range range' => range'.1 ≤ range.1 ∧ range.2 ≤ range'.2)
        (List.zipWith rangeAt shape slice)
        (List.zipWith rangeAt shape (TensorSlice.updateToCover slice other)) ∧
      List.Forall₂ (fun range range' => range'.1 ≤ range.1 ∧ range.2 ≤ range'.2)
        (List.zipWith rangeAt shape other)
        (List.zipWith rangeAt shape (TensorSlice.updateToCover slice other)) from
    ⟨h.1, Box.cells_subset h.2.1, Box.cells_subset h.2.2⟩
  induction hwithin generalizing other with
  | nil =>
      cases hother
      exact ⟨.nil, .nil, .nil⟩
  | @cons size extent sizes extents hfits _ ih =>
      rcases hother with _ | ⟨hfits', hother⟩
      have hone := updateToCoverAt (hsizes size List.mem_cons_self) hfits hfits'
      have hmore := ih (fun size hsize => hsizes size (List.mem_cons_of_mem _ hsize)) hother
      exact ⟨.cons hone.1 hmore.1, .cons hone.2.1 hmore.2.1, .cons hone.2.2 hmore.2.2⟩

/-! ## Slicing a shape -/

/-- The first dimension that a slice leaves is one whose start and length do not fit together in
64 bits. -/
def SumWraps : List ℤ → TensorSlice → Prop
  | size :: sizes, extent :: extents =>
      if extent.isFull ∨ extent.start + extent.length ≤ size then SumWraps sizes extents
      else 2 ^ 63 ≤ extent.start + extent.length
  | _, _ => False

instance decidableSumWraps : ∀ shape slice, Decidable (SumWraps shape slice)
  | size :: sizes, extent :: extents =>
      have := decidableSumWraps sizes extents
      inferInstanceAs (Decidable (if extent.isFull ∨ extent.start + extent.length ≤ size then
        SumWraps sizes extents else 2 ^ 63 ≤ extent.start + extent.length))
  | [], _ => inferInstanceAs (Decidable False)
  | _ :: _, [] => inferInstanceAs (Decidable False)

/-- What `AddDim` needs of the dimensions so far and the ones to come. -/
structure Room (result sizes : List ℤ) : Prop where
  rank_le : result.length + sizes.length ≤ 254
  pos : 1 ≤ result.prod
  prod_lt : result.prod * sizes.prod < 2 ^ 63

theorem Room.addDim {result sizes : List ℤ} {size length : ℤ} (room : Room result (size :: sizes))
    (hone : ∀ size ∈ sizes, 1 ≤ size) (hpos : 1 ≤ length) (hle : length ≤ size) :
    addDim result length = .ok (result ++ [length]) ∧ Room (result ++ [length]) sizes := by
  have hrank := room.rank_le
  have hprod := room.prod_lt
  have hres := room.pos
  rw [List.length_cons] at hrank
  rw [List.prod_cons] at hprod
  have hmul : result.prod * length ≤ result.prod * size :=
    mul_le_mul_of_nonneg_left hle (by omega)
  have hrest := one_le_prod hone
  have hfirst : 1 ≤ result.prod * length := one_le_mul_of_one_le_of_one_le hres hpos
  have hall : result.prod * length * sizes.prod < 2 ^ 63 := by
    refine lt_of_le_of_lt ?_ hprod
    rw [← mul_assoc]
    exact mul_le_mul_of_nonneg_right hmul (by omega)
  constructor
  · refine if_pos ⟨by omega, by omega, ?_⟩
    exact lt_of_le_of_lt (le_mul_of_one_le_right (by omega) hrest) hall
  · refine ⟨?_, ?_, ?_⟩
    · rw [List.length_append, List.length_singleton]
      omega
    · rw [List.prod_append, List.prod_singleton]
      exact hfirst
    · rw [List.prod_append, List.prod_singleton]
      exact hall

theorem sliceLoop_within {sizes result : List ℤ} {extents : TensorSlice} {d : ℕ}
    (hwithin : Within sizes extents) (hsizes : ∀ size ∈ sizes, 1 ≤ size ∧ size < 2 ^ 63)
    (room : Room result sizes) :
    TensorSlice.sliceLoop shape slice d sizes extents result =
      .ok (result ++ sizesOf sizes extents) := by
  induction hwithin generalizing result d with
  | nil => exact congrArg Except.ok (List.append_nil _).symm
  | @cons size extent sizes extents hfits _ ih =>
      have hmore : ∀ size ∈ sizes, 1 ≤ size ∧ size < 2 ^ 63 := fun size hsize =>
        hsizes size (List.mem_cons_of_mem _ hsize)
      have hone : ∀ size ∈ sizes, 1 ≤ size := fun size hsize => (hmore size hsize).1
      have hsize := hsizes size List.mem_cons_self
      rw [TensorSlice.sliceLoop, sizesOf, List.zipWith_cons_cons]
      by_cases hfull : extent.isFull
      · have hadd := room.addDim hone hsize.1 le_rfl
        rw [if_pos hfull, if_pos hfull, hadd.1]
        refine (ih hmore hadd.2).trans ?_
        rw [List.append_assoc]
        rfl
      · have hfinish := finish_eq hsize.2 hfits hfull
        rcases hfits with hfull' | hfits
        · exact absurd hfull' hfull
        have hadd := room.addDim hone hfits.2.1 (by omega)
        rw [if_neg hfull, if_neg hfull, hfinish, if_pos hfits.2.2, hadd.1]
        refine (ih hmore hadd.2).trans ?_
        rw [List.append_assoc]
        rfl

/-- A slice that does not lie within the shape is refused, unless a sum wraps. -/
theorem sliceLoop_outside {sizes result : List ℤ} {extents : TensorSlice} {d : ℕ}
    (hlength : sizes.length = extents.length) (houtside : ¬Within sizes extents)
    (hok : ∀ extent ∈ extents, ExtentOk extent) (hwraps : ¬SumWraps sizes extents)
    (hsizes : ∀ size ∈ sizes, 1 ≤ size ∧ size < 2 ^ 63) (room : Room result sizes) :
    ∃ dimension, TensorSlice.sliceLoop shape slice d sizes extents result =
      .error (.outOfBounds dimension shape slice) := by
  induction sizes generalizing extents result d with
  | nil =>
      rw [List.length_nil, eq_comm, List.length_eq_zero_iff] at hlength
      subst hlength
      exact absurd .nil houtside
  | cons size sizes ih =>
      cases extents with
      | nil => cases hlength
      | cons extent extents =>
          have hmore : ∀ size ∈ sizes, 1 ≤ size ∧ size < 2 ^ 63 := fun size hsize =>
            hsizes size (List.mem_cons_of_mem _ hsize)
          have hone : ∀ size ∈ sizes, 1 ≤ size := fun size hsize => (hmore size hsize).1
          have hsize := hsizes size List.mem_cons_self
          have hlength' := Nat.succ.inj hlength
          have hok' : ∀ extent ∈ extents, ExtentOk extent := fun extent hextent =>
            hok extent (List.mem_cons_of_mem _ hextent)
          rw [TensorSlice.sliceLoop]
          rw [SumWraps] at hwraps
          by_cases hfull : extent.isFull
          · have hadd := room.addDim hone hsize.1 le_rfl
            rw [if_pos (.inl hfull)] at hwraps
            rw [if_pos hfull, hadd.1]
            exact ih hlength' (fun hin =>
              houtside (.cons (.inl hfull) hin)) hok' hwraps hmore hadd.2
          · rcases hok extent List.mem_cons_self with hfull' | hext
            · exact absurd hfull' hfull
            rw [if_neg hfull]
            by_cases hle : extent.start + extent.length ≤ size
            · have hfits : FitsAt size extent := .inr ⟨hext.1.1, hext.2.1, hle⟩
              have hadd := room.addDim hone hext.2.1 (by omega)
              rw [if_pos (.inr hle)] at hwraps
              rw [finish_eq hsize.2 hfits hfull, if_pos hle, hadd.1]
              exact ih hlength' (fun hin => houtside (.cons hfits hin)) hok' hwraps hmore hadd.2
            · rw [if_neg (not_or.mpr ⟨hfull, hle⟩)] at hwraps
              have hfinish : extent.finish = extent.start + extent.length :=
                int64_eq (by omega) (by omega)
              rw [hfinish, if_neg hle]
              exact ⟨d, rfl⟩

theorem room_of_shape (hshape : ShapeOk shape) : Room [] shape := by
  refine ⟨?_, le_rfl, ?_⟩
  · rw [List.length_nil, Nat.zero_add]
    exact hshape.rank_le
  · rw [List.prod_nil, one_mul]
    exact hshape.prod_lt

theorem sliceTensorShape_within (hshape : ShapeOk shape) (hwithin : Within shape slice) :
    TensorSlice.sliceTensorShape shape slice = .ok (sizesOf shape slice) := by
  rw [TensorSlice.sliceTensorShape, if_pos hwithin.length_eq]
  exact sliceLoop_within hwithin
    (fun size hsize => ⟨hshape.one_le size hsize, size_lt hshape size hsize⟩) (room_of_shape hshape)

theorem sliceTensorShape_outside (hshape : ShapeOk shape) (houtside : ¬Within shape slice)
    (hok : ∀ extent ∈ slice, ExtentOk extent)
    (hwraps : shape.length = slice.length → ¬SumWraps shape slice) :
    ∃ error, TensorSlice.sliceTensorShape shape slice = .error error ∧ error ≠ .checkFailed := by
  rw [TensorSlice.sliceTensorShape]
  by_cases hlength : shape.length = slice.length
  · rw [if_pos hlength]
    obtain ⟨dimension, herror⟩ : ∃ dimension, TensorSlice.sliceLoop shape slice 0 shape slice [] =
        .error (.outOfBounds dimension shape slice) :=
      sliceLoop_outside hlength houtside hok (hwraps hlength)
        (fun size hsize => ⟨hshape.one_le size hsize, size_lt hshape size hsize⟩)
        (room_of_shape hshape)
    exact ⟨_, herror, nofun⟩
  · rw [if_neg hlength]
    exact ⟨_, rfl, nofun⟩

end ContainerScheduler.Analysis
