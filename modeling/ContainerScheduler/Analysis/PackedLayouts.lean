/-
# The layouts of a shape

A representation lays out a list of dimensions if its tag says how to read them back. An operation
may change the layout midway, and the vector on the heap with it: what it did to the heap is that it
deleted its own vector, or allocated one at the address it was given.

A size below -1 is unknown as well. The inline layouts read it back as -1, and the vector as it is.
-/

import ContainerScheduler.Shapes.TensorShape
import Mathlib.Algebra.Order.BigOperators.GroupWithZero.List
import Mathlib.Data.List.Forall2

namespace ContainerScheduler.Analysis

open Math
open Shapes
open Shapes.TensorShapeRep

/-! ## Lists of dimensions -/

/-- What a dimension is read back as. -/
def ReadsAs (given read : ℤ) : Prop := read = given ∨ given < -1 ∧ read = -1

namespace ReadsAs

variable {given read : ℤ}

theorem refl (size : ℤ) : ReadsAs size size := .inl rfl

theorem of_neg (hneg : given < 0) : ReadsAs given (-1) := by
  rcases (Int.le_sub_one_iff.mpr hneg).lt_or_eq with hlt | rfl
  · exact .inr ⟨hlt, rfl⟩
  · exact .inl rfl

theorem neg_iff (hreads : ReadsAs given read) : read < 0 ↔ given < 0 := by
  rcases hreads with rfl | ⟨hlt, rfl⟩
  · rfl
  · exact iff_of_true (by decide) (hlt.trans (by decide))

theorem lt (hreads : ReadsAs given read) {bound : ℤ} (hlt : given < bound) (hbound : 0 ≤ bound) :
    read < bound := by
  rcases hreads with rfl | ⟨-, rfl⟩
  · exact hlt
  · omega

theorem eq_of_nonneg (hreads : ReadsAs given read) (hnonneg : 0 ≤ given) : read = given := by
  rcases hreads with rfl | ⟨hlt, -⟩
  · rfl
  · omega

theorem trans {again : ℤ} (hfirst : ReadsAs given read) (hsecond : ReadsAs read again) :
    ReadsAs given again := by
  rcases hfirst with rfl | ⟨hlt, rfl⟩
  · exact hsecond
  · rcases hsecond with rfl | ⟨hlt', -⟩
    · exact .inr ⟨hlt, rfl⟩
    · exact absurd hlt' (lt_irrefl _)

end ReadsAs

/-- The number of elements of a shape with these dimensions, -1 if one is unknown. -/
def elementsOf (dims : List ℤ) : ℤ := if ∀ size ∈ dims, 0 ≤ size then dims.prod else -1

/-- What the `CHECK`s ask of the dimensions of a shape: there are at most 254, they are known unless
the shape is partial, and no product of a prefix of known dimensions reaches `2 ^ 63`. -/
def ValidDims (isPartial : Bool) (dims : List ℤ) : Prop :=
  dims.length ≤ maxDimensions ∧ (isPartial = false → ∀ size ∈ dims, 0 ≤ size) ∧
    ∀ known ∈ dims.inits, (∀ size ∈ known, 0 ≤ size) → known.prod < 2 ^ 63

instance (isPartial : Bool) (dims : List ℤ) : Decidable (ValidDims isPartial dims) :=
  inferInstanceAs (Decidable (_ ∧ _ ∧ _))

section Reads

variable {given read : List ℤ} {isPartial : Bool}

section

variable (hreads : List.Forall₂ ReadsAs given read)

include hreads

theorem nonneg_iff_of_readsAs : (∀ size ∈ read, 0 ≤ size) ↔ ∀ size ∈ given, 0 ≤ size := by
  induction hreads with
  | nil => rfl
  | cons hhead _ ih =>
      rw [List.forall_mem_cons, List.forall_mem_cons, ih, ← not_lt, hhead.neg_iff, not_lt]

theorem eq_of_readsAs_of_nonneg (hnonneg : ∀ size ∈ given, 0 ≤ size) : read = given := by
  induction hreads with
  | nil => rfl
  | cons hhead _ ih =>
      rcases List.forall_mem_cons.mp hnonneg with ⟨hfirst, hrest⟩
      rw [hhead.eq_of_nonneg hfirst, ih hrest]

theorem lt_of_readsAs {bound : ℤ} (hbound : 0 ≤ bound) (hlt : ∀ size ∈ given, size < bound) :
    ∀ size ∈ read, size < bound := by
  induction hreads with
  | nil => exact nofun
  | cons hhead _ ih =>
      rcases List.forall_mem_cons.mp hlt with ⟨hfirst, hrest⟩
      exact List.forall_mem_cons.mpr ⟨hhead.lt hfirst hbound, ih hrest⟩

theorem elementsOf_eq_of_readsAs : elementsOf read = elementsOf given := by
  rw [elementsOf, elementsOf]
  by_cases hnonneg : ∀ size ∈ given, 0 ≤ size
  · rw [eq_of_readsAs_of_nonneg hreads hnonneg]
  · rw [if_neg hnonneg, if_neg (mt (nonneg_iff_of_readsAs hreads).mp hnonneg)]

theorem validDims_iff_of_readsAs : ValidDims isPartial read ↔ ValidDims isPartial given := by
  have hinitial : ∀ count, List.Forall₂ ReadsAs (given.take count) (read.take count) := fun count =>
    List.forall₂_take count hreads
  rw [ValidDims, ValidDims, hreads.length_eq, nonneg_iff_of_readsAs hreads]
  apply and_congr_right
  intro _
  apply and_congr_right
  intro _
  constructor
  · intro hread known hknown hnonneg
    rw [List.mem_inits, List.prefix_iff_eq_take] at hknown
    rw [hknown] at hnonneg ⊢
    rw [← eq_of_readsAs_of_nonneg (hinitial _) hnonneg]
    apply hread _ ((List.mem_inits _ _).mpr (List.take_prefix _ _))
    exact (nonneg_iff_of_readsAs (hinitial _)).mpr hnonneg
  · intro hgiven known hknown hnonneg
    rw [List.mem_inits, List.prefix_iff_eq_take] at hknown
    rw [hknown] at hnonneg ⊢
    rw [nonneg_iff_of_readsAs (hinitial _)] at hnonneg
    rw [eq_of_readsAs_of_nonneg (hinitial _) hnonneg]
    exact hgiven _ ((List.mem_inits _ _).mpr (List.take_prefix _ _)) hnonneg

end

theorem forall₂_readsAs_trans {again : List ℤ} (hfirst : List.Forall₂ ReadsAs given read)
    (hsecond : List.Forall₂ ReadsAs read again) : List.Forall₂ ReadsAs given again := by
  induction hfirst generalizing again with
  | nil => exact hsecond
  | cons hhead _ ih =>
      rcases hsecond with _ | ⟨hhead', hrest⟩
      exact .cons (hhead.trans hhead') (ih hrest)

theorem forall₂_readsAs_refl (dims : List ℤ) : List.Forall₂ ReadsAs dims dims :=
  List.forall₂_same.mpr fun size _ => .refl size

theorem forall₂_readsAs_insertIdx (hreads : List.Forall₂ ReadsAs given read) (d : ℕ) (size : ℤ) :
    List.Forall₂ ReadsAs (given.insertIdx d size) (read.insertIdx d size) := by
  induction hreads generalizing d with
  | nil =>
      rcases d with _ | d
      · exact forall₂_readsAs_refl [size]
      · exact .nil
  | cons hhead htail ih =>
      rcases d with _ | d
      · exact .cons (.refl size) (.cons hhead htail)
      · exact .cons hhead (ih d)

theorem forall₂_readsAs_set (hreads : List.Forall₂ ReadsAs given read) (d : ℕ) (size : ℤ) :
    List.Forall₂ ReadsAs (given.set d size) (read.set d size) := by
  induction hreads generalizing d with
  | nil => exact .nil
  | cons hhead htail ih =>
      rcases d with _ | d
      · exact .cons (.refl size) htail
      · exact .cons hhead (ih d)

theorem forall₂_readsAs_append {given' read' : List ℤ} (hfirst : List.Forall₂ ReadsAs given read)
    (hsecond : List.Forall₂ ReadsAs given' read') :
    List.Forall₂ ReadsAs (given ++ given') (read ++ read') :=
  List.rel_append hfirst hsecond

end Reads

namespace ValidDims

variable {isPartial : Bool} {dims : List ℤ}

theorem of_prefix {long : List ℤ} (hvalid : ValidDims isPartial long) (hinitial : dims <+: long) :
    ValidDims isPartial dims := by
  rcases hvalid with ⟨hlength, hknown, hproducts⟩
  refine ⟨hinitial.length_le.trans hlength, ?_, ?_⟩
  · intro hpart size hmem
    exact hknown hpart size (hinitial.subset hmem)
  · intro known hmem
    rw [List.mem_inits] at hmem
    exact hproducts known ((List.mem_inits _ _).mpr (hmem.trans hinitial))

/-- One more dimension is checked against what is there. -/
theorem concat_iff (hvalid : ValidDims isPartial dims) (size : ℤ) :
    ValidDims isPartial (dims ++ [size]) ↔
      dims.length < maxDimensions ∧ (isPartial = false → 0 ≤ size) ∧
        ((∀ size ∈ dims, 0 ≤ size) → 0 ≤ size → dims.prod * size < 2 ^ 63) := by
  rcases hvalid with ⟨hlength, hknown, hproducts⟩
  have hmem : ∀ {P : ℤ → Prop}, (∀ size' ∈ dims ++ [size], P size') ↔
      (∀ size' ∈ dims, P size') ∧ P size := by
    intro P
    rw [List.forall_mem_append, List.forall_mem_singleton]
  constructor
  · rintro ⟨hlength', hknown', hproducts'⟩
    rw [List.length_append, List.length_singleton] at hlength'
    refine ⟨hlength', fun hpart => (hmem.mp (hknown' hpart)).2, ?_⟩
    intro hnonneg hsize
    have hproduct := hproducts' (dims ++ [size]) ((List.mem_inits _ _).mpr List.prefix_rfl)
      (hmem.mpr ⟨hnonneg, hsize⟩)
    rwa [List.prod_append, List.prod_singleton] at hproduct
  · rintro ⟨hlength', hsize, hproduct⟩
    refine ⟨?_, ?_, ?_⟩
    · rw [List.length_append, List.length_singleton]
      exact hlength'
    · intro hpart
      exact hmem.mpr ⟨hknown hpart, hsize hpart⟩
    · intro known hinits hnonneg
      rcases List.prefix_concat_iff.mp ((List.mem_inits _ _).mp hinits) with rfl | hinitial
      · rcases hmem.mp hnonneg with ⟨hdims, hlast⟩
        rw [List.prod_append, List.prod_singleton]
        exact hproduct hdims hlast
      · exact hproducts known ((List.mem_inits _ _).mpr hinitial) hnonneg

/-- A shape may be used as a partial one. -/
theorem of_imp {isPartial' : Bool} (hvalid : ValidDims isPartial dims)
    (hkind : isPartial' = false → isPartial = false) : ValidDims isPartial' dims :=
  ⟨hvalid.1, fun hpart => hvalid.2.1 (hkind hpart), hvalid.2.2⟩

theorem prod_lt (hvalid : ValidDims isPartial dims) (hnonneg : ∀ size ∈ dims, 0 ≤ size) :
    dims.prod < 2 ^ 63 :=
  hvalid.2.2 dims ((List.mem_inits _ _).mpr List.prefix_rfl) hnonneg

end ValidDims

theorem elementsOf_concat (dims : List ℤ) (size : ℤ) :
    elementsOf (dims ++ [size]) =
      if (∀ size ∈ dims, 0 ≤ size) ∧ 0 ≤ size then dims.prod * size else -1 := by
  simp only [elementsOf, List.forall_mem_append, List.forall_mem_singleton, List.prod_append,
    List.prod_singleton]

theorem elementsOf_neg_iff (dims : List ℤ) :
    elementsOf dims < 0 ↔ ¬∀ size ∈ dims, 0 ≤ size := by
  rw [elementsOf]
  split_ifs with hnonneg
  · exact iff_of_false (not_lt.mpr (List.prod_nonneg hnonneg)) (not_not.mpr hnonneg)
  · exact iff_of_true (by decide) hnonneg

/-! ## Products without overflow -/

theorem uint64_of_nonneg {value : ℤ} (hnonneg : 0 ≤ value) (hlt : value < 2 ^ 63) :
    uint64 value = value.toNat := by
  rw [uint64, Int.emod_eq_of_lt hnonneg (hlt.trans (by decide))]

/-- The product is given if it is an `int64`, and a negative number if not. -/
theorem multiplyWithoutOverflow_spec {x y : ℤ} (hx : 0 ≤ x) (hx' : x < 2 ^ 63) (hy : 0 ≤ y)
    (hy' : y < 2 ^ 63) :
    ∃ n, multiplyWithoutOverflow x y = .ok n ∧ (x * y < 2 ^ 63 → n = x * y) ∧
      (2 ^ 63 ≤ x * y → n < 0) := by
  have hux : uint64 x = x.toNat := uint64_of_nonneg hx hx'
  have huy : uint64 y = y.toNat := uint64_of_nonneg hy hy'
  have hproduct : ((x.toNat * y.toNat : ℕ) : ℤ) = x * y := by
    rw [Nat.cast_mul, Int.toNat_of_nonneg hx, Int.toNat_of_nonneg hy]
  -- A product below `2 ^ 64` is not cut off.
  have hfits : x.toNat * y.toNat < 2 ^ 64 → ∃ n, (.ok (int64 (x.toNat * y.toNat % 2 ^ 64)) :
      Except Fault ℤ) = .ok n ∧ (x * y < 2 ^ 63 → n = x * y) ∧ (2 ^ 63 ≤ x * y → n < 0) := by
    intro hlt
    refine ⟨_, rfl, ?_, ?_⟩
    · intro hsmall
      rw [Nat.mod_eq_of_lt hlt, int64, if_pos (by omega)]
      exact hproduct
    · intro hlarge
      rw [Nat.mod_eq_of_lt hlt, int64, if_neg (by omega)]
      omega
  rw [multiplyWithoutOverflow, hux, huy]
  by_cases hhigh : (x.toNat ||| y.toNat) >>> 32 ≠ 0
  · rw [if_pos hhigh, if_neg (not_not.mpr ⟨hx, hy⟩)]
    by_cases hdivision : x.toNat ≠ 0 ∧ x.toNat * y.toNat % 2 ^ 64 / x.toNat ≠ y.toNat
    · rw [if_pos hdivision]
      have hlarge : 2 ^ 64 ≤ x.toNat * y.toNat := by
        by_contra hlt
        apply hdivision.2
        rw [Nat.mod_eq_of_lt (not_le.mp hlt),
          Nat.mul_div_cancel_left _ (Nat.pos_of_ne_zero hdivision.1)]
      exact ⟨-1, rfl, fun hsmall => by omega, fun _ => by decide⟩
    · rw [if_neg hdivision]
      apply hfits
      rcases Nat.eq_zero_or_pos x.toNat with hzero | hpositive
      · rw [hzero, Nat.zero_mul]
        decide
      · have hdiv : x.toNat * y.toNat % 2 ^ 64 / x.toNat = y.toNat := by
          by_contra hne
          exact hdivision ⟨hpositive.ne', hne⟩
        calc
          x.toNat * y.toNat = x.toNat * (x.toNat * y.toNat % 2 ^ 64 / x.toNat) := by rw [hdiv]
          _ ≤ x.toNat * y.toNat % 2 ^ 64 := Nat.mul_div_le _ _
          _ < 2 ^ 64 := Nat.mod_lt _ (by decide)
  · rw [if_neg hhigh]
    apply hfits
    rw [not_not, Nat.shiftRight_or_distrib, Nat.or_eq_zero_iff, Nat.shiftRight_eq_div_pow,
      Nat.shiftRight_eq_div_pow, Nat.div_eq_zero_iff, Nat.div_eq_zero_iff] at hhigh
    have hsmall : x.toNat < 2 ^ 32 ∧ y.toNat < 2 ^ 32 := by omega
    calc
      x.toNat * y.toNat < 2 ^ 32 * 2 ^ 32 := Nat.mul_lt_mul'' hsmall.1 hsmall.2
      _ = 2 ^ 64 := by decide

/-! ## Reading a layout -/

/-- The dimensions are kept inline in numbers with this value for unknown. -/
def PackedDims (unknown : ℕ) (limit : ℤ) (stored : ℕ → ℕ) (dims : List ℤ) : Prop :=
  ∀ d size, dims[d]? = some size → size < limit ∧ stored d = packed true unknown size

/-- The layout that the tag names has these dimensions. -/
def LaidOut (heap : Heap) (rep : TensorShapeRep) (dims : List ℤ) : Prop :=
  match rep.tag with
  | .rep16 => dims.length ≤ 6 ∧ PackedDims kUnknownRep16 kMaxRep16 rep.dims16 dims
  | .rep32 => dims.length ≤ 3 ∧ PackedDims kUnknownRep32 kMaxRep32 rep.dims32 dims
  | .repOutOfLine => ∃ vals, heap rep.dims64 = some vals ∧ List.Forall₂ ReadsAs dims vals

/-- A representation of these dimensions. -/
structure HasDims (heap : Heap) (rep : TensorShapeRep) (dims : List ℤ) : Prop where
  ndims_eq : rep.ndimsByte = dims.length
  length_le : dims.length ≤ maxDimensions
  lt_of_mem : ∀ size ∈ dims, size < 2 ^ 63
  laidOut : LaidOut heap rep dims

namespace HasDims

variable {isPartial : Bool} {heap : Heap} {rep : TensorShapeRep} {dims : List ℤ}

theorem not_unknownRank (has : HasDims heap rep dims) : unknownRank isPartial rep = false := by
  have hne : rep.ndimsByte ≠ kUnknownRank := by
    rw [has.ndims_eq]
    exact (has.length_le.trans_lt (by decide)).ne
  rw [unknownRank, beq_false_of_ne hne, Bool.and_false]

theorem dims_eq (has : HasDims heap rep dims) : Shapes.dims isPartial rep = dims.length := by
  have hrank : unknownRank isPartial rep = false := has.not_unknownRank
  rw [unknownRank] at hrank
  rw [Shapes.dims, hrank, if_neg Bool.false_ne_true, has.ndims_eq]

end HasDims

/-- A number that is stored inline is read back. -/
theorem readsAs_packed {isPartial : Bool} {unknown stored : ℕ} {size : ℤ}
    (hsize : size < unknown) (hstored : stored = packed true unknown size)
    (hknown : isPartial = false → 0 ≤ size) :
    ReadsAs size (if isPartial && stored == unknown then -1 else stored) := by
  subst hstored
  by_cases hneg : size < 0
  · have hpart : isPartial = true := by
      by_contra hfull
      exact absurd (hknown (Bool.not_eq_true _ ▸ hfull)) (not_le.mpr hneg)
    have hpacked : packed true unknown size = unknown := by
      rw [packed]
      exact if_pos (by simp [hneg])
    rw [hpacked, beq_self_eq_true, Bool.and_true, if_pos hpart]
    exact .of_neg hneg
  · have hpacked : packed true unknown size = size.toNat := by
      rw [packed, if_neg (by simp [hneg]), Int.emod_eq_of_lt (not_lt.mp hneg) (by omega)]
    have hne : (size.toNat == unknown) = false := beq_false_of_ne (by omega)
    rw [hpacked, hne, Bool.and_false, if_neg Bool.false_ne_true,
      Int.toNat_of_nonneg (not_lt.mp hneg)]
    exact .refl size

theorem dimSize_spec {isPartial : Bool} {heap : Heap} {rep : TensorShapeRep} {dims : List ℤ}
    (has : HasDims heap rep dims) (hknown : isPartial = false → ∀ size ∈ dims, 0 ≤ size)
    {d : ℕ} {size : ℤ} (hd : dims[d]? = some size) :
    ∃ read, dimSize isPartial heap rep d = .ok read ∧ ReadsAs size read := by
  have hsize : isPartial = false → 0 ≤ size := fun hpart =>
    hknown hpart size (List.mem_of_getElem? hd)
  have hlaid := has.laidOut
  rw [LaidOut] at hlaid
  rw [dimSize, has.not_unknownRank, if_neg Bool.false_ne_true]
  rcases htag : rep.tag with _ | _ | _ <;> rw [htag] at hlaid <;> simp only at hlaid ⊢
  · rcases hlaid.2 d size hd with ⟨hlt, hstored⟩
    exact ⟨_, rfl, readsAs_packed (hlt.trans (by decide)) hstored hsize⟩
  · rcases hlaid.2 d size hd with ⟨hlt, hstored⟩
    exact ⟨_, rfl, readsAs_packed (hlt.trans (by decide)) hstored hsize⟩
  · rcases hlaid with ⟨vals, hvals, hreads⟩
    rcases List.getElem?_eq_some_iff.mp hd with ⟨hlt, rfl⟩
    have hlt' : d < vals.length := hreads.length_eq ▸ hlt
    refine ⟨vals[d], ?_, List.Forall₂.get hreads hlt hlt'⟩
    simp [Heap.read, hvals, Except.bind, hlt']

theorem dimsFrom_spec {isPartial : Bool} {heap : Heap} {rep : TensorShapeRep} {dims : List ℤ}
    (has : HasDims heap rep dims) (hknown : isPartial = false → ∀ size ∈ dims, 0 ≤ size)
    (count d : ℕ) (hcount : d + count = dims.length) :
    ∃ vals, dimsFrom isPartial heap rep count d = .ok vals ∧
      List.Forall₂ ReadsAs (dims.drop d) vals := by
  induction count generalizing d with
  | zero =>
      rw [List.drop_of_length_le (Nat.add_zero d ▸ hcount.ge)]
      exact ⟨[], rfl, .nil⟩
  | succ count ih =>
      have hlt : d < dims.length := by omega
      rcases dimSize_spec has hknown (List.getElem?_eq_getElem hlt) with ⟨read, hread, hreads⟩
      rcases ih (d + 1) (by omega) with ⟨vals, hvals, hrest⟩
      refine ⟨read :: vals, ?_, ?_⟩
      · rw [dimsFrom, hread, hvals]
        rfl
      · rw [List.drop_eq_getElem_cons hlt]
        exact .cons hreads hrest

theorem appendTo_spec {isPartial : Bool} {heap : Heap} {rep : TensorShapeRep} {dims : List ℤ}
    (has : HasDims heap rep dims) (hknown : isPartial = false → ∀ size ∈ dims, 0 ≤ size) :
    ∃ vals, appendTo isPartial heap rep = .ok vals ∧ List.Forall₂ ReadsAs dims vals := by
  rw [appendTo, has.not_unknownRank, if_neg Bool.false_ne_true, has.ndims_eq]
  exact dimsFrom_spec has hknown dims.length 0 (Nat.zero_add _)

/-! ## Writing a layout -/

section Writing

variable {isPartial : Bool} {unknown : ℕ} {limit : ℤ} {stored stored' : ℕ → ℕ} {dims : List ℤ}
  {size : ℤ}

theorem packed_eq (hknown : isPartial = false → 0 ≤ size) :
    packed isPartial unknown size = packed true unknown size := by
  rcases isPartial with _ | _
  · rw [packed, packed, Bool.false_and, Bool.true_and, decide_eq_false (not_lt.mpr (hknown rfl))]
  · rfl

theorem packed_lt : packed isPartial unknown size < unknown + 1 := by
  rw [packed]
  split_ifs
  · exact Nat.lt_succ_self _
  · have hlt := Int.emod_lt_of_pos size (by omega : (0 : ℤ) < unknown + 1)
    omega

theorem packed_readsAs {read : ℤ} (hreads : ReadsAs size read) :
    packed true unknown read = packed true unknown size := by
  by_cases hneg : size < 0
  · rw [packed, packed, decide_eq_true hneg, decide_eq_true (hreads.neg_iff.mpr hneg)]
    rfl
  · rw [hreads.eq_of_nonneg (not_lt.mp hneg)]

namespace PackedDims

theorem congr (hpacked : PackedDims unknown limit stored dims)
    (hsame : ∀ d < dims.length, stored' d = stored d) : PackedDims unknown limit stored' dims := by
  intro d size hd
  rcases hpacked d size hd with ⟨hlt, hvalue⟩
  exact ⟨hlt, (hsame d (List.getElem?_eq_some_iff.mp hd).1).trans hvalue⟩

theorem concat (hpacked : PackedDims unknown limit stored dims) (hlt : size < limit)
    (hvalue : stored dims.length = packed true unknown size) :
    PackedDims unknown limit stored (dims ++ [size]) := by
  intro d size' hd
  rcases Nat.lt_or_ge d dims.length with hbefore | hge
  · rw [List.getElem?_append_left hbefore] at hd
    exact hpacked d size' hd
  · rw [List.getElem?_append_right hge, List.getElem?_singleton] at hd
    split_ifs at hd with hzero
    have hlast : d = dims.length := by omega
    rw [← Option.some.inj hd, hlast]
    exact ⟨hlt, hvalue⟩

theorem set (hpacked : PackedDims unknown limit stored dims) {d : ℕ} (hlt : size < limit)
    (hvalue : stored' d = packed true unknown size)
    (hsame : ∀ other < dims.length, other ≠ d → stored' other = stored other) :
    PackedDims unknown limit stored' (dims.set d size) := by
  intro other size' hother
  rw [List.getElem?_set] at hother
  split_ifs at hother with heq hbound
  · rw [← Option.some.inj hother, ← heq]
    exact ⟨hlt, hvalue⟩
  · rcases hpacked other size' hother with ⟨hlt', hvalue'⟩
    have hbound := (List.getElem?_eq_some_iff.mp hother).1
    exact ⟨hlt', (hsame other hbound (Ne.symm heq)).trans hvalue'⟩

/-- What was read from another layout is stored. -/
theorem of_readsAs {read : List ℤ} (hpacked : PackedDims unknown limit stored read)
    (hreads : List.Forall₂ ReadsAs dims read) (hlimit : 0 ≤ limit) :
    PackedDims unknown limit stored dims := by
  intro d size hd
  rcases List.getElem?_eq_some_iff.mp hd with ⟨hlt, rfl⟩
  have hlt' : d < read.length := hreads.length_eq ▸ hlt
  have hone : ReadsAs dims[d] read[d] := List.Forall₂.get hreads hlt hlt'
  rcases hpacked d _ (List.getElem?_eq_getElem hlt') with ⟨hless, hvalue⟩
  refine ⟨?_, hvalue.trans (packed_readsAs hone)⟩
  rcases hone with heq | ⟨hneg, -⟩
  · exact heq ▸ hless
  · omega

end PackedDims

end Writing

namespace LaidOut

variable {heap : Heap} {rep rep' : TensorShapeRep} {dims : List ℤ}

/-- A layout does not depend on the bytes of the data type and the number of dimensions. -/
theorem congr (hlaid : LaidOut heap rep dims) (htag : rep'.tag = rep.tag)
    (hsame : SamePayload rep' rep) : LaidOut heap rep' dims := by
  rw [LaidOut] at hlaid ⊢
  rw [htag]
  rcases hrep : rep.tag with _ | _ | _ <;> rw [hrep] at hlaid
  · refine ⟨hlaid.1, hlaid.2.congr ?_⟩
    intro d hd
    exact hsame.dims16_eq (hd.trans_le hlaid.1)
  · refine ⟨hlaid.1, hlaid.2.congr ?_⟩
    intro d hd
    exact hsame.dims32_eq (hd.trans_le hlaid.1)
  · rcases hlaid with ⟨vals, hvals, hreads⟩
    exact ⟨vals, (congrArg heap hsame.dims64_eq).trans hvals, hreads⟩

/-- Only the vector of the shape matters. -/
theorem heap_congr {heap' : Heap} (hlaid : LaidOut heap rep dims)
    (hsame : rep.tag = .repOutOfLine → heap' rep.dims64 = heap rep.dims64) :
    LaidOut heap' rep dims := by
  rw [LaidOut] at hlaid ⊢
  rcases htag : rep.tag with _ | _ | _ <;> rw [htag] at hlaid
  · exact hlaid
  · exact hlaid
  · rcases hlaid with ⟨vals, hvals, hreads⟩
    exact ⟨vals, (hsame htag).trans hvals, hreads⟩

theorem of_readsAs {read : List ℤ} (hlaid : LaidOut heap rep read)
    (hreads : List.Forall₂ ReadsAs dims read) : LaidOut heap rep dims := by
  rw [LaidOut] at hlaid ⊢
  rcases htag : rep.tag with _ | _ | _ <;> rw [htag] at hlaid
  · exact ⟨hreads.length_eq.trans_le hlaid.1, hlaid.2.of_readsAs hreads (by decide)⟩
  · exact ⟨hreads.length_eq.trans_le hlaid.1, hlaid.2.of_readsAs hreads (by decide)⟩
  · rcases hlaid with ⟨vals, hvals, hagain⟩
    exact ⟨vals, hvals, forall₂_readsAs_trans hreads hagain⟩

end LaidOut

end ContainerScheduler.Analysis
