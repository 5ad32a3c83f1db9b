/-
# What an operation makes of a shape

An operation on a shape with some dimensions gives a shape with others if they are valid, and a
failed `CHECK` if not. It keeps the data type, unless it sets it, and leaves the vectors of all
other shapes alone.
-/

import ContainerScheduler.Analysis.PackedLayouts

namespace ContainerScheduler.Analysis

open Math
open Shapes
open Shapes.TensorShapeRep

variable {isPartial : Bool} {address : ℕ} {memory next : Memory} {dims : List ℤ} {size : ℤ}

/-! ## The heap -/

/-- An operation only touches the vector of the shape and the given address. It needs no address if
the shape has a vector already. -/
structure KeepsOthers (address : ℕ) (memory next : Memory) : Prop where
  elsewhere : ∀ other, other ≠ address →
    (memory.1.tag = .repOutOfLine → other ≠ memory.1.dims64) → next.2 other = memory.2 other
  pointer : next.1.tag = .repOutOfLine → next.1.dims64 = address ∨
    memory.1.tag = .repOutOfLine ∧ next.1.dims64 = memory.1.dims64
  usable : next.1.tag = .repOutOfLine ∨ next.2 address = none

namespace KeepsOthers

theorem refl (husable : memory.1.tag = .repOutOfLine ∨ memory.2 address = none) :
    KeepsOthers address memory memory :=
  ⟨fun _ _ _ => rfl, fun htag => .inr ⟨htag, rfl⟩, husable⟩

theorem trans {last : Memory} (hfirst : KeepsOthers address memory next)
    (hsecond : KeepsOthers address next last) : KeepsOthers address memory last := by
  constructor
  · intro other hne hother
    rw [← hfirst.elsewhere other hne hother]
    apply hsecond.elsewhere other hne
    intro htag
    rcases hfirst.pointer htag with heq | ⟨htag', heq⟩
    · rwa [heq]
    · rw [heq]
      exact hother htag'
  · intro htag
    rcases hsecond.pointer htag with heq | ⟨htag', heq⟩
    · exact .inl heq
    · rw [heq]
      exact hfirst.pointer htag'
  · exact hsecond.usable

/-- The bytes changed, but not the heap or the vector that belongs to the shape. -/
theorem of_rep {rep : TensorShapeRep} (hfirst : KeepsOthers address memory next)
    (htag : rep.tag = next.1.tag)
    (hpayload : next.1.tag = .repOutOfLine → rep.dims64 = next.1.dims64) :
    KeepsOthers address memory (rep, next.2) := by
  constructor
  · exact hfirst.elsewhere
  · intro hrep
    have hnext : next.1.tag = .repOutOfLine := htag.symm.trans hrep
    change rep.dims64 = _ ∨ _ ∧ rep.dims64 = _
    rw [hpayload hnext]
    exact hfirst.pointer hnext
  · change rep.tag = _ ∨ _
    rw [htag]
    exact hfirst.usable

end KeepsOthers

/-- The layout has these dimensions now; the number of dimensions and elements is still to be set.
-/
structure LaysOut (address : ℕ) (memory : Memory) (dims : List ℤ) (next : Memory) : Prop where
  laidOut : LaidOut next.2 next.1 dims
  ndims_eq : next.1.ndimsByte = memory.1.ndimsByte
  dataType_eq : next.1.dataType = memory.1.dataType
  keeps : KeepsOthers address memory next

/-! ## Adding one dimension -/

theorem packed16_lt : packed isPartial kUnknownRep16 size < 2 ^ 16 := packed_lt

theorem packed32_lt : packed isPartial kUnknownRep32 size < 2 ^ 32 := packed_lt

theorem setAll32_spec {vals : List ℤ} {d : ℕ} (rep : TensorShapeRep) (hroom : d + vals.length ≤ 3)
    (hsmall : ∀ val ∈ vals, val < kMaxRep32) (hknown : isPartial = false → ∀ val ∈ vals, 0 ≤ val) :
    (setAll32 isPartial d vals rep).tag = rep.tag ∧
      (setAll32 isPartial d vals rep).ndimsByte = rep.ndimsByte ∧
      (setAll32 isPartial d vals rep).dataType = rep.dataType ∧
      (∀ before < d, (setAll32 isPartial d vals rep).dims32 before = rep.dims32 before) ∧
      PackedDims kUnknownRep32 kMaxRep32
        (fun index => (setAll32 isPartial d vals rep).dims32 (d + index)) vals := by
  induction vals generalizing d rep with
  | nil => exact ⟨rfl, rfl, rfl, fun _ _ => rfl, nofun⟩
  | cons val vals ih =>
      rw [List.length_cons] at hroom
      rcases List.forall_mem_cons.mp hsmall with ⟨hval, hvals⟩
      have hd : d < 3 := by omega
      rcases ih (d := d + 1) (rep.setDims32 d (packed isPartial kUnknownRep32 val)) (by omega) hvals
          (fun hpart => (List.forall_mem_cons.mp (hknown hpart)).2) with
        ⟨htag, hndims, hdata, hbefore, hpacked⟩
      rw [setAll32]
      refine ⟨htag.trans (tag_setDims32 hd), hndims.trans (ndimsByte_setDims32 hd),
        hdata.trans (dataType_setDims32 hd), ?_, ?_⟩
      · intro before hlt
        rw [hbefore before (by omega), dims32_setDims32_of_ne (by omega)]
      · intro index size hindex
        rcases index with _ | index
        · rw [List.getElem?_cons_zero, Option.some.injEq] at hindex
          subst hindex
          refine ⟨hval, ?_⟩
          simp only [Nat.add_zero]
          rw [hbefore d (Nat.lt_succ_self d), dims32_setDims32 packed32_lt]
          exact packed_eq fun hpart => (List.forall_mem_cons.mp (hknown hpart)).1
        · rw [List.getElem?_cons_succ] at hindex
          simp only [← Nat.add_assoc, Nat.add_right_comm d index 1]
          exact hpacked index size hindex

namespace LaysOut

/-- A number of 16 bits is written. -/
theorem setDims16 {d value : ℕ} (htag : memory.1.tag = .rep16) (hd : d < 6)
    (hlength : dims.length ≤ 6)
    (hpacked : PackedDims kUnknownRep16 kMaxRep16 (memory.1.setDims16 d value).dims16 dims)
    (husable : memory.1.tag = .repOutOfLine ∨ memory.2 address = none) :
    LaysOut address memory dims (memory.1.setDims16 d value, memory.2) := by
  constructor
  · rw [LaidOut, tag_setDims16 hd, htag]
    exact ⟨hlength, hpacked⟩
  · exact ndimsByte_setDims16 hd
  · exact dataType_setDims16 hd
  · apply (KeepsOthers.refl husable).of_rep (tag_setDims16 hd)
    intro hool
    cases htag.symm.trans hool

/-- A number of 32 bits is written. -/
theorem setDims32 {d value : ℕ} (htag : memory.1.tag = .rep32) (hd : d < 3)
    (hlength : dims.length ≤ 3)
    (hpacked : PackedDims kUnknownRep32 kMaxRep32 (memory.1.setDims32 d value).dims32 dims)
    (husable : memory.1.tag = .repOutOfLine ∨ memory.2 address = none) :
    LaysOut address memory dims (memory.1.setDims32 d value, memory.2) := by
  constructor
  · rw [LaidOut, tag_setDims32 hd, htag]
    exact ⟨hlength, hpacked⟩
  · exact ndimsByte_setDims32 hd
  · exact dataType_setDims32 hd
  · apply (KeepsOthers.refl husable).of_rep (tag_setDims32 hd)
    intro hool
    cases htag.symm.trans hool

/-- The vector is written. -/
theorem write {vals : List ℤ} (htag : memory.1.tag = .repOutOfLine)
    (hreads : List.Forall₂ ReadsAs dims vals) :
    LaysOut address memory dims
      (memory.1, Function.update memory.2 memory.1.dims64 (some vals)) := by
  refine ⟨?_, rfl, rfl, ?_⟩
  · rw [LaidOut, htag]
    simp only [Function.update_self]
    exact ⟨vals, rfl, hreads⟩
  · constructor
    · intro other _ hother
      simp only [Function.update_of_ne (hother htag)]
    · intro _
      exact .inr ⟨htag, rfl⟩
    · exact .inl htag

end LaysOut

/-! `UnsafeAddDim` stores the size, whichever layout it is for. -/

section StoreDim

variable (has : HasDims memory.2 memory.1 dims) (hknown : isPartial = false → 0 ≤ size)
  (husable : memory.1.tag = .repOutOfLine ∨ memory.2 address = none)

include has hknown husable

theorem laysOut_setDims16 (htag : memory.1.tag = .rep16) (hroom : memory.1.ndimsByte < 6)
    (hsmall : size < kMaxRep16) :
    LaysOut address memory (dims ++ [size])
      (memory.1.setDims16 memory.1.ndimsByte (packed isPartial kUnknownRep16 size), memory.2) := by
  have hlaid := has.laidOut
  rw [LaidOut, htag] at hlaid
  rw [has.ndims_eq] at hroom ⊢
  apply LaysOut.setDims16 htag hroom _ _ husable
  · rw [List.length_append, List.length_singleton]
    exact hroom
  · apply PackedDims.concat (hlaid.2.congr _) hsmall
    · exact (dims16_setDims16 packed16_lt).trans (packed_eq hknown)
    · intro d hd
      exact dims16_setDims16_of_ne hd.ne

theorem laysOut_setDims32 (htag : memory.1.tag = .rep32) (hroom : memory.1.ndimsByte < 3)
    (hsmall : size < kMaxRep32) :
    LaysOut address memory (dims ++ [size])
      (memory.1.setDims32 memory.1.ndimsByte (packed isPartial kUnknownRep32 size), memory.2) := by
  have hlaid := has.laidOut
  rw [LaidOut, htag] at hlaid
  rw [has.ndims_eq] at hroom ⊢
  apply LaysOut.setDims32 htag hroom _ _ husable
  · rw [List.length_append, List.length_singleton]
    exact hroom
  · apply PackedDims.concat (hlaid.2.congr _) hsmall
    · exact (dims32_setDims32 packed32_lt).trans (packed_eq hknown)
    · intro d hd
      exact dims32_setDims32_of_ne hd.ne

end StoreDim

/-- The dimensions are put into three numbers of 32 bits. -/
theorem laysOut_setAll32 {vals : List ℤ} (hfree : memory.2 address = none)
    (hreads : List.Forall₂ ReadsAs dims vals)
    (hknown : isPartial = false → ∀ val ∈ vals, 0 ≤ val) (hlength : vals.length ≤ 3)
    (hsmall : ∀ val ∈ vals, val < kMaxRep32) :
    LaysOut address memory dims
      (setAll32 isPartial 0 vals (memory.1.setTag .rep32), memory.2) := by
  rcases setAll32_spec (d := 0) (memory.1.setTag .rep32) ((Nat.zero_add _).trans_le hlength) hsmall
    hknown with ⟨htag', hndims, hdata, -, hpacked⟩
  rw [tag_setTag] at htag'
  constructor
  · apply LaidOut.of_readsAs _ hreads
    rw [LaidOut, htag']
    simp only [Nat.zero_add] at hpacked
    exact ⟨hlength, hpacked⟩
  · exact hndims.trans ndimsByte_setTag
  · exact hdata.trans dataType_setTag
  · refine ⟨fun _ _ _ => rfl, ?_, .inr hfree⟩
    intro hool
    cases htag'.symm.trans hool

/-- The dimensions are put into a new vector. -/
theorem laysOut_new {vals : List ℤ} (haddress : address < 2 ^ 64)
    (hreads : List.Forall₂ ReadsAs dims vals) :
    LaysOut address memory dims ((memory.1.setTag .repOutOfLine).setDims64 address,
      Function.update memory.2 address (some vals)) := by
  constructor
  · rw [LaidOut, tag_setDims64, tag_setTag]
    simp only
    rw [dims64_setDims64 haddress]
    exact ⟨vals, Function.update_self _ _ _, hreads⟩
  · rw [ndimsByte_setDims64, ndimsByte_setTag]
  · rw [dataType_setDims64, dataType_setTag]
  · constructor
    · intro other hne _
      exact Function.update_of_ne hne _ _
    · intro _
      exact .inl (dims64_setDims64 haddress)
    · exact .inl (tag_setDims64.trans tag_setTag)

theorem storeDim_spec (has : HasDims memory.2 memory.1 dims)
    (hknown : isPartial = false → ∀ size' ∈ dims ++ [size], 0 ≤ size')
    (husable : memory.1.tag = .repOutOfLine ∨ memory.2 address = none)
    (haddress : address < 2 ^ 64) :
    ∃ next, storeDim isPartial address size memory = .ok next ∧
      LaysOut address memory (dims ++ [size]) next := by
  have hsize : isPartial = false → 0 ≤ size := fun hpart =>
    (List.forall_mem_append.mp (hknown hpart)).2 size (List.mem_singleton_self size)
  have hdims : isPartial = false → ∀ size ∈ dims, 0 ≤ size := fun hpart =>
    (List.forall_mem_append.mp (hknown hpart)).1
  rw [storeDim]
  by_cases h16 : memory.1.tag = .rep16 ∧ memory.1.ndimsByte < 6 ∧ size < kMaxRep16
  · rw [if_pos h16]
    exact ⟨_, rfl, laysOut_setDims16 has hsize husable h16.1 h16.2.1 h16.2.2⟩
  rw [if_neg h16]
  by_cases h32 : memory.1.tag = .rep32 ∧ memory.1.ndimsByte < 3 ∧ size < kMaxRep32
  · rw [if_pos h32]
    exact ⟨_, rfl, laysOut_setDims32 has hsize husable h32.1 h32.2.1 h32.2.2⟩
  rw [if_neg h32]
  by_cases htag : memory.1.tag = .repOutOfLine
  · have hlaid := has.laidOut
    rw [LaidOut, htag] at hlaid
    rcases hlaid with ⟨vals, hvals, hreads⟩
    rw [if_pos htag, Heap.read_of_some hvals, Except.bind, Heap.write_of_some hvals]
    exact ⟨_, rfl, .write htag (forall₂_readsAs_append hreads (forall₂_readsAs_refl [size]))⟩
  · have hfree : memory.2 address = none := husable.resolve_left htag
    rcases appendTo_spec has hdims with ⟨vals, hvals, hreads⟩
    have hreads' : List.Forall₂ ReadsAs (dims ++ [size]) (vals ++ [size]) :=
      forall₂_readsAs_append hreads (forall₂_readsAs_refl [size])
    rw [if_neg htag, hvals, Except.bind]
    split_ifs with hsmall
    · refine ⟨_, rfl, laysOut_setAll32 hfree hreads' ?_ hsmall.1 hsmall.2⟩
      intro hpart
      exact (nonneg_iff_of_readsAs hreads').mpr (hknown hpart)
    · rw [Heap.new_of_none hfree]
      exact ⟨_, rfl, laysOut_new haddress hreads'⟩

/-! ## Results -/

/-- A result that is right if what the operation needs is there, and a failed `CHECK` if not. -/
def GivesIf {α : Type} (needed : Prop) (P : α → Prop) (result : Except Fault α) : Prop :=
  (needed → ∃ value, result = .ok value ∧ P value) ∧ (¬needed → result = .error .checkFailed)

namespace GivesIf

variable {α β : Type} {needed needed' : Prop} {P : α → Prop} {Q : β → Prop}
    {result : Except Fault α}

theorem ok {value : α} (hneeded : needed) (hvalue : P value) : GivesIf needed P (.ok value) :=
  ⟨fun _ => ⟨value, rfl, hvalue⟩, fun hnot => absurd hneeded hnot⟩

theorem checkFailed (hnot : ¬needed) : GivesIf needed P (.error .checkFailed) :=
  ⟨fun hneeded => absurd hneeded hnot, fun _ => rfl⟩

theorem bind {next : α → Except Fault β} (hresult : GivesIf needed P result)
    (hneeded : needed' → needed) (hnext : ∀ value, P value → GivesIf needed' Q (next value)) :
    GivesIf needed' Q (result.bind next) := by
  by_cases h : needed
  · rcases hresult.1 h with ⟨value, rfl, hvalue⟩
    exact hnext value hvalue
  · rw [hresult.2 h]
    exact checkFailed (mt hneeded h)

theorem map {f : α → β} (hresult : GivesIf needed P result) (hf : ∀ value, P value → Q (f value)) :
    GivesIf needed Q (result.map f) := by
  by_cases h : needed
  · rcases hresult.1 h with ⟨value, rfl, hvalue⟩
    exact ok h (hf value hvalue)
  · rw [hresult.2 h]
    exact checkFailed h

theorem congr (hresult : GivesIf needed P result) (hiff : needed ↔ needed') :
    GivesIf needed' P result := by
  rwa [← propext hiff]

theorem imp {P' : α → Prop} (hresult : GivesIf needed P result)
    (himp : ∀ value, P value → P' value) :
    GivesIf needed P' result := by
  refine ⟨fun hneeded => ?_, hresult.2⟩
  rcases hresult.1 hneeded with ⟨value, hok, hvalue⟩
  exact ⟨value, hok, himp value hvalue⟩

end GivesIf

/-- A representation of these dimensions, with the number of elements. -/
structure Holds (heap : Heap) (rep : TensorShapeRep) (dims : List ℤ) : Prop
    extends HasDims heap rep dims where
  numElements_eq : rep.numElements = elementsOf dims

/-- An operation made this of a shape, and kept the data type. -/
structure Becomes (address : ℕ) (memory : Memory) (dims : List ℤ) (next : Memory) : Prop where
  holds : Holds next.2 next.1 dims
  dataType_eq : next.1.dataType = memory.1.dataType
  keeps : KeepsOthers address memory next

namespace Becomes

theorem refl (hholds : Holds memory.2 memory.1 dims)
    (husable : memory.1.tag = .repOutOfLine ∨ memory.2 address = none) :
    Becomes address memory dims memory :=
  ⟨hholds, rfl, .refl husable⟩

theorem trans {last : Memory} {dims' : List ℤ} (hfirst : Becomes address memory dims next)
    (hsecond : Becomes address next dims' last) : Becomes address memory dims' last :=
  ⟨hsecond.holds, hsecond.dataType_eq.trans hfirst.dataType_eq, hfirst.keeps.trans hsecond.keeps⟩

end Becomes

/-- The vals that were read are as good as the dimensions they were read from. -/
theorem Holds.of_readsAs {heap : Heap} {rep : TensorShapeRep} {read : List ℤ}
    (hholds : Holds heap rep read) (hreads : List.Forall₂ ReadsAs dims read)
    (hlt : ∀ size ∈ dims, size < 2 ^ 63) : Holds heap rep dims :=
  { ndims_eq := hholds.ndims_eq.trans hreads.length_eq.symm
    length_le := hreads.length_eq.trans_le hholds.length_le
    lt_of_mem := hlt
    laidOut := hholds.laidOut.of_readsAs hreads
    numElements_eq := hholds.numElements_eq.trans (elementsOf_eq_of_readsAs hreads) }

/-! ## Adding dimensions -/

theorem unsafeAddDim_spec {n : ℤ} (has : HasDims memory.2 memory.1 dims)
    (hvalid : ValidDims isPartial (dims ++ [size])) (hsize : size < 2 ^ 63)
    (hn : n = elementsOf (dims ++ [size]))
    (husable : memory.1.tag = .repOutOfLine ∨ memory.2 address = none)
    (haddress : address < 2 ^ 64) :
    ∃ next, unsafeAddDim isPartial address size n memory = .ok next ∧
      Becomes address memory (dims ++ [size]) next := by
  rcases storeDim_spec has hvalid.2.1 husable haddress with ⟨next, hnext, hlays⟩
  have hlength := hvalid.1
  have hnd : (dims ++ [size]).length = memory.1.ndimsByte + 1 := by
    rw [has.ndims_eq, List.length_append, List.length_singleton]
  have hsame :
      SamePayload ((next.1.setNdimsByte (memory.1.ndimsByte + 1)).setNumElements n) next.1 :=
    SamePayload.setNumElements.trans .setNdimsByte
  have htag : ((next.1.setNdimsByte (memory.1.ndimsByte + 1)).setNumElements n).tag = next.1.tag :=
    tag_setNumElements.trans tag_setNdimsByte
  rw [unsafeAddDim, hnext]
  refine ⟨_, rfl, ?_, ?_, ?_⟩
  · refine ⟨⟨?_, hlength, ?_, hlays.laidOut.congr htag hsame⟩, hn⟩
    · rw [hnd]
      apply ndimsByte_setNdimsByte
      rw [← hnd]
      exact hlength.trans_lt (by decide)
    · exact List.forall_mem_append.mpr ⟨has.lt_of_mem, List.forall_mem_singleton.mpr hsize⟩
  · exact dataType_setNdimsByte.trans hlays.dataType_eq
  · exact hlays.keeps.of_rep htag fun _ => hsame.dims64_eq

theorem addDim_spec (hholds : Holds memory.2 memory.1 dims) (hvalid : ValidDims isPartial dims)
    (hsize : size < 2 ^ 63) (husable : memory.1.tag = .repOutOfLine ∨ memory.2 address = none)
    (haddress : address < 2 ^ 64) :
    GivesIf (ValidDims isPartial (dims ++ [size])) (Becomes address memory (dims ++ [size]))
      (addDim isPartial address size memory) := by
  have hiff := hvalid.concat_iff size
  have hadd : ∀ {n}, ValidDims isPartial (dims ++ [size]) → n = elementsOf (dims ++ [size]) →
      GivesIf (ValidDims isPartial (dims ++ [size])) (Becomes address memory (dims ++ [size]))
        (unsafeAddDim isPartial address size n memory) := by
    intro n hvalid' hn
    rcases unsafeAddDim_spec hholds.toHasDims hvalid' hsize hn husable haddress with
      ⟨next, hnext, hbecomes⟩
    rw [hnext]
    exact .ok hvalid' hbecomes
  rw [addDim]
  by_cases hneg : isPartial = false ∧ size < 0
  · rw [if_pos hneg]
    exact .checkFailed fun hvalid' => absurd ((hiff.mp hvalid').2.1 hneg.1) (not_le.mpr hneg.2)
  rw [if_neg hneg, hholds.not_unknownRank, if_neg Bool.false_ne_true, hholds.ndims_eq]
  have hknown : isPartial = false → 0 ≤ size := fun hpart =>
    not_lt.mp fun hlt => hneg ⟨hpart, hlt⟩
  by_cases hfull : maxDimensions ≤ dims.length
  · rw [if_pos hfull]
    exact .checkFailed fun hvalid' => absurd (hiff.mp hvalid').1 (not_lt.mpr hfull)
  rw [if_neg hfull, hholds.numElements_eq]
  have hroom := not_le.mp hfull
  by_cases hunknown : isPartial = true ∧ (elementsOf dims < 0 ∨ size < 0)
  · rw [if_pos hunknown]
    rw [elementsOf_neg_iff] at hunknown
    apply hadd
    · refine hiff.mpr ⟨hroom, hknown, fun hdims hnonneg => ?_⟩
      rcases hunknown.2 with hnot | hlt
      · exact absurd hdims hnot
      · exact absurd hnonneg (not_le.mpr hlt)
    · rw [elementsOf_concat, if_neg]
      rintro ⟨hdims, hnonneg⟩
      rcases hunknown.2 with hnot | hlt
      · exact hnot hdims
      · exact not_le.mpr hlt hnonneg
  · rw [if_neg hunknown]
    -- All dimensions are known.
    have hall : (∀ size ∈ dims, 0 ≤ size) ∧ 0 ≤ size := by
      rcases hpart : isPartial with _ | _
      · exact ⟨hvalid.2.1 hpart, hknown hpart⟩
      · rw [not_and, not_or, elementsOf_neg_iff, not_not, not_lt] at hunknown
        exact hunknown hpart
    rcases hall with ⟨hdims, hnonneg⟩
    have helements : elementsOf dims = dims.prod := if_pos hdims
    rcases multiplyWithoutOverflow_spec (List.prod_nonneg hdims) (hvalid.prod_lt hdims) hnonneg
        hsize
      with ⟨n, hn, hexact, hover⟩
    rw [helements, hn, Except.bind]
    rcases lt_or_ge (dims.prod * size) (2 ^ 63) with hlt | hge
    · have heq := hexact hlt
      rw [if_neg (by rw [heq]; exact not_lt.mpr (mul_nonneg (List.prod_nonneg hdims) hnonneg))]
      apply hadd (hiff.mpr ⟨hroom, hknown, fun _ _ => hlt⟩)
      rw [elementsOf_concat, if_pos ⟨hdims, hnonneg⟩, heq]
    · rw [if_pos (hover hge)]
      exact .checkFailed fun hvalid' =>
        absurd ((hiff.mp hvalid').2.2 hdims hnonneg) (not_lt.mpr hge)

theorem addDims_spec {vals : List ℤ} (hholds : Holds memory.2 memory.1 dims)
    (hvalid : ValidDims isPartial dims) (hvals : ∀ size ∈ vals, size < 2 ^ 63)
    (husable : memory.1.tag = .repOutOfLine ∨ memory.2 address = none)
    (haddress : address < 2 ^ 64) :
    GivesIf (ValidDims isPartial (dims ++ vals)) (Becomes address memory (dims ++ vals))
      (addDims isPartial address vals memory) := by
  induction vals generalizing memory dims with
  | nil =>
      rw [List.append_nil, addDims]
      exact .ok hvalid (.refl hholds husable)
  | cons val vals ih =>
      rcases List.forall_mem_cons.mp hvals with ⟨hval, hrest⟩
      have hassoc : dims ++ val :: vals = (dims ++ [val]) ++ vals := by
        rw [List.append_assoc, List.singleton_append]
      rw [addDims, hassoc]
      by_cases hvalid' : ValidDims isPartial (dims ++ [val])
      · rcases (addDim_spec hholds hvalid hval husable haddress).1 hvalid' with
          ⟨next, hnext, hbecomes⟩
        rw [hnext, Except.bind]
        apply (ih hbecomes.holds hvalid' hrest hbecomes.keeps.usable).imp
        intro last hlast
        exact hbecomes.trans hlast
      · rw [(addDim_spec hholds hvalid hval husable haddress).2 hvalid', Except.bind]
        exact .checkFailed fun hall => hvalid' (hall.of_prefix (List.prefix_append _ _))

/-! ## Clearing and refilling -/

theorem destroy_spec {heap : Heap} {rep : TensorShapeRep} (hlaid : LaidOut heap rep dims) :
    ∃ heap', destroy (rep, heap) = .ok heap' ∧
      (∀ other, (rep.tag = .repOutOfLine → other ≠ rep.dims64) → heap' other = heap other) ∧
      (∀ other, heap other = none → heap' other = none) := by
  rw [LaidOut] at hlaid
  rw [destroy]
  by_cases htag : rep.tag = .repOutOfLine
  · rw [htag] at hlaid
    rcases hlaid with ⟨vals, hvals, -⟩
    rw [if_pos htag, Heap.delete_of_some hvals]
    refine ⟨_, rfl, ?_, ?_⟩
    · intro other hother
      simp only [Function.update_of_ne (hother htag)]
    · intro other hfree
      by_cases heq : other = rep.dims64
      · rw [heq, Function.update_self]
      · rw [Function.update_of_ne heq, hfree]
  · rw [if_neg htag]
    exact ⟨heap, rfl, fun _ _ => rfl, fun _ hfree => hfree⟩

/-- A shape without dimensions, in the layout that a cleared shape has. -/
theorem holds_nil {heap : Heap} {rep : TensorShapeRep} (htag : rep.tag = .rep16)
    (hndims : rep.ndimsByte = 0) (helements : rep.numElements = 1) : Holds heap rep [] := by
  refine ⟨⟨hndims, by decide, fun _ hmem => absurd hmem List.not_mem_nil, ?_⟩, helements⟩
  rw [LaidOut, htag]
  exact ⟨by decide, fun _ _ hsize => by cases hsize⟩

theorem clearAllButDataType_spec (hlaid : LaidOut memory.2 memory.1 dims)
    (hfree : memory.2 address = none) :
    ∃ next, clearAllButDataType memory = .ok next ∧ Becomes address memory [] next := by
  rcases destroy_spec hlaid with ⟨heap, hheap, helse, hnone⟩
  have htag : (((memory.1.setTag .rep16).setNdimsByte 0).setNumElements 1).tag = .rep16 :=
    tag_setNumElements.trans (tag_setNdimsByte.trans tag_setTag)
  rw [clearAllButDataType, hheap]
  refine ⟨_, rfl, holds_nil htag ?_ rfl, ?_, ?_⟩
  · exact ndimsByte_setNdimsByte (by decide)
  · exact dataType_setNdimsByte.trans dataType_setTag
  · refine ⟨fun other _ hother => helse other hother, ?_, .inr (hnone address hfree)⟩
    intro hool
    cases htag.symm.trans hool

theorem validDims_nil : ValidDims isPartial [] := by
  refine ⟨by decide, nofun, ?_⟩
  intro known hknown _
  rcases List.mem_singleton.mp hknown with rfl
  decide

/-- The shape gets the dimensions in `vals`, which may be in another layout than the ones it had. -/
theorem refill_spec {vals dims' : List ℤ} (hlaid : LaidOut memory.2 memory.1 dims)
    (hreads : List.Forall₂ ReadsAs dims' vals) (hlt : ∀ size ∈ dims', size < 2 ^ 63)
    (hfree : memory.2 address = none) (haddress : address < 2 ^ 64) :
    GivesIf (ValidDims isPartial dims') (Becomes address memory dims')
      (refill isPartial address vals memory) := by
  rcases clearAllButDataType_spec hlaid hfree with ⟨next, hnext, hbecomes⟩
  rw [refill, hnext, Except.bind]
  apply GivesIf.congr _ (validDims_iff_of_readsAs hreads)
  apply (addDims_spec hbecomes.holds validDims_nil (lt_of_readsAs hreads (by decide) hlt)
    hbecomes.keeps.usable haddress).imp
  intro last hlast
  have hboth := hbecomes.trans hlast
  exact ⟨hboth.holds.of_readsAs hreads hlt, hboth.dataType_eq, hboth.keeps⟩

theorem insertDim_spec {d : ℤ} (hholds : Holds memory.2 memory.1 dims)
    (hvalid : ValidDims isPartial dims) (hsize : size < 2 ^ 63) (hfree : memory.2 address = none)
    (haddress : address < 2 ^ 64) :
    GivesIf (0 ≤ d ∧ d ≤ dims.length ∧ ValidDims isPartial (dims.insertIdx d.toNat size))
      (Becomes address memory (dims.insertIdx d.toNat size))
      (insertDim isPartial address d size memory) := by
  rw [insertDim, hholds.dims_eq]
  split_ifs with hcheck
  · apply GivesIf.checkFailed
    rintro ⟨hd, hd', hlength, hknown, -⟩
    have hlt : d.toNat ≤ dims.length := by omega
    rw [List.length_insertIdx_of_le_length hlt] at hlength
    rcases hcheck with hneg | hlarge | ⟨hpart, hneg⟩ | hfull
    · omega
    · omega
    · have hmem : size ∈ dims.insertIdx d.toNat size := (List.mem_insertIdx hlt).mpr (.inl rfl)
      exact absurd (hknown hpart size hmem) (not_le.mpr hneg)
    · omega
  · have hd : 0 ≤ d ∧ d ≤ dims.length := by omega
    rcases appendTo_spec hholds.toHasDims hvalid.2.1 with ⟨vals, hvals, hreads⟩
    rw [hvals, Except.bind]
    have hlt : ∀ size' ∈ dims.insertIdx d.toNat size, size' < 2 ^ 63 := by
      intro size' hmem
      rcases (List.mem_insertIdx (by omega)).mp hmem with rfl | hmem
      · exact hsize
      · exact hholds.lt_of_mem size' hmem
    apply (refill_spec hholds.laidOut (forall₂_readsAs_insertIdx hreads _ size) hlt hfree
      haddress).congr
    constructor
    · intro hvalid'
      exact ⟨hd.1, hd.2, hvalid'⟩
    · rintro ⟨-, -, hvalid'⟩
      exact hvalid'

/-! ## Counting the elements again -/

theorem countElements_spec {heap : Heap} {rep : TensorShapeRep} (has : HasDims heap rep dims)
    (hknown : isPartial = false → ∀ size ∈ dims, 0 ≤ size) (count d : ℕ)
    (hcount : d + count = dims.length) (hbefore : ∀ size ∈ dims.take d, 0 ≤ size)
    (hvalid : ValidDims isPartial (dims.take d)) :
    GivesIf (ValidDims isPartial dims) (fun n => n = elementsOf dims)
      (countElements isPartial heap rep count d (dims.take d).prod) := by
  induction count generalizing d with
  | zero =>
      rw [List.take_of_length_le (Nat.add_zero d ▸ hcount.ge)] at hbefore hvalid ⊢
      exact .ok hvalid (if_pos hbefore).symm
  | succ count ih =>
      have hlt : d < dims.length := by omega
      have htake : dims.take (d + 1) = dims.take d ++ [dims[d]] :=
        List.take_succ_eq_append_getElem hlt
      have hinitial : dims.take (d + 1) <+: dims := List.take_prefix _ _
      rcases dimSize_spec has hknown (List.getElem?_eq_getElem hlt) with ⟨read, hread, hreads⟩
      rw [countElements, hread, Except.bind]
      by_cases hunknown : isPartial = true ∧ read < 0
      · simp only [if_pos hunknown]
        have hneg : dims[d] < 0 := hreads.neg_iff.mp hunknown.2
        have hnot : ¬∀ size ∈ dims, 0 ≤ size := fun hall =>
          absurd (hall _ (List.getElem_mem hlt)) (not_le.mpr hneg)
        refine .ok ⟨has.length_le, fun hpart => ?_, fun known hinits hnonneg => ?_⟩ ?_
        · exact absurd (hpart.symm.trans hunknown.1) nofun
        · -- A prefix of known dimensions ends before this one.
          rw [List.mem_inits] at hinits
          have hshort : known.length ≤ d := by
            by_contra hlong
            have hmem : dims[d] ∈ known := by
              rw [List.prefix_iff_eq_take.mp hinits]
              exact List.mem_take_iff_getElem.mpr ⟨d, by omega, rfl⟩
            exact absurd (hnonneg _ hmem) (not_le.mpr hneg)
          apply hvalid.2.2 known _ hnonneg
          rw [List.mem_inits, List.prefix_take_iff]
          exact ⟨hinits, hshort⟩
        · rw [elementsOf, if_neg hnot]
      · simp only [if_neg hunknown]
        have hnonneg : 0 ≤ dims[d] := by
          rcases hpart : isPartial with _ | _
          · exact hknown hpart _ (List.getElem_mem hlt)
          · rw [not_and] at hunknown
            exact not_lt.mp (mt hreads.neg_iff.mpr (hunknown hpart))
        have hread' : read = dims[d] := hreads.eq_of_nonneg hnonneg
        have hnext : (dims.take (d + 1)).prod = (dims.take d).prod * dims[d] := by
          rw [htake, List.prod_append, List.prod_singleton]
        have hall : ∀ size ∈ dims.take (d + 1), 0 ≤ size := by
          rw [htake]
          exact List.forall_mem_append.mpr ⟨hbefore, List.forall_mem_singleton.mpr hnonneg⟩
        rcases multiplyWithoutOverflow_spec (List.prod_nonneg hbefore) (hvalid.prod_lt hbefore)
          hnonneg (has.lt_of_mem _ (List.getElem_mem hlt)) with ⟨n, hn, hexact, hover⟩
        rw [hread', hn, Except.bind]
        rcases lt_or_ge ((dims.take d).prod * dims[d]) (2 ^ 63) with hsmall | hlarge
        · rw [hexact hsmall, ← hnext, if_neg (not_lt.mpr (List.prod_nonneg hall))]
          apply ih (d + 1) (by omega) hall
          rw [htake]
          refine (hvalid.concat_iff _).mpr ⟨?_, fun _ => hnonneg, fun _ _ => hsmall⟩
          rw [List.length_take_of_le hlt.le]
          exact hlt.trans_le has.length_le
        · rw [if_pos (hover hlarge)]
          apply GivesIf.checkFailed
          intro hall'
          have hproduct := (hall'.of_prefix hinitial).prod_lt hall
          rw [hnext] at hproduct
          exact absurd hproduct (not_lt.mpr hlarge)

theorem recomputeNumElements_spec {address : ℕ} (has : HasDims memory.2 memory.1 dims)
    (hknown : isPartial = false → ∀ size ∈ dims, 0 ≤ size)
    (husable : memory.1.tag = .repOutOfLine ∨ memory.2 address = none) :
    GivesIf (ValidDims isPartial dims) (Becomes address memory dims)
      (recomputeNumElements isPartial memory) := by
  rw [recomputeNumElements, has.not_unknownRank, if_neg Bool.false_ne_true, has.ndims_eq]
  apply (countElements_spec has hknown dims.length 0 (Nat.zero_add _) nofun validDims_nil).map
  rintro n rfl
  refine ⟨⟨⟨has.ndims_eq, has.length_le, has.lt_of_mem, ?_⟩, rfl⟩, rfl, ?_⟩
  · exact has.laidOut.congr rfl .setNumElements
  · exact (KeepsOthers.refl husable).of_rep rfl fun _ => rfl

/-! ## Replacing and removing dimensions -/

section ReplaceDim

variable {d : ℕ} (has : HasDims memory.2 memory.1 dims) (hd : d < dims.length)
  (hknown : isPartial = false → 0 ≤ size)
  (husable : memory.1.tag = .repOutOfLine ∨ memory.2 address = none)

include has hd hknown husable

theorem laysOut_replace16 (htag : memory.1.tag = .rep16) (hsmall : size < kMaxRep16) :
    LaysOut address memory (dims.set d size)
      (memory.1.setDims16 d (packed isPartial kUnknownRep16 size), memory.2) := by
  have hlaid := has.laidOut
  rw [LaidOut, htag] at hlaid
  apply LaysOut.setDims16 htag (hd.trans_le hlaid.1) _ _ husable
  · rw [List.length_set]
    exact hlaid.1
  · apply hlaid.2.set hsmall
    · exact (dims16_setDims16 packed16_lt).trans (packed_eq hknown)
    · intro other _ hne
      exact dims16_setDims16_of_ne hne

theorem laysOut_replace32 (htag : memory.1.tag = .rep32) (hsmall : size < kMaxRep32) :
    LaysOut address memory (dims.set d size)
      (memory.1.setDims32 d (packed isPartial kUnknownRep32 size), memory.2) := by
  have hlaid := has.laidOut
  rw [LaidOut, htag] at hlaid
  apply LaysOut.setDims32 htag (hd.trans_le hlaid.1) _ _ husable
  · rw [List.length_set]
    exact hlaid.1
  · apply hlaid.2.set hsmall
    · exact (dims32_setDims32 packed32_lt).trans (packed_eq hknown)
    · intro other _ hne
      exact dims32_setDims32_of_ne hne

end ReplaceDim

theorem HasDims.of_laysOut {dims' : List ℤ} (has : HasDims memory.2 memory.1 dims)
    (hlays : LaysOut address memory dims' next) (hlength : dims'.length = dims.length)
    (hlt : ∀ size ∈ dims', size < 2 ^ 63) : HasDims next.2 next.1 dims' :=
  { ndims_eq := hlays.ndims_eq.trans (has.ndims_eq.trans hlength.symm)
    length_le := hlength.trans_le has.length_le
    lt_of_mem := hlt
    laidOut := hlays.laidOut }

/-- The dimensions are there, whether or not their number of elements is counted again. -/
theorem recount_spec {dims' : List ℤ} (has : HasDims next.2 next.1 dims')
    (hknown : isPartial = false → ∀ size ∈ dims', 0 ≤ size)
    (hdata : next.1.dataType = memory.1.dataType) (hkeeps : KeepsOthers address memory next) :
    GivesIf (ValidDims isPartial dims') (Becomes address memory dims')
      (recomputeNumElements isPartial next) := by
  apply (recomputeNumElements_spec has hknown hkeeps.usable).imp
  intro last hlast
  exact ⟨hlast.holds, hlast.dataType_eq.trans hdata, hkeeps.trans hlast.keeps⟩

theorem replaceDim_spec {d : ℕ} (has : HasDims memory.2 memory.1 dims) (hd : d < dims.length)
    (hvalid : ValidDims isPartial dims) (hnonneg : 0 ≤ size)
    (hlt : ∀ size' ∈ dims.set d size, size' < 2 ^ 63) (hfree : memory.2 address = none)
    (haddress : address < 2 ^ 64) :
    (∃ next, replaceDim isPartial address d size memory = .ok next ∧
        LaysOut address memory (dims.set d size) next) ∨
      GivesIf (ValidDims isPartial (dims.set d size)) (Becomes address memory (dims.set d size))
        (replaceDim isPartial address d size memory) := by
  have hknown : isPartial = false → 0 ≤ size := fun _ => hnonneg
  rw [replaceDim]
  by_cases h16 : memory.1.tag = .rep16 ∧ size < kMaxRep16
  · rw [if_pos h16]
    exact .inl ⟨_, rfl, laysOut_replace16 has hd hknown (.inr hfree) h16.1 h16.2⟩
  rw [if_neg h16]
  by_cases h32 : memory.1.tag = .rep32 ∧ size < kMaxRep32
  · rw [if_pos h32]
    exact .inl ⟨_, rfl, laysOut_replace32 has hd hknown (.inr hfree) h32.1 h32.2⟩
  rw [if_neg h32]
  by_cases htag : memory.1.tag = .repOutOfLine
  · have hlaid := has.laidOut
    rw [LaidOut, htag] at hlaid
    rcases hlaid with ⟨vals, hvals, hreads⟩
    rw [if_pos htag, Heap.read_of_some hvals, Except.bind, if_pos (hreads.length_eq ▸ hd),
      Heap.write_of_some hvals]
    exact .inl ⟨_, rfl, .write htag (forall₂_readsAs_set hreads d size)⟩
  · rcases appendTo_spec has hvalid.2.1 with ⟨vals, hvals, hreads⟩
    rw [if_neg htag, hvals, Except.bind]
    exact .inr (refill_spec has.laidOut (forall₂_readsAs_set hreads d size) hlt hfree haddress)

theorem setDim_spec {d : ℤ} (hholds : Holds memory.2 memory.1 dims)
    (hvalid : ValidDims isPartial dims) (hsize : size < 2 ^ 63) (hfree : memory.2 address = none)
    (haddress : address < 2 ^ 64) :
    GivesIf (0 ≤ d ∧ d < dims.length ∧ 0 ≤ size ∧ ValidDims isPartial (dims.set d.toNat size))
      (Becomes address memory (dims.set d.toNat size))
      (setDim isPartial address d size memory) := by
  rw [setDim, hholds.dims_eq]
  split_ifs with hcheck
  · apply GivesIf.checkFailed
    rintro ⟨hd, hd', hnonneg, -⟩
    omega
  have hd : 0 ≤ d ∧ d < dims.length := by omega
  have hd' : d.toNat < dims.length := by omega
  have hnonneg : 0 ≤ size := by omega
  have hlt : ∀ size' ∈ dims.set d.toNat size, size' < 2 ^ 63 := by
    intro size' hmem
    rcases List.mem_or_eq_of_mem_set hmem with hmem | rfl
    · exact hholds.lt_of_mem size' hmem
    · exact hsize
  have hknown : isPartial = false → ∀ size' ∈ dims.set d.toNat size, 0 ≤ size' := by
    intro hpart size' hmem
    rcases List.mem_or_eq_of_mem_set hmem with hmem | rfl
    · exact hvalid.2.1 hpart size' hmem
    · exact hnonneg
  have hiff : ValidDims isPartial (dims.set d.toNat size) ↔
      0 ≤ d ∧ d < dims.length ∧ 0 ≤ size ∧ ValidDims isPartial (dims.set d.toNat size) :=
    ⟨fun hvalid' => ⟨hd.1, hd.2, hnonneg, hvalid'⟩, fun hall => hall.2.2.2⟩
  apply GivesIf.congr _ hiff
  rcases replaceDim_spec hholds.toHasDims hd' hvalid hnonneg hlt hfree haddress with
    ⟨next, hnext, hlays⟩ | hgives
  · rw [hnext, Except.bind]
    apply recount_spec _ hknown hlays.dataType_eq hlays.keeps
    exact hholds.toHasDims.of_laysOut hlays List.length_set hlt
  · apply hgives.bind id
    intro next hnext
    exact recount_spec hnext.holds.toHasDims hknown hnext.dataType_eq hnext.keeps

/-- The bound of a range, which may be counted from the end. -/
def rangeBound (dims : List ℤ) (bound : ℤ) : ℤ :=
  if bound < 0 then dims.length + bound + 1 else bound

theorem removeDimRange_spec {begin' end' : ℤ} (hholds : Holds memory.2 memory.1 dims)
    (hvalid : ValidDims isPartial dims) (hfree : memory.2 address = none)
    (haddress : address < 2 ^ 64) {first last : ℤ} (hfirst : first = rangeBound dims begin')
    (hlast : last = rangeBound dims end') {dims' : List ℤ}
    (hdims' : dims' =
      if last ≤ first then dims else dims.take first.toNat ++ dims.drop last.toNat) :
    GivesIf (0 ≤ first ∧ first ≤ dims.length ∧ 0 ≤ last ∧ last ≤ dims.length ∧
        ValidDims isPartial dims')
      (Becomes address memory dims') (removeDimRange isPartial address begin' end' memory) := by
  rw [removeDimRange, hholds.not_unknownRank, if_neg Bool.false_ne_true, hholds.dims_eq]
  rw [rangeBound] at hfirst hlast
  simp only [← hfirst, ← hlast]
  split_ifs with hcheck hempty
  · apply GivesIf.checkFailed
    rintro ⟨hfirst, hfirst', hlast, hlast', -⟩
    omega
  · rw [if_pos hempty] at hdims'
    subst hdims'
    exact .ok ⟨by omega, by omega, by omega, by omega, hvalid⟩ (.refl hholds (.inr hfree))
  · rw [if_neg hempty] at hdims'
    rcases appendTo_spec hholds.toHasDims hvalid.2.1 with ⟨vals, hvals, hreads⟩
    have hreads' : List.Forall₂ ReadsAs dims' (vals.take first.toNat ++ vals.drop last.toNat) := by
      rw [hdims']
      exact forall₂_readsAs_append (List.forall₂_take _ hreads) (List.forall₂_drop _ hreads)
    have hsubset : ∀ size ∈ dims', size ∈ dims := by
      intro size hmem
      rw [hdims', List.mem_append] at hmem
      rcases hmem with hmem | hmem
      · exact List.mem_of_mem_take hmem
      · exact List.mem_of_mem_drop hmem
    have hiff : ValidDims isPartial dims' ↔ 0 ≤ first ∧ first ≤ dims.length ∧ 0 ≤ last ∧
        last ≤ dims.length ∧ ValidDims isPartial dims' :=
      ⟨fun hvalid' => ⟨by omega, by omega, by omega, by omega, hvalid'⟩, fun hall => hall.2.2.2.2⟩
    rw [hvals, Except.bind]
    apply GivesIf.congr _ hiff
    apply (refill_spec hholds.laidOut hreads' (fun size hmem => hholds.lt_of_mem size
      (hsubset size hmem)) hfree haddress).bind id
    intro next hnext
    apply recount_spec hnext.holds.toHasDims _ hnext.dataType_eq hnext.keeps
    intro hpart size hmem
    exact hvalid.2.1 hpart size (hsubset size hmem)

/-! ## Construction -/

/-- A new shape, or one whose dimensions and data type are all replaced. -/
structure Starts (address : ℕ) (memory : Memory) (dims : List ℤ) (dataType : ℕ) (next : Memory) :
    Prop where
  holds : Holds next.2 next.1 dims
  dataType_eq : next.1.dataType = dataType
  keeps : KeepsOthers address memory next

/-- A size that is small without its sign is not negative. -/
theorem nonneg_of_uint64_le (hge : -2 ^ 63 ≤ size) (hlt : size < 2 ^ 63)
    (hsmall : uint64 size ≤ kMaxSmall) : 0 ≤ size ∧ size ≤ kMaxSmall := by
  rw [uint64] at hsmall
  have hmax : (kMaxSmall : ℤ) < 2 ^ 63 := by decide
  rcases lt_or_ge size 0 with hneg | hnonneg
  · have hmod : size % 2 ^ 64 = size + 2 ^ 64 := by
      rw [← Int.add_emod_right, Int.emod_eq_of_lt (by omega) (by omega)]
    omega
  · rw [Int.emod_eq_of_lt hnonneg (by omega)] at hsmall
    omega

theorem setAll16_spec (isPartial : Bool) {vals : List ℤ} {d : ℕ} (rep : TensorShapeRep)
    (hroom : d + vals.length ≤ 6)
    (hsmall : ∀ val ∈ vals, 0 ≤ val ∧ val ≤ kMaxSmall) :
    ∃ rep', setAll16 isPartial d vals rep = .ok (rep', false) ∧ rep'.tag = rep.tag ∧
      rep'.ndimsByte = rep.ndimsByte ∧ rep'.dataType = rep.dataType ∧
      (∀ before < d, rep'.dims16 before = rep.dims16 before) ∧
      PackedDims kUnknownRep16 kMaxRep16 (fun index => rep'.dims16 (d + index)) vals := by
  induction vals generalizing d rep with
  | nil => exact ⟨rep, rfl, rfl, rfl, rfl, fun _ _ => rfl, nofun⟩
  | cons val vals ih =>
      rw [List.length_cons] at hroom
      rcases List.forall_mem_cons.mp hsmall with ⟨⟨hnonneg, hle⟩, hvals⟩
      have hd : d < 6 := by omega
      have hval : (val % 2 ^ 16).toNat = packed true kUnknownRep16 val := by
        rw [packed, if_neg (by simp [hnonneg])]
        rfl
      have hset : set16 isPartial d val rep =
          .ok (rep.setDims16 d (packed true kUnknownRep16 val), false) := by
        rw [set16, hval, if_neg (not_lt.mpr hnonneg), if_neg (not_lt.mpr hnonneg), ite_self]
      rcases ih (d := d + 1) (rep.setDims16 d (packed true kUnknownRep16 val)) (by omega) hvals with
        ⟨rep', hrep', htag, hndims, hdata, hbefore, hpacked⟩
      refine ⟨rep', ?_, htag.trans (tag_setDims16 hd), hndims.trans (ndimsByte_setDims16 hd),
        hdata.trans (dataType_setDims16 hd), ?_, ?_⟩
      · rw [setAll16, hset, Except.bind, hrep']
        rfl
      · intro before hlt
        rw [hbefore before (by omega), dims16_setDims16_of_ne (by omega)]
      · intro index size hindex
        rcases index with _ | index
        · rw [List.getElem?_cons_zero, Option.some.injEq] at hindex
          subst hindex
          refine ⟨lt_of_le_of_lt hle (by decide), ?_⟩
          simp only [Nat.add_zero]
          rw [hbefore d (Nat.lt_succ_self d), dims16_setDims16 packed16_lt]
        · rw [List.getElem?_cons_succ] at hindex
          simp only [← Nat.add_assoc, Nat.add_right_comm d index 1]
          exact hpacked index size hindex

theorem prod_le_pow {bound : ℤ} {sizes : List ℤ}
    (hsizes : ∀ size ∈ sizes, 0 ≤ size ∧ size ≤ bound) :
    sizes.prod ≤ bound ^ sizes.length := by
  induction sizes with
  | nil => rw [List.prod_nil, List.length_nil, pow_zero]
  | cons size sizes ih =>
      rcases List.forall_mem_cons.mp hsizes with ⟨⟨hnonneg, hle⟩, hrest⟩
      rw [List.prod_cons, List.length_cons, pow_succ']
      exact mul_le_mul hle (ih hrest) (List.prod_nonneg fun size hmem => (hrest size hmem).1)
        (hnonneg.trans hle)

/-- Four small sizes cannot overflow. -/
theorem validDims_of_small (hlength : dims.length ≤ 4)
    (hsmall : ∀ size ∈ dims, 0 ≤ size ∧ size ≤ kMaxSmall) : ValidDims isPartial dims := by
  refine ⟨hlength.trans (by decide), fun _ size hmem => (hsmall size hmem).1, ?_⟩
  intro known hinits _
  have hinitial := (List.mem_inits _ _).mp hinits
  calc
    known.prod ≤ (kMaxSmall : ℤ) ^ known.length :=
      prod_le_pow fun size hmem => hsmall size (hinitial.subset hmem)
    _ ≤ (kMaxSmall : ℤ) ^ 4 :=
      pow_le_pow_right₀ (by decide) (hinitial.length_le.trans hlength)
    _ < 2 ^ 63 := by decide

theorem initDims_spec {dimSizes : List ℤ} (htag : memory.1.tag = .rep16)
    (hint : ∀ size ∈ dimSizes, -2 ^ 63 ≤ size ∧ size < 2 ^ 63) (hfree : memory.2 address = none)
    (haddress : address < 2 ^ 64) :
    GivesIf (ValidDims isPartial dimSizes) (Becomes address memory dimSizes)
      (initDims isPartial address dimSizes memory) := by
  rw [initDims]
  split_ifs with hfast
  · rcases hfast with ⟨hlarge, hone, hfour⟩
    have hsmall : ∀ size ∈ dimSizes, 0 ≤ size ∧ size ≤ kMaxSmall := by
      intro size hmem
      have hle := List.any_eq_false.mp hlarge size hmem
      apply nonneg_of_uint64_le (hint size hmem).1 (hint size hmem).2
      simpa using hle
    rcases setAll16_spec isPartial (d := 0) (memory.1.setNdimsByte dimSizes.length) (by omega)
        hsmall with
      ⟨rep, hrep, htag', hndims, hdata, -, hpacked⟩
    rw [tag_setNdimsByte, htag] at htag'
    rw [hrep]
    apply GivesIf.ok (validDims_of_small hfour hsmall)
    refine ⟨⟨⟨?_, hfour.trans (by decide), fun size hmem => (hint size hmem).2, ?_⟩, ?_⟩,
      hdata.trans dataType_setNdimsByte, ?_⟩
    · exact hndims.trans (ndimsByte_setNdimsByte (by omega))
    · apply LaidOut.congr _ tag_setNumElements .setNumElements
      rw [LaidOut, htag']
      simp only [Nat.zero_add] at hpacked
      exact ⟨hfour.trans (by decide), hpacked⟩
    · exact (if_pos fun size hmem => (hsmall size hmem).1).symm
    · refine ⟨fun _ _ _ => rfl, ?_, .inr hfree⟩
      intro hool
      cases htag'.symm.trans hool
  · -- The dimensions are added to a shape without any.
    have htag' : ((memory.1.setNdimsByte 0).setNumElements 1).tag = .rep16 :=
      tag_setNumElements.trans (tag_setNdimsByte.trans htag)
    have hnil : Holds memory.2 ((memory.1.setNdimsByte 0).setNumElements 1) [] :=
      holds_nil htag' (ndimsByte_setNdimsByte (by decide)) rfl
    have hadd : GivesIf (ValidDims isPartial dimSizes)
        (Becomes address ((memory.1.setNdimsByte 0).setNumElements 1, memory.2) dimSizes)
        (addDims isPartial address dimSizes
          ((memory.1.setNdimsByte 0).setNumElements 1, memory.2)) :=
      addDims_spec hnil validDims_nil (fun size hmem => (hint size hmem).2) (.inr hfree) haddress
    apply hadd.imp
    intro next hnext
    refine ⟨hnext.holds, hnext.dataType_eq.trans dataType_setNdimsByte, ?_⟩
    apply KeepsOthers.trans _ hnext.keeps
    apply (KeepsOthers.refl (.inr hfree)).of_rep (tag_setNumElements.trans tag_setNdimsByte)
    intro hool
    cases htag.symm.trans hool

/-- The memory of a new shape names no vector, whatever its bytes are. -/
theorem keepsOthers_of_tag {heap : Heap} {blank rep : TensorShapeRep} (htag : rep.tag = .rep16)
    (hfree : heap address = none) : KeepsOthers address (blank, heap) (rep, heap) := by
  refine ⟨fun _ _ _ => rfl, ?_, .inr hfree⟩
  intro hool
  cases htag.symm.trans hool

theorem construct_spec {dimSizes : List ℤ}
    (hint : ∀ size ∈ dimSizes, -2 ^ 63 ≤ size ∧ size < 2 ^ 63) (hfree : memory.2 address = none)
    (haddress : address < 2 ^ 64) :
    GivesIf (ValidDims isPartial dimSizes)
      (Starts address (memory.1.setTag .rep16, memory.2) dimSizes 0)
      (construct isPartial address dimSizes memory) := by
  have htag : ((memory.1.setTag .rep16).setDataType 0).tag = .rep16 :=
    tag_setDataType.trans tag_setTag
  have hinit : GivesIf (ValidDims isPartial dimSizes)
      (Becomes address ((memory.1.setTag .rep16).setDataType 0, memory.2) dimSizes)
      (construct isPartial address dimSizes memory) := initDims_spec htag hint hfree haddress
  apply hinit.imp
  intro next hnext
  refine ⟨hnext.holds, hnext.dataType_eq.trans (dataType_setDataType (by decide)), ?_⟩
  exact (keepsOthers_of_tag htag hfree).trans hnext.keeps

/-! ## Copies -/

/-- `SlowCopyFrom` copies all but the number of elements. -/
theorem slowCopyFrom_spec {heap : Heap} {dims' : List ℤ} {b rep : TensorShapeRep}
    (hb : HasDims heap b dims) (hlaid : LaidOut heap rep dims') (hfree : heap address = none)
    (haddress : address < 2 ^ 64) (helements : rep.numElements = elementsOf dims) :
    ∃ next, slowCopyFrom address b (rep, heap) = .ok next ∧
      Starts address (rep, heap) dims b.dataType next := by
  rw [slowCopyFrom]
  by_cases hinline : b.tag ≠ .repOutOfLine
  · rcases destroy_spec hlaid with ⟨heap', hheap, helse, hnone⟩
    rw [if_pos hinline, hheap]
    refine ⟨_, rfl, ⟨⟨hb.ndims_eq, hb.length_le, hb.lt_of_mem, ?_⟩, helements⟩, rfl, ?_⟩
    · exact hb.laidOut.heap_congr fun hool => absurd hool hinline
    · refine ⟨fun other _ hother => helse other hother, ?_, .inr (hnone address hfree)⟩
      intro hool
      exact absurd hool hinline
  · have hool : b.tag = .repOutOfLine := not_not.mp hinline
    have hblaid := hb.laidOut
    rw [LaidOut, hool] at hblaid
    rcases hblaid with ⟨vals, hvals, hreads⟩
    have hsame : SamePayload ((rep.setNdimsByte b.ndimsByte).setDataType b.dataType)
        rep := SamePayload.setDataType.trans .setNdimsByte
    have htag : ((rep.setNdimsByte b.ndimsByte).setDataType b.dataType).tag = rep.tag :=
      tag_setDataType.trans tag_setNdimsByte
    have hndims : ((rep.setNdimsByte b.ndimsByte).setDataType b.dataType).ndimsByte =
        dims.length := by
      rw [ndimsByte_setDataType, hb.ndims_eq]
      exact ndimsByte_setNdimsByte (hb.length_le.trans_lt (by decide))
    have hdata : ((rep.setNdimsByte b.ndimsByte).setDataType b.dataType).dataType =
        b.dataType := dataType_setDataType (Bytes.load_lt b.buf 13 1)
    have hkeeps : KeepsOthers address (rep, heap)
        ((rep.setNdimsByte b.ndimsByte).setDataType b.dataType, heap) :=
      (KeepsOthers.refl (.inr hfree)).of_rep htag fun _ => hsame.dims64_eq
    have hfinish : ∀ {next}, LaysOut address
        ((rep.setNdimsByte b.ndimsByte).setDataType b.dataType, heap) dims next →
        next.1.numElements = rep.numElements →
        Starts address (rep, heap) dims b.dataType next := by
      intro next hlays hnumber
      refine ⟨⟨⟨hlays.ndims_eq.trans hndims, hb.length_le, hb.lt_of_mem, hlays.laidOut⟩,
        hnumber.trans helements⟩, hlays.dataType_eq.trans hdata, hkeeps.trans hlays.keeps⟩
    rw [if_neg hinline, Heap.read_of_some hvals, Except.bind]
    split_ifs with hmemory
    · rw [LaidOut, htag.symm.trans hmemory] at hlaid
      rcases hlaid with ⟨vals', hvals', -⟩
      rw [← hsame.dims64_eq] at hvals'
      rw [Heap.write_of_some hvals']
      exact ⟨_, rfl, hfinish (.write hmemory hreads) rfl⟩
    · rw [Heap.new_of_none hfree]
      exact ⟨_, rfl, hfinish (laysOut_new haddress hreads) rfl⟩

theorem copyConstruct_spec (memory : Memory) {b : TensorShapeRep} (hb : Holds memory.2 b dims)
    (hfree : memory.2 address = none) (haddress : address < 2 ^ 64) :
    ∃ next, copyConstruct address b memory = .ok next ∧
      Starts address (memory.1.setTag .rep16, memory.2) dims b.dataType next := by
  rw [copyConstruct]
  by_cases hinline : b.tag ≠ .repOutOfLine
  · rw [if_pos hinline]
    refine ⟨_, rfl, ⟨hb.toHasDims, hb.numElements_eq⟩, rfl, ?_⟩
    refine ⟨fun _ _ _ => rfl, ?_, .inr hfree⟩
    intro hool
    exact absurd hool hinline
  · rw [if_neg hinline]
    have htag : ((memory.1.setNumElements b.numElements).setTag .rep16).tag = .rep16 := tag_setTag
    have hnil : LaidOut memory.2 ((memory.1.setNumElements b.numElements).setTag .rep16) [] := by
      rw [LaidOut, htag]
      exact ⟨by decide, fun _ _ hsize => by cases hsize⟩
    rcases slowCopyFrom_spec hb.toHasDims hnil hfree haddress hb.numElements_eq with
      ⟨next, hnext, hstarts⟩
    refine ⟨next, hnext, hstarts.holds, hstarts.dataType_eq, ?_⟩
    exact (keepsOthers_of_tag htag hfree).trans hstarts.keeps

theorem assign_spec (memory : Memory) {b : TensorShapeRep} {dims' : List ℤ}
    (hb : Holds memory.2 b dims)
    (hold : LaidOut memory.2 memory.1 dims') (hfree : memory.2 address = none)
    (haddress : address < 2 ^ 64) :
    ∃ next, Shapes.assign address b memory = .ok next ∧
      Starts address memory dims b.dataType next := by
  rw [Shapes.assign, tag_setNumElements]
  by_cases hinline : memory.1.tag ≠ .repOutOfLine ∧ b.tag ≠ .repOutOfLine
  · rw [if_pos hinline]
    refine ⟨_, rfl, ⟨hb.toHasDims, hb.numElements_eq⟩, rfl, ?_⟩
    refine ⟨fun _ _ _ => rfl, ?_, .inr hfree⟩
    intro hool
    exact absurd hool hinline.2
  · rw [if_neg hinline]
    have hlaid : LaidOut memory.2 (memory.1.setNumElements b.numElements) dims' :=
      hold.congr rfl .setNumElements
    rcases slowCopyFrom_spec hb.toHasDims hlaid hfree haddress hb.numElements_eq with
      ⟨next, hnext, hstarts⟩
    have hnumber : KeepsOthers address memory (memory.1.setNumElements b.numElements, memory.2) :=
      (KeepsOthers.refl (.inr hfree)).of_rep rfl fun _ => rfl
    exact ⟨next, hnext, hstarts.holds, hstarts.dataType_eq, hnumber.trans hstarts.keeps⟩

/-! ## Clearing and the data type -/

theorem Holds.setDataType {heap : Heap} {rep : TensorShapeRep} (hholds : Holds heap rep dims)
    (dataType : ℕ) : Holds heap (rep.setDataType dataType) dims :=
  { ndims_eq := ndimsByte_setDataType.trans hholds.ndims_eq
    length_le := hholds.length_le
    lt_of_mem := hholds.lt_of_mem
    laidOut := hholds.laidOut.congr tag_setDataType .setDataType
    numElements_eq := hholds.numElements_eq }

theorem setDataType_spec {dataType : ℕ} (hholds : Holds memory.2 memory.1 dims)
    (hfree : memory.2 address = none) (hlt : dataType < 256) :
    Starts address memory dims dataType (memory.1.setDataType dataType, memory.2) := by
  refine ⟨hholds.setDataType dataType, dataType_setDataType hlt, ?_⟩
  exact (KeepsOthers.refl (.inr hfree)).of_rep tag_setDataType fun _ =>
    SamePayload.setDataType.dims64_eq

theorem clear_spec (hlaid : LaidOut memory.2 memory.1 dims) (hfree : memory.2 address = none) :
    ∃ next, clear memory = .ok next ∧ Starts address memory [] 0 next := by
  rcases clearAllButDataType_spec hlaid hfree with ⟨next, hnext, hbecomes⟩
  rw [clear, hnext]
  refine ⟨_, rfl, hbecomes.holds.setDataType 0, dataType_setDataType (by decide), ?_⟩
  exact hbecomes.keeps.of_rep tag_setDataType fun _ => SamePayload.setDataType.dims64_eq

end ContainerScheduler.Analysis
