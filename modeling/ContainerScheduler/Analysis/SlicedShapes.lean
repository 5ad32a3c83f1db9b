/-
# Slices of shapes

A slice of a shape at graph construction, by `Subshape`, against the same slice of the vector of its
dimensions at run time. The loop of `Subshape` selects what the slice selects unless its index wraps
to a number in front of the bound.
-/

import ContainerScheduler.Analysis.PythonSlices
import ContainerScheduler.Shapes.ShapeInference

namespace ContainerScheduler.Analysis

open Math
open Shapes.ShapeInference
open Slicing

/-! ## The loop -/

section Loop

variable {dims selected picked : List Dimension} {first stop step i : ℤ} {fuel : ℕ}

/-- An index that is to be at or behind the bound stays there as an `int`. -/
def NoDetour (first stop step : ℤ) : Prop :=
  ∀ number ∈ progression first stop step, ¬ ComesBefore step (number + step) stop →
    ¬ ComesBefore step (asInt (number + step)) stop

theorem asInt_asInt64 (number : ℤ) : asInt (asInt64 number) = asInt number :=
  Int.bmod_bmod_of_dvd (by decide)

theorem asInt_of_small {number : ℤ} (hlow : -2 ^ 31 ≤ number) (hhigh : number < 2 ^ 31) :
    asInt number = number :=
  Int.bmod_eq_of_le (by omega) (by omega)

theorem subshapeLoop_stop (hbehind : ¬ ComesBefore step i stop) :
    subshapeLoop dims stop step (fuel + 1) i selected = some (.ok selected) := by
  rw [subshapeLoop]
  exact if_neg hbehind

theorem subshapeLoop_next (hbefore : ComesBefore step i stop) :
    subshapeLoop dims stop step (fuel + 1) i selected =
      match dimAt dims i with
      | none => some (.error .fault)
      | some dim =>
          subshapeLoop dims stop step fuel (asInt (i + step)) (selected ++ [dim]) := by
  rw [subshapeLoop, asInt_asInt64]
  exact if_pos hbefore

/-- Whatever the index does, a dimension is added for every round. -/
theorem length_of_subshapeLoop
    (hok : subshapeLoop dims stop step fuel i selected = some (.ok picked)) :
    selected.length + (if ComesBefore step i stop then 1 else 0) ≤ picked.length := by
  induction fuel generalizing i selected with
  | zero => cases hok
  | succ fuel ih =>
      by_cases hbefore : ComesBefore step i stop
      · rw [subshapeLoop_next hbefore] at hok
        cases hdim : dimAt dims i with
        | none =>
            rw [hdim] at hok
            cases hok
        | some dim =>
            rw [hdim] at hok
            have hle := ih hok
            rw [List.length_append, List.length_singleton] at hle
            rw [if_pos hbefore]
            omega
      · rw [subshapeLoop_stop hbefore] at hok
        cases hok
        rw [if_neg hbefore]
        exact le_rfl

/-- The dimensions at some positions. -/
def PicksAt (dims : List Dimension) (positions : List ℤ) (picked : List Dimension) : Prop :=
  picked.map some = positions.map fun number => dims[number.toNat]?

theorem dimAt_of_within {number : ℤ} (hnumber : 0 ≤ number ∧ number < dims.length) :
    ∃ dim, dimAt dims number = some dim ∧ dims[number.toNat]? = some dim := by
  have hlt : number.toNat < dims.length := by omega
  refine ⟨dims[number.toNat], ?_, List.getElem?_eq_getElem hlt⟩
  simp only [dimAt, if_neg (not_lt.mpr hnumber.1), if_pos hnumber.1]
  exact List.getElem?_eq_getElem hlt

/-- The bounds between which all positions of a loop lie. -/
structure WithinRank (dims : List Dimension) (first stop step : ℤ) : Prop where
  rank_lt : (dims.length : ℤ) < 2 ^ 31
  within : ∀ number ∈ progression first stop step, 0 ≤ number ∧ number < dims.length

theorem WithinRank.next (hwithin : WithinRank dims first stop step) (hstep : step ≠ 0)
    (hbefore : ComesBefore step first stop) : WithinRank dims (first + step) stop step := by
  refine ⟨hwithin.rank_lt, fun number hnumber => hwithin.within number ?_⟩
  rw [progression_cons hstep hbefore]
  exact List.mem_cons_of_mem first hnumber

theorem WithinRank.asInt_eq (hwithin : WithinRank dims first stop step) (hstep : step ≠ 0)
    (hbefore : ComesBefore step first stop) : asInt first = first := by
  have hrank := hwithin.rank_lt
  obtain ⟨hlow, hhigh⟩ := hwithin.within first (by
    rw [progression_cons hstep hbefore]
    exact List.mem_cons_self)
  exact asInt_of_small (by omega) (by omega)

theorem noDetour_cons (hstep : step ≠ 0) (hbefore : ComesBefore step first stop) :
    NoDetour first stop step ↔
      (¬ ComesBefore step (first + step) stop → ¬ ComesBefore step (asInt (first + step)) stop) ∧
        NoDetour (first + step) stop step := by
  rw [NoDetour, progression_cons hstep hbefore, List.forall_mem_cons]
  rfl

/-- The loop selects the progression if the index makes no detour, and more otherwise. -/
theorem subshapeLoop_iff (hstep : step ≠ 0) (hwithin : WithinRank dims first stop step)
    (hfirst : ¬ ComesBefore step first stop → ¬ ComesBefore step (asInt first) stop) :
    (∃ fuel picked, subshapeLoop dims stop step fuel (asInt first) selected =
        some (.ok (selected ++ picked)) ∧ PicksAt dims (progression first stop step) picked) ↔
      NoDetour first stop step := by
  induction hn : (progression first stop step).length generalizing first selected with
  | zero =>
      have hnil := List.eq_nil_of_length_eq_zero hn
      have hbehind : ¬ ComesBefore step first stop := fun hbefore => by
        rw [progression_cons hstep hbefore] at hnil
        cases hnil
      refine iff_of_true ⟨1, [], ?_, ?_⟩ ?_
      · rw [subshapeLoop_stop (hfirst hbehind), List.append_nil]
      · rw [PicksAt, hnil]
        rfl
      · rw [NoDetour, hnil]
        exact fun _ hnumber => absurd hnumber List.not_mem_nil
  | succ n ih =>
      have hbefore : ComesBefore step first stop := by
        by_contra hbehind
        rw [progression_nil hbehind] at hn
        cases hn
      have hcons := progression_cons hstep hbefore
      obtain ⟨dim, hdim, hget⟩ := dimAt_of_within (hwithin.within first (hcons ▸ List.mem_cons_self))
      rw [hwithin.asInt_eq hstep hbefore, noDetour_cons hstep hbefore, hcons]
      rw [hcons, List.length_cons, Nat.add_right_cancel_iff] at hn
      -- the rest of the loop, after this round
      have hround : ∀ fuel, subshapeLoop dims stop step (fuel + 1) first selected =
          subshapeLoop dims stop step fuel (asInt (first + step)) (selected ++ [dim]) := by
        intro fuel
        rw [subshapeLoop_next hbefore, hdim]
      by_cases hnext :
          ¬ ComesBefore step (first + step) stop → ¬ ComesBefore step (asInt (first + step)) stop
      · rw [and_iff_right hnext,
          ← @ih (selected ++ [dim]) (first + step) (hwithin.next hstep hbefore) hnext hn]
        constructor
        · rintro ⟨fuel, picked, hok, hpicks⟩
          cases fuel with
          | zero => cases hok
          | succ fuel =>
              rw [hround] at hok
              cases picked with
              | nil => cases hpicks
              | cons dim' picked =>
                  obtain ⟨hdim', hpicks⟩ := List.cons.inj hpicks
                  obtain rfl : dim' = dim := Option.some.inj (hdim'.trans hget)
                  exact ⟨fuel, picked, by rw [hok, List.append_assoc]; rfl, hpicks⟩
        · rintro ⟨fuel, picked, hok, hpicks⟩
          refine ⟨fuel + 1, dim :: picked, ?_, ?_⟩
          · rw [hround, hok, List.append_assoc]
            rfl
          · rw [PicksAt, List.map_cons, List.map_cons, hget]
            exact congrArg (some dim :: ·) hpicks
      · obtain ⟨hbehind, hdetour⟩ := Classical.not_imp.mp hnext
        refine iff_of_false ?_ fun hno => hnext hno.1
        rintro ⟨fuel, picked, hok, hpicks⟩
        cases fuel with
        | zero => cases hok
        | succ fuel =>
            rw [hround] at hok
            have hle := length_of_subshapeLoop hok
            have hlength := congrArg List.length hpicks
            rw [progression_nil hbehind, List.length_map, List.length_map, List.length_singleton]
              at hlength
            rw [if_pos (not_not.mp hdetour), List.length_append, List.length_append, hlength,
              List.length_singleton] at hle
            omega

end Loop

/-! ## The bounds -/

section Bounds

variable {dims : List Dimension} {positions : List ℤ} {start stop startIn endIn stride : ℤ}

/-- The bounds that `Subshape` computes. -/
def shapeStart (rank startIn stride : ℤ) : ℤ :=
  let start := if startIn > rank then rank else startIn
  let start := if stride < 0 ∧ start = rank then start - 1 else start
  if start < 0 then rank + start else start

def shapeStop (rank endIn : ℤ) : ℤ :=
  let stop := if endIn > rank then rank else endIn
  if stop < 0 then rank + stop else stop

/-- A call ends with the dimensions at these positions. -/
def EndsWith (call : ℕ → Option (Except SubshapeError Shape)) (dims : List Dimension)
    (positions : List ℤ) : Prop :=
  ∃ fuel picked, call fuel = some (.ok (some picked)) ∧ PicksAt dims positions picked

/-- The call takes all dimensions at once. -/
def TakesAll (rank startIn endIn stride : ℤ) : Prop :=
  startIn = 0 ∧ stride = 1 ∧ (endIn ≥ rank ∨ endIn = kint64max)

theorem subshape_takesAll (fuel : ℕ) (hall : TakesAll dims.length startIn endIn stride) :
    subshape fuel (some dims) startIn endIn stride = some (.ok (some dims)) := by
  rw [subshape, if_pos]
  simpa [TakesAll] using hall

theorem endsWith_subshape_iff (hall : ¬ TakesAll dims.length startIn endIn stride) :
    EndsWith (fun fuel => subshape fuel (some dims) startIn endIn stride) dims positions ↔
      0 ≤ shapeStart dims.length startIn stride ∧ 0 ≤ shapeStop dims.length endIn ∧
      EndsWith (fun fuel => subshapeBetween fuel dims (shapeStart dims.length startIn stride)
        (shapeStop dims.length endIn) startIn endIn stride) dims positions := by
  have hcall : ∀ fuel, subshape fuel (some dims) startIn endIn stride =
      if shapeStart dims.length startIn stride < 0 then
        some (.error (.startOutOfBounds startIn dims.length))
      else if shapeStop dims.length endIn < 0 then
        some (.error (.endOutOfBounds endIn dims.length))
      else
        subshapeBetween fuel dims (shapeStart dims.length startIn stride)
          (shapeStop dims.length endIn) startIn endIn stride := by
    intro fuel
    rw [subshape, if_neg (by simpa [TakesAll] using hall)]
    rfl
  simp only [EndsWith, hcall]
  constructor
  · rintro ⟨fuel, picked, hok, hpicks⟩
    split_ifs at hok with hstart hstop
    · cases hok
    · cases hok
    · exact ⟨not_lt.mp hstart, not_lt.mp hstop, fuel, picked, hok, hpicks⟩
  · rintro ⟨hstart, hstop, fuel, picked, hok, hpicks⟩
    refine ⟨fuel, picked, ?_, hpicks⟩
    rw [if_neg (not_lt.mpr hstart), if_neg (not_lt.mpr hstop)]
    exact hok

theorem endsWith_between_iff :
    EndsWith (fun fuel => subshapeBetween fuel dims start stop startIn endIn stride) dims
        positions ↔
      (if 0 < stride then start ≤ stop else stride < 0 → stop ≤ start) ∧
      ∃ fuel picked, subshapeLoop dims stop stride fuel (asInt start) [] =
        some (.ok ([] ++ picked)) ∧ PicksAt dims positions picked := by
  have hmap : ∀ fuel picked,
      ((subshapeLoop dims stop stride fuel (asInt start) []).map fun outcome =>
          outcome.map some) = some (.ok (some picked)) ↔
        subshapeLoop dims stop stride fuel (asInt start) [] = some (.ok ([] ++ picked)) := by
    intro fuel picked
    rw [List.nil_append]
    rcases subshapeLoop dims stop stride fuel (asInt start) [] with _ | (error | picked')
    · simp
    · simp [Except.map]
    · simp [Except.map]
  simp only [EndsWith, subshapeBetween]
  constructor
  · rintro ⟨fuel, picked, hok, hpicks⟩
    by_cases hbehind : stride > 0 ∧ start > stop
    · rw [if_pos hbehind] at hok
      cases hok
    by_cases hbefore : stride < 0 ∧ start < stop
    · rw [if_neg hbehind, if_pos hbefore] at hok
      cases hok
    rw [if_neg hbehind, if_neg hbefore] at hok
    refine ⟨?_, fuel, picked, (hmap _ _).mp hok, hpicks⟩
    split_ifs with hpos
    · exact not_lt.mp fun hlt => hbehind ⟨hpos, hlt⟩
    · exact fun hneg => not_lt.mp fun hlt => hbefore ⟨hneg, hlt⟩
  · rintro ⟨horder, fuel, picked, hok, hpicks⟩
    refine ⟨fuel, picked, ?_, hpicks⟩
    rw [if_neg, if_neg]
    · exact (hmap _ _).mpr hok
    · rintro ⟨hneg, hlt⟩
      rw [if_neg hneg.le.not_gt] at horder
      exact absurd (horder hneg) (not_le.mpr hlt)
    · rintro ⟨hpos, hlt⟩
      rw [if_pos hpos] at horder
      exact absurd horder (not_le.mpr hlt)

end Bounds

/-! ## The two slices -/

/-- A slice of a vector, without other masks than those of its bounds. -/
structure VectorSlice where
  begin_i : ℤ
  end_i : ℤ
  stride_i : ℤ
  beginMasked : Bool
  endMasked : Bool

namespace VectorSlice

variable (slice : VectorSlice) (dims : List Dimension) (rank : ℤ)

/-- At run time. -/
def written : WrittenSlice where
  begins := [slice.begin_i]
  ends := [slice.end_i]
  strides := [slice.stride_i]
  beginMask := if slice.beginMasked then 1 else 0
  endMask := if slice.endMasked then 1 else 0
  ellipsisMask := 0
  newAxisMask := 0
  shrinkAxisMask := 0

def oneIndex : Dimension := ⟨1, .inr ⟨by decide, by decide⟩⟩

/-- At graph construction. -/
def node : SliceNode where
  indexSizes := [oneIndex, oneIndex, oneIndex]
  beginMask := if slice.beginMasked then 1 else 0
  endMask := if slice.endMasked then 1 else 0
  ellipsisMask := 0
  newAxisMask := 0
  shrinkAxisMask := 0
  begins := some slice.begin_i
  ends := some slice.end_i
  strides := some slice.stride_i
  input := some dims

/-- The adjusted bounds. -/
def first : ℤ :=
  ((if slice.beginMasked then none else some slice.begin_i).map
    (adjusted rank slice.stride_i)).getD (if 0 < slice.stride_i then 0 else rank - 1)

def stop : ℤ :=
  ((if slice.endMasked then none else some slice.end_i).map
    (adjusted rank slice.stride_i)).getD (if 0 < slice.stride_i then rank else -1)

/-- Bounds that `Subshape` adjusts to the same range, without an error. -/
def SameRange : Prop :=
  if 0 < slice.stride_i then
    (slice.beginMasked = true ∨ -rank ≤ slice.begin_i) ∧
      (slice.endMasked = true ∨ -rank ≤ slice.end_i) ∧ slice.first rank ≤ slice.stop rank
  else
    0 < rank ∧ (if slice.beginMasked then rank = 1 else -rank ≤ slice.begin_i) ∧
      slice.endMasked = false ∧ -rank ≤ slice.end_i ∧ slice.end_i < rank ∧
        slice.stop rank ≤ slice.first rank

/-- The arguments of `Subshape`. -/
def startIn : ℤ := if slice.beginMasked then 0 else slice.begin_i

def endIn : ℤ := if slice.endMasked then kint64max else slice.end_i

theorem partialStridedSliceShape_node (fuel : ℕ) :
    partialStridedSliceShape fuel (slice.node dims) =
      subshape fuel (some dims) slice.startIn slice.endIn slice.stride_i := by
  obtain ⟨begin_i, end_i, stride_i, beginMasked, endMasked⟩ := slice
  cases beginMasked <;> cases endMasked <;>
    simp [partialStridedSliceShape, node, startIn, endIn, oneIndex]

variable {slice dims rank}

section Positive

variable (hrank : 0 ≤ rank ∧ rank < 2 ^ 31) (hpos : 0 < slice.stride_i)
include hrank hpos

theorem shapeStart_pos :
    (0 ≤ shapeStart rank slice.startIn slice.stride_i ↔
      slice.beginMasked = true ∨ -rank ≤ slice.begin_i) ∧
    (0 ≤ shapeStart rank slice.startIn slice.stride_i →
      shapeStart rank slice.startIn slice.stride_i = slice.first rank) := by
  obtain ⟨begin_i, end_i, stride_i, beginMasked, endMasked⟩ := slice
  obtain ⟨hlow, hhigh⟩ := hrank
  cases beginMasked <;>
    simp only [shapeStart, startIn, first, adjusted, Bool.false_eq_true, if_false, if_true,
      Option.map_some, Option.map_none, Option.getD_some, Option.getD_none, false_or, true_or,
      if_pos hpos, hpos.le.not_gt, false_and, iff_true] <;>
    split_ifs <;> omega

theorem shapeStop_pos :
    (0 ≤ shapeStop rank slice.endIn ↔ slice.endMasked = true ∨ -rank ≤ slice.end_i) ∧
    (0 ≤ shapeStop rank slice.endIn → shapeStop rank slice.endIn = slice.stop rank) := by
  obtain ⟨begin_i, end_i, stride_i, beginMasked, endMasked⟩ := slice
  obtain ⟨hlow, hhigh⟩ := hrank
  cases endMasked <;>
    simp only [shapeStop, endIn, stop, adjusted, kint64max, Bool.false_eq_true, if_false, if_true,
      Option.map_some, Option.map_none, Option.getD_some, Option.getD_none, false_or, true_or,
      if_pos hpos, iff_true] <;>
    split_ifs <;> omega

end Positive

section Negative

variable (hrank : 0 ≤ rank ∧ rank < 2 ^ 31) (hneg : slice.stride_i < 0)
include hrank hneg

theorem shapeStart_neg :
    (0 ≤ shapeStart rank slice.startIn slice.stride_i ↔
      0 < rank ∧ (slice.beginMasked = true ∨ -rank ≤ slice.begin_i)) ∧
    (0 ≤ shapeStart rank slice.startIn slice.stride_i →
      shapeStart rank slice.startIn slice.stride_i < rank ∧
      shapeStart rank slice.startIn slice.stride_i =
        if slice.beginMasked = true then 0 else slice.first rank) := by
  obtain ⟨begin_i, end_i, stride_i, beginMasked, endMasked⟩ := slice
  obtain ⟨hlow, hhigh⟩ := hrank
  have hnot : ¬ 0 < stride_i := hneg.le.not_gt
  cases beginMasked <;>
    simp only [shapeStart, startIn, first, adjusted, Bool.false_eq_true, if_false, if_true,
      Option.map_some, Option.map_none, Option.getD_some, Option.getD_none, false_or, true_or,
      and_true, if_neg hnot, show stride_i < 0 from hneg, true_and] <;>
    split_ifs <;> omega

theorem shapeStop_neg :
    (0 ≤ shapeStop rank slice.endIn ∧ shapeStop rank slice.endIn < rank ↔
      0 < rank ∧ slice.endMasked = false ∧ -rank ≤ slice.end_i ∧ slice.end_i < rank) ∧
    (0 ≤ shapeStop rank slice.endIn → shapeStop rank slice.endIn < rank →
      shapeStop rank slice.endIn = slice.stop rank) := by
  obtain ⟨begin_i, end_i, stride_i, beginMasked, endMasked⟩ := slice
  obtain ⟨hlow, hhigh⟩ := hrank
  have hnot : ¬ 0 < stride_i := hneg.le.not_gt
  cases endMasked <;>
    simp only [shapeStop, endIn, stop, adjusted, kint64max, Bool.false_eq_true, if_false, if_true,
      Option.map_some, Option.map_none, Option.getD_some, Option.getD_none, true_and,
      if_neg hnot, Bool.true_eq_false, false_and, and_false, iff_false] <;>
    split_ifs <;> omega

end Negative

/-- What the slice selects. -/
def selected (slice : VectorSlice) (rank : ℤ) : List ℤ :=
  progression (slice.first rank) (slice.stop rank) slice.stride_i

theorem withinRank (hstep : slice.stride_i ≠ 0) (hrank : (dims.length : ℤ) < 2 ^ 31) :
    WithinRank dims (slice.first dims.length) (slice.stop dims.length) slice.stride_i :=
  ⟨hrank, fun _ hnumber => mem_pythonSlice (Int.natCast_nonneg _) hstep hnumber⟩

theorem picksAt_all :
    PicksAt dims (progression 0 dims.length 1) dims := by
  rw [PicksAt, progression_zero_one, List.map_map]
  refine List.ext_getElem (by simp) fun n hn hn' => ?_
  rw [List.length_map] at hn
  simp [hn]

/-- All dimensions are taken at once only if they are selected. -/
theorem sameRange_of_takesAll (hrank : 0 ≤ rank ∧ rank < 2 ^ 31)
    (hall : TakesAll rank slice.startIn slice.endIn slice.stride_i) :
    slice.first rank = 0 ∧ slice.stop rank = rank ∧ slice.SameRange rank := by
  obtain ⟨hstart, hstride, hstop⟩ := hall
  have hpos : 0 < slice.stride_i := hstride ▸ one_pos
  have hstart' : shapeStart rank slice.startIn slice.stride_i = 0 := by
    simp only [hstart, shapeStart, if_neg hrank.1.not_gt, hpos.le.not_gt, false_and, if_false,
      lt_irrefl]
  have hstop' : shapeStop rank slice.endIn = rank := by
    have hle : rank ≤ slice.endIn := hstop.elim id fun heq => by
      rw [heq, kint64max]
      omega
    simp only [shapeStop]
    split_ifs <;> omega
  obtain ⟨hbegin, hfirst⟩ := shapeStart_pos hrank hpos
  obtain ⟨hend, hlast⟩ := shapeStop_pos hrank hpos
  have hfirst' := hfirst hstart'.ge
  have hlast' := hlast (hstop'.symm ▸ hrank.1)
  rw [hstart'] at hfirst'
  rw [hstop'] at hlast'
  refine ⟨hfirst'.symm, hlast'.symm, ?_⟩
  rw [SameRange, if_pos hpos, ← hfirst', ← hlast']
  exact ⟨hbegin.mp hstart'.ge, hend.mp (hstop'.symm ▸ hrank.1), hrank.1⟩

theorem noDetour_one (hrank : 0 ≤ rank ∧ rank < 2 ^ 31) : NoDetour 0 rank 1 := by
  intro number hnumber hbehind
  obtain ⟨hbefore, hlow⟩ := mem_progression one_ne_zero hnumber
  rw [ComesBefore, if_pos one_pos] at hbefore hbehind
  rw [if_pos one_pos] at hlow
  rw [asInt_of_small (by omega) (by omega), ComesBefore, if_pos one_pos]
  exact hbehind

/-- The loop, from bounds that are those of the slice. -/
theorem loop_iff (hstep : slice.stride_i ≠ 0) (hrank : (dims.length : ℤ) < 2 ^ 31)
    (hfirst : 0 ≤ slice.first dims.length) (hfirst' : slice.first dims.length ≤ dims.length) :
    (∃ fuel picked, subshapeLoop dims (slice.stop dims.length) slice.stride_i fuel
        (asInt (slice.first dims.length)) [] = some (.ok ([] ++ picked)) ∧
          PicksAt dims (slice.selected dims.length) picked) ↔
      NoDetour (slice.first dims.length) (slice.stop dims.length) slice.stride_i := by
  refine subshapeLoop_iff hstep (withinRank hstep hrank) fun hbehind => ?_
  rwa [asInt_of_small (by omega) (by omega)]

theorem first_le (hrank : 0 ≤ rank) : slice.first rank ≤ rank := by
  have hadjusted := @adjusted_le rank slice.stride_i hrank slice.begin_i
  rw [first]
  cases slice.beginMasked with
  | true =>
      rw [if_pos rfl, Option.map_none, Option.getD_none]
      split_ifs <;> omega
  | false =>
      rw [if_neg Bool.false_ne_true, Option.map_some, Option.getD_some]
      split_ifs at hadjusted <;> omega

theorem endsWith_subshape_pos (hpos : 0 < slice.stride_i) (hrank : (dims.length : ℤ) < 2 ^ 31)
    (hall : ¬ TakesAll dims.length slice.startIn slice.endIn slice.stride_i) :
    EndsWith (fun fuel => subshape fuel (some dims) slice.startIn slice.endIn slice.stride_i) dims
        (slice.selected dims.length) ↔
      slice.SameRange dims.length ∧
        NoDetour (slice.first dims.length) (slice.stop dims.length) slice.stride_i := by
  have hrank' : 0 ≤ (dims.length : ℤ) ∧ (dims.length : ℤ) < 2 ^ 31 := ⟨Int.natCast_nonneg _, hrank⟩
  obtain ⟨hbegin, hfirst⟩ := shapeStart_pos hrank' hpos
  obtain ⟨hend, hlast⟩ := shapeStop_pos hrank' hpos
  have hloop := fun hfirst hfirst' => loop_iff hpos.ne' hrank hfirst hfirst'
  rw [endsWith_subshape_iff hall, endsWith_between_iff, if_pos hpos, SameRange, if_pos hpos,
    ← hbegin, ← hend]
  constructor
  · rintro ⟨hstart, hstop, horder, hok⟩
    have heq := hfirst hstart
    rw [heq, hlast hstop] at horder hok
    exact ⟨⟨hstart, hstop, horder⟩, (hloop (heq ▸ hstart) (first_le hrank'.1)).mp hok⟩
  · rintro ⟨⟨hstart, hstop, horder⟩, hdetour⟩
    refine ⟨hstart, hstop, ?_, ?_⟩
    · rwa [hfirst hstart, hlast hstop]
    · rw [hfirst hstart, hlast hstop]
      exact (hloop (hfirst hstart ▸ hstart) (first_le hrank'.1)).mpr hdetour

theorem first_of_beginMasked (hneg : slice.stride_i < 0) (hmasked : slice.beginMasked = true) :
    slice.first rank = rank - 1 := by
  rw [first, if_pos hmasked, if_neg hneg.le.not_gt]
  rfl

theorem not_loop_of_beginMasked (hneg : slice.stride_i < 0) (hmasked : slice.beginMasked = true)
    (hrank : 1 < (dims.length : ℤ)) (hstop : slice.stop dims.length = 0) :
    ¬ ∃ fuel picked, subshapeLoop dims (slice.stop dims.length) slice.stride_i fuel
        (asInt 0) [] = some (.ok ([] ++ picked)) ∧
          PicksAt dims (slice.selected dims.length) picked := by
  rintro ⟨fuel, picked, hok, hpicks⟩
  have hnil : picked = [] := by
    cases fuel with
    | zero => cases hok
    | succ fuel =>
        rw [asInt_of_small (by omega) (by omega), subshapeLoop_stop] at hok
        · cases hok
          rfl
        · rw [ComesBefore, if_neg hneg.le.not_gt, hstop]
          exact lt_irrefl 0
  rw [hnil, PicksAt, selected, first_of_beginMasked hneg hmasked, hstop,
    progression_cons hneg.ne (by rw [ComesBefore, if_neg hneg.le.not_gt]; omega)] at hpicks
  cases hpicks

theorem endsWith_subshape_neg (hneg : slice.stride_i < 0) (hrank : (dims.length : ℤ) < 2 ^ 31)
    (hall : ¬ TakesAll dims.length slice.startIn slice.endIn slice.stride_i) :
    EndsWith (fun fuel => subshape fuel (some dims) slice.startIn slice.endIn slice.stride_i) dims
        (slice.selected dims.length) ↔
      slice.SameRange dims.length ∧
        NoDetour (slice.first dims.length) (slice.stop dims.length) slice.stride_i := by
  have hrank' : 0 ≤ (dims.length : ℤ) ∧ (dims.length : ℤ) < 2 ^ 31 := ⟨Int.natCast_nonneg _, hrank⟩
  obtain ⟨hbegin, hfirst⟩ := shapeStart_neg hrank' hneg
  obtain ⟨hend, hlast⟩ := shapeStop_neg hrank' hneg
  have hloop := fun hfirst hfirst' => loop_iff hneg.ne hrank hfirst hfirst'
  rw [endsWith_subshape_iff hall, endsWith_between_iff, if_neg hneg.le.not_gt, SameRange,
    if_neg hneg.le.not_gt]
  constructor
  · rintro ⟨hstart, hstop, horder, hok⟩
    obtain ⟨hlt, heq⟩ := hfirst hstart
    obtain ⟨hnonempty, hbegin⟩ := hbegin.mp hstart
    have horder := horder hneg
    obtain ⟨-, hunmasked, hlow, hhigh⟩ := hend.mp ⟨hstop, horder.trans_lt hlt⟩
    have heq' := hlast hstop (horder.trans_lt hlt)
    rw [heq'] at hstop horder hok
    by_cases hmasked : slice.beginMasked = true
    · rw [if_pos hmasked] at heq
      rw [heq] at horder hok
      by_cases hone : (dims.length : ℤ) = 1
      · have hzero : slice.first dims.length = 0 := by
          rw [first_of_beginMasked hneg hmasked, hone, sub_self]
        rw [← hzero] at horder hok
        rw [if_pos hmasked]
        exact ⟨⟨hnonempty, hone, hunmasked, hlow, hhigh, horder⟩,
          (hloop hzero.ge (first_le hrank'.1)).mp hok⟩
      · exact absurd hok (not_loop_of_beginMasked hneg hmasked (by omega) (by omega))
    · rw [if_neg hmasked] at heq
      rw [heq] at hstart horder hok
      rw [if_neg hmasked]
      exact ⟨⟨hnonempty, hbegin.resolve_left hmasked, hunmasked, hlow, hhigh, horder⟩,
        (hloop hstart (first_le hrank'.1)).mp hok⟩
  · rintro ⟨⟨hnonempty, hmask, hunmasked, hlow, hhigh, horder⟩, hdetour⟩
    obtain ⟨hstop, hlt⟩ := hend.mpr ⟨hnonempty, hunmasked, hlow, hhigh⟩
    have heq' := hlast hstop hlt
    have hstart := hbegin.mpr ⟨hnonempty, by
      by_cases hmasked : slice.beginMasked = true
      · exact .inl hmasked
      · exact .inr (by rwa [if_neg hmasked] at hmask)⟩
    have heq : shapeStart dims.length slice.startIn slice.stride_i = slice.first dims.length := by
      rw [(hfirst hstart).2]
      by_cases hmasked : slice.beginMasked = true
      · rw [if_pos hmasked] at hmask ⊢
        rw [first_of_beginMasked hneg hmasked, hmask, sub_self]
      · exact if_neg hmasked
    refine ⟨hstart, hstop, fun _ => by rwa [heq, heq'], ?_⟩
    rw [heq, heq']
    exact (hloop (heq ▸ hstart) (first_le hrank'.1)).mpr hdetour

theorem endsWith_iff (hstep : slice.stride_i ≠ 0) (hrank : (dims.length : ℤ) < 2 ^ 31) :
    EndsWith (fun fuel => partialStridedSliceShape fuel (slice.node dims)) dims
        (slice.selected dims.length) ↔
      slice.SameRange dims.length ∧
        NoDetour (slice.first dims.length) (slice.stop dims.length) slice.stride_i := by
  simp only [partialStridedSliceShape_node]
  by_cases hall : TakesAll dims.length slice.startIn slice.endIn slice.stride_i
  · have hrank' : 0 ≤ (dims.length : ℤ) ∧ (dims.length : ℤ) < 2 ^ 31 :=
      ⟨Int.natCast_nonneg _, hrank⟩
    obtain ⟨hfirst, hstop, hsame⟩ := sameRange_of_takesAll hrank' hall
    refine iff_of_true ⟨0, dims, subshape_takesAll 0 hall, ?_⟩ ⟨hsame, ?_⟩
    · rw [selected, hfirst, hstop, hall.2.1]
      exact picksAt_all
    · rw [hfirst, hstop, hall.2.1]
      exact noDetour_one hrank'
  · rcases lt_or_gt_of_ne hstep with hneg | hpos
    · exact endsWith_subshape_neg hneg hrank hall
    · exact endsWith_subshape_pos hpos hrank hall

/-! ### At run time -/

def subscript (slice : VectorSlice) : SliceSubscript where
  begin_i := slice.begin_i
  end_i := slice.end_i
  stride_i := slice.stride_i
  beginMasked := slice.beginMasked
  endMasked := slice.endMasked
  shrink := false

theorem axes_written : slice.written.axes 1 = [.given slice.subscript] := by
  have hitems : slice.written.items = [.given slice.subscript] := by
    obtain ⟨begin_i, end_i, stride_i, beginMasked, endMasked⟩ := slice
    cases beginMasked <;> cases endMasked <;>
      simp [WrittenSlice.items, WrittenSlice.itemAt, WrittenSlice.subscriptAt, written, subscript]
  have hindexed : slice.written.indexed = 1 := by
    rw [WrittenSlice.indexed, hitems]
    rfl
  have hexpression : slice.written.expression = [.given slice.subscript, .ellipsis] := by
    rw [WrittenSlice.expression, hitems]
    rfl
  rw [WrittenSlice.axes, WrittenSlice.entries, hindexed, hexpression]
  rfl

/-- The range that the operation returns. -/
theorem selected_of_validate {s : SliceShapes} (hrank : 0 ≤ rank)
    (hok : slice.written.validate [rank] = .ok s) :
    slice.stride_i ≠ 0 ∧ ∃ first stop step, s.begins = [first] ∧ s.ends = [stop] ∧
      s.strides = [step] ∧ progression first stop step = slice.selected rank := by
  have hknown : ∀ dim ∈ [rank], 0 ≤ dim := fun dim hdim => by rwa [List.mem_singleton.mp hdim]
  rcases @validate_spec slice.written [rank] rfl rfl (by simp [written])
    (by simp) hknown with ⟨s', hresult, hfollows, hright⟩ | ⟨⟨e, hresult⟩, -⟩
  · obtain rfl := Except.ok.inj (hresult.symm.trans hok)
    have haxis : (slice.written.axes 1)[0]? = some (.given slice.subscript) := by
      rw [axes_written]
      rfl
    refine ⟨fun hzero => hright (.inr (.inr ⟨0, Nat.one_pos, slice.subscript, haxis, ?_⟩)), ?_⟩
    · exact .inl hzero
    · obtain ⟨first, stop, step, hfirst, hstop, hstep, hselected⟩ :=
        (hfollows.selects 0 _ haxis).selected
      refine ⟨first, stop, step, ?_, ?_, ?_, hselected⟩
      · obtain ⟨first', heq⟩ := List.length_eq_one_iff.mp hfollows.length_begins
        rw [heq] at hfirst ⊢
        rw [Option.some.inj hfirst]
      · obtain ⟨stop', heq⟩ := List.length_eq_one_iff.mp hfollows.length_ends
        rw [heq] at hstop ⊢
        rw [Option.some.inj hstop]
      · obtain ⟨step', heq⟩ := List.length_eq_one_iff.mp hfollows.length_strides
        rw [heq] at hstep ⊢
        rw [Option.some.inj hstep]
  · cases hresult.symm.trans hok

end VectorSlice

/-- The slice of the shape is what the slice of the vector selects. -/
def SlicedAlike (slice : VectorSlice) (dims : List Dimension) (s : SliceShapes) : Prop :=
  ∃ first stop step, s.begins = [first] ∧ s.ends = [stop] ∧ s.strides = [step] ∧
    EndsWith (fun fuel => partialStridedSliceShape fuel (slice.node dims)) dims
      (progression first stop step)

/-- A shape is sliced at graph construction as at run time if and only if `Subshape` adjusts the
bounds to the same range and the `int` index does not wrap to a number in front of the bound. -/
theorem sliced_alike_iff (slice : VectorSlice) (dims : List Dimension)
    (hrank : (dims.length : ℤ) < 2 ^ 31) (s : SliceShapes)
    (hok : slice.written.validate [(dims.length : ℤ)] = .ok s) :
    SlicedAlike slice dims s ↔
      slice.SameRange dims.length ∧
        NoDetour (slice.first dims.length) (slice.stop dims.length) slice.stride_i := by
  obtain ⟨hstep, first, stop, step, hfirst, hstop, hstride, hselected⟩ :=
    VectorSlice.selected_of_validate (Int.natCast_nonneg _) hok
  rw [← VectorSlice.endsWith_iff hstep hrank, ← hselected]
  constructor
  · rintro ⟨first', stop', step', hfirst', hstop', hstride', hends⟩
    obtain ⟨rfl⟩ := List.singleton_inj.mp (hfirst.symm.trans hfirst')
    obtain ⟨rfl⟩ := List.singleton_inj.mp (hstop.symm.trans hstop')
    obtain ⟨rfl⟩ := List.singleton_inj.mp (hstride.symm.trans hstride')
    exact hends
  · exact fun hends => ⟨first, stop, step, hfirst, hstop, hstride, hends⟩

/-- The slice `[-3:-1:2]`. -/
def everySecond : VectorSlice := ⟨-3, -1, 2, false, false⟩

theorem sliced_alike_everySecond :
    SlicedAlike everySecond [unknownDim, unknownDim, unknownDim, unknownDim]
        { processingShape := [1], finalShape := [1], isIdentity := false, isSimpleSlice := false,
          sliceDim0 := false, begins := [1], ends := [3], strides := [2] } ↔
      everySecond.SameRange 4 ∧ NoDetour (everySecond.first 4) (everySecond.stop 4) 2 :=
  sliced_alike_iff everySecond [unknownDim, unknownDim, unknownDim, unknownDim] (by decide) _ rfl

/-- The slice `[-3:]` of two dimensions is clamped at run time and refused at graph construction. -/
theorem not_sliced_alike_of_clamped :
    ∃ s, (VectorSlice.mk (-3) 0 1 false true).written.validate [2] = .ok s ∧
      ¬ SlicedAlike (VectorSlice.mk (-3) 0 1 false true) [unknownDim, unknownDim] s := by
  refine ⟨_, rfl, ?_⟩
  rintro ⟨_, _, _, _, _, _, fuel, picked, hok, _⟩
  cases hok

end ContainerScheduler.Analysis
