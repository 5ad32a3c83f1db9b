/-
# Dimensions and shapes of shape inference

A dimension is known or not, and so is the rank of a shape. A handle is what it points to: handles of
equal dimensions are not told apart.
-/

import Mathlib.Algebra.Order.Ring.Int

namespace ContainerScheduler.Shapes

namespace ShapeInference

/-! ## Dimensions -/

def kUnknownDim : ℤ := -1

/-- Non-negative, or `kUnknownDim`, as the `DCHECK`s of the constructors say. -/
structure Dimension where
  value : ℤ
  valid : value = kUnknownDim ∨ 0 ≤ value ∧ value < 2 ^ 63
  deriving DecidableEq

inductive DimensionOrConstant
  | handle (dim : Dimension)
  | constant (val : Dimension)
  deriving DecidableEq

/-- The value that is stored in an `int64`. -/
def asInt64 (number : ℤ) : ℤ := number.bmod (2 ^ 64)

inductive DimensionError
  /-- Divisor must be positive. -/
  | notPositive (divisor : ℤ)
  /-- Dimension size must be evenly divisible. -/
  | notDivisible (divisor dividend : ℤ)
  /-- Dimension size overflow from adding. -/
  | addOverflow (first second : ℤ)
  /-- Negative dimension size caused by subtracting. -/
  | negativeDifference (second first : ℤ)
  /-- Negative dimension size caused by overflow when multiplying. -/
  | multiplyOverflow (first second : ℤ)
  deriving DecidableEq

namespace DimensionOrConstant

/-- `MakeDim`. -/
def makeDim : DimensionOrConstant → Dimension
  | handle dim => dim
  | constant val => val

def value (d : DimensionOrConstant) : ℤ := d.makeDim.value

def isSet : DimensionOrConstant → Bool
  | handle _ => true
  | constant _ => false

end DimensionOrConstant

def unknownDim : Dimension := ⟨kUnknownDim, .inl rfl⟩

theorem asInt64_lt (number : ℤ) : asInt64 number < 2 ^ 63 :=
  Int.bmod_lt (by decide)

theorem Dimension.known {dim : Dimension} (hknown : dim.value ≠ kUnknownDim) :
    0 ≤ dim.value ∧ dim.value < 2 ^ 63 := dim.valid.resolve_left hknown

theorem tdiv_valid {dividend divisor : ℤ} (hdividend : 0 ≤ dividend ∧ dividend < 2 ^ 63)
    (hdivisor : 0 < divisor) :
    0 ≤ dividend.tdiv divisor ∧ dividend.tdiv divisor < 2 ^ 63 := by
  rw [Int.tdiv_eq_ediv_of_nonneg hdividend.1]
  exact ⟨Int.ediv_nonneg hdividend.1 hdivisor.le,
    (Int.ediv_le_self divisor hdividend.1).trans_lt hdividend.2⟩

def divide (dividend : Dimension) (divisor : DimensionOrConstant) (evenlyDivisible : Bool) :
    Except DimensionError Dimension :=
  if divisor.value = 1 then .ok dividend
  else if hunknown :
      dividend.value = kUnknownDim ∨ divisor.isSet ∧ divisor.value = kUnknownDim then
    .ok unknownDim
  else if hpositive : divisor.value ≤ 0 then .error (.notPositive divisor.value)
  else if evenlyDivisible ∧ dividend.value.tmod divisor.value ≠ 0 then
    .error (.notDivisible divisor.value dividend.value)
  else .ok ⟨dividend.value.tdiv divisor.value, .inr (tdiv_valid
    (Dimension.known fun heq => hunknown (.inl heq)) (not_le.mp hpositive))⟩

def add (first : Dimension) (second : DimensionOrConstant) : Except DimensionError Dimension :=
  if first.value = 0 then .ok second.makeDim
  else if second.value = 0 then .ok first
  else if first.value = kUnknownDim ∨ second.value = kUnknownDim then .ok unknownDim
  else
    -- the sum of `uint64`s, as an `int64`
    let sum := asInt64 (first.value + second.value)
    if hsum : sum < 0 then .error (.addOverflow first.value second.value)
    else .ok ⟨sum, .inr ⟨not_lt.mp hsum, asInt64_lt _⟩⟩

def subtract (first : Dimension) (second : DimensionOrConstant) :
    Except DimensionError Dimension :=
  if second.value = 0 then .ok first
  else if hunknown : first.value = kUnknownDim ∨ second.value = kUnknownDim then .ok unknownDim
  else if hless : first.value < second.value then
    .error (.negativeDifference second.value first.value)
  else .ok ⟨first.value - second.value, .inr ⟨sub_nonneg.mpr (not_lt.mp hless),
    (sub_le_self first.value (Dimension.known fun heq => hunknown (.inr heq)).1).trans_lt
      (Dimension.known fun heq => hunknown (.inl heq)).2⟩⟩

def multiply (first : Dimension) (second : DimensionOrConstant) :
    Except DimensionError Dimension :=
  if first.value = 0 then .ok first
  else if second.value = 0 then .ok second.makeDim
  else if first.value = 1 then .ok second.makeDim
  else if second.value = 1 then .ok first
  else if first.value = kUnknownDim ∨ second.value = kUnknownDim then .ok unknownDim
  else
    let product := asInt64 (first.value * second.value)
    if hproduct : product < 0 then .error (.multiplyOverflow first.value second.value)
    else .ok ⟨product, .inr ⟨not_lt.mp hproduct, asInt64_lt _⟩⟩

def min (first : Dimension) (second : DimensionOrConstant) : Except DimensionError Dimension :=
  if first.value = 0 then .ok first
  else if second.value = 0 then .ok second.makeDim
  else if first.value = kUnknownDim ∨ second.value = kUnknownDim then .ok unknownDim
  else if first.value ≤ second.value then .ok first
  else .ok second.makeDim

def max (first : Dimension) (second : DimensionOrConstant) : Except DimensionError Dimension :=
  if first.value = kUnknownDim ∨ second.value = kUnknownDim then .ok unknownDim
  else if first.value ≥ second.value then .ok first
  else .ok second.makeDim

/-! ## Shapes -/

/-- A shape, or `none` if its rank is unknown. -/
abbrev Shape := Option (List Dimension)

def kint64max : ℤ := 2 ^ 63 - 1

/-- The value that is stored in an `int`. -/
def asInt (number : ℤ) : ℤ := number.bmod (2 ^ 32)

inductive SubshapeError
  /-- Subshape start out of bounds. -/
  | startOutOfBounds (startIn : ℤ) (rank : ℕ)
  /-- Subshape end out of bounds. -/
  | endOutOfBounds (endIn : ℤ) (rank : ℕ)
  /-- Subshape must have computed start <= end. -/
  | startBehindEnd (start stop startIn endIn : ℤ) (rank : ℕ)
  /-- Subshape must have computed start >= end since stride is negative. -/
  | startBeforeEnd (start stop startIn endIn : ℤ) (rank : ℕ) (stride : ℤ)
  /-- An access behind the dimensions, or in front of them. -/
  | fault
  deriving DecidableEq

/-- `DimKnownRank`. -/
def dimAt (dims : List Dimension) (idx : ℤ) : Option Dimension :=
  let idx := if idx < 0 then dims.length + idx else idx
  if 0 ≤ idx then dims[idx.toNat]? else none

/-- The loop, which may not end. -/
def subshapeLoop (dims : List Dimension) (stop stride : ℤ) :
    (fuel : ℕ) → (i : ℤ) → (selected : List Dimension) →
      Option (Except SubshapeError (List Dimension))
  | 0, _, _ => none
  | fuel + 1, i, selected =>
      if if stride > 0 then i < stop else i > stop then
        match dimAt dims i with
        | none => some (.error .fault)
        | some dim =>
            subshapeLoop dims stop stride fuel (asInt (asInt64 (i + stride))) (selected ++ [dim])
      else some (.ok selected)

/-- The part of `Subshape` behind the adjustment of the bounds. -/
def subshapeBetween (fuel : ℕ) (dims : List Dimension) (start stop startIn endIn stride : ℤ) :
    Option (Except SubshapeError Shape) :=
  if stride > 0 ∧ start > stop then
    some (.error (.startBehindEnd start stop startIn endIn dims.length))
  else if stride < 0 ∧ start < stop then
    some (.error (.startBeforeEnd start stop startIn endIn dims.length stride))
  else
    (subshapeLoop dims stop stride fuel (asInt start) []).map fun outcome => outcome.map some

def subshape (fuel : ℕ) (s : Shape) (startIn endIn stride : ℤ) :
    Option (Except SubshapeError Shape) :=
  if startIn = 0 ∧ stride = 1 ∧
      (s.any (fun dims => endIn ≥ dims.length) ∨ endIn = kint64max) then
    some (.ok s)
  else
    match s with
    | none => some (.ok none)
    | some dims =>
        let rank : ℤ := dims.length
        let start := if startIn > rank then rank else startIn
        let stop := if endIn > rank then rank else endIn
        let start := if stride < 0 ∧ start = rank then start - 1 else start
        let start' := if start < 0 then rank + start else start
        let stop' := if stop < 0 then rank + stop else stop
        if start' < 0 then some (.error (.startOutOfBounds startIn dims.length))
        else if stop' < 0 then some (.error (.endOutOfBounds endIn dims.length))
        else subshapeBetween fuel dims start' stop' startIn endIn stride

/-! ## Slices of constant shapes -/

/-- What `PartialStridedSliceShape` finds at a node and at its inputs. -/
structure SliceNode where
  /-- The first dimensions of the index inputs. -/
  indexSizes : List Dimension
  beginMask : ℤ
  endMask : ℤ
  ellipsisMask : ℤ
  newAxisMask : ℤ
  shrinkAxisMask : ℤ
  /-- The constants at the index inputs, if they were evaluated. -/
  begins : Option ℤ
  ends : Option ℤ
  strides : Option ℤ
  /-- The input as a constant partial shape. -/
  input : Shape

/-- An unknown shape is the answer if something is missing. -/
def partialStridedSliceShape (fuel : ℕ) (node : SliceNode) : Option (Except SubshapeError Shape) :=
  if node.indexSizes.any fun size => size.value ≠ 1 then some (.ok none)
  else if ¬(node.beginMask = 0 ∨ node.beginMask = 1) ∨ ¬(node.endMask = 0 ∨ node.endMask = 1) ∨
      node.ellipsisMask ≠ 0 ∨ node.newAxisMask ≠ 0 ∨ node.shrinkAxisMask ≠ 0 then
    some (.ok none)
  else
    match (if node.beginMask = 1 then some 0 else node.begins),
      (if node.endMask = 1 then some kint64max else node.ends), node.strides with
    | some start, some stop, some stride => subshape fuel node.input start stop stride
    | _, _, _ => some (.ok none)

end ShapeInference

end ContainerScheduler.Shapes
