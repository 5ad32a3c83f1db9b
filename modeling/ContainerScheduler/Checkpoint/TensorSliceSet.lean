/-
# The slices of a tensor in a checkpoint

A slice has an extent for each dimension: a start and a length, or the whole dimension. The
accessors and the sums are those of 64-bit integers, and a sum that leaves their range wraps.

The slices that are registered for one tensor do not overlap. They are kept under their text, in a
hash map whose order of iteration is `order`, with a hull that saves overlap tests. A query finds
the slices that a slice can be put together from.
-/

import ContainerScheduler.Math.Transition
import Mathlib.Algebra.BigOperators.Group.List.Basic
import Mathlib.Algebra.Order.Ring.Int

namespace ContainerScheduler.Checkpoint

/-- The value of a signed 64-bit result. -/
def int64 (value : ℤ) : ℤ := Int.bmod value (2 ^ 64)

/-- `starts_[d]` and `lengths_[d]`. -/
structure Extent where
  start : ℤ
  length : ℤ
  deriving DecidableEq, Repr

def kFullExtent : ℤ := -1

namespace Extent

variable (extent : Extent)

/-- `IsFullAt`. -/
def isFull : Prop := extent.length = kFullExtent ∧ extent.start = 0

instance : Decidable extent.isFull := inferInstanceAs (Decidable (_ ∧ _))

/-- `end(d)`. -/
def finish : ℤ := int64 (extent.start + extent.length)

/-- `StrAppend` of a 64-bit integer. -/
def strInt (value : ℤ) : List Char :=
  if value < 0 then '-' :: Nat.toDigits 10 value.natAbs else Nat.toDigits 10 value.natAbs

def debugString : List Char :=
  if extent.isFull then ['-'] else strInt extent.start ++ ',' :: strInt extent.length

/-- `Intersect` in one dimension. -/
def intersect (other : Extent) : Option Extent :=
  if extent.isFull then some other
  else if other.isFull then some extent
  else
    let start := max extent.start other.start
    let length := int64 (min extent.finish other.finish - start)
    if 0 < length then some ⟨start, length⟩ else none

/-- `UpdateToCover` in one dimension. -/
def updateToCover (other : Extent) : Extent :=
  if extent.isFull then extent
  else if other.isFull then ⟨0, kFullExtent⟩
  else
    let finish := max extent.finish other.finish
    let start := min extent.start other.start
    ⟨start, int64 (finish - start)⟩

end Extent

abbrev TensorSlice := List Extent

/-- Why a slice does not apply to a shape. -/
inductive SliceError
  | mismatchingRanks (shape : List ℤ) (slice : TensorSlice)
  | outOfBounds (dimension : ℕ) (shape : List ℤ) (slice : TensorSlice)
  /-- A `CHECK` of `AddDim` fails, and the process ends. -/
  | checkFailed
  deriving DecidableEq, Repr

/-- `TensorShape::AddDim`: at most 254 dimensions, and fewer than `2 ^ 63` elements. -/
def addDim (dims : List ℤ) (size : ℤ) : Except SliceError (List ℤ) :=
  if 0 ≤ size ∧ dims.length < 254 ∧ dims.prod * size < 2 ^ 63 then .ok (dims ++ [size])
  else .error .checkFailed

namespace TensorSlice

/-- The extents after the first one, each behind a colon. -/
def restString : TensorSlice → List Char
  | [] => []
  | extent :: slice => ':' :: extent.debugString ++ restString slice

def debugString : TensorSlice → List Char
  | [] => []
  | extent :: slice => extent.debugString ++ restString slice

/-- `Intersect`: slices of different ranks, or apart in some dimension, do not. -/
def intersect : TensorSlice → TensorSlice → Option TensorSlice
  | [], [] => some []
  | extent :: slice, other :: others =>
      (extent.intersect other).bind fun common => (intersect slice others).map (common :: ·)
  | _, _ => none

/-- `Overlaps`. -/
def overlaps (slice other : TensorSlice) : Bool := (intersect slice other).isSome

def updateToCover (slice other : TensorSlice) : TensorSlice :=
  List.zipWith Extent.updateToCover slice other

/-- The loop of `SliceTensorShape`, from a dimension on. -/
def sliceLoop (shape : List ℤ) (slice : TensorSlice) :
    ℕ → List ℤ → TensorSlice → List ℤ → Except SliceError (List ℤ)
  | d, size :: sizes, extent :: extents, result =>
      if extent.isFull then
        addDim result size >>= sliceLoop shape slice (d + 1) sizes extents
      else if extent.finish ≤ size then
        addDim result extent.length >>= sliceLoop shape slice (d + 1) sizes extents
      else .error (.outOfBounds d shape slice)
  | _, _, _, result => .ok result

def sliceTensorShape (shape : List ℤ) (slice : TensorSlice) : Except SliceError (List ℤ) :=
  if shape.length = slice.length then sliceLoop shape slice 0 shape slice []
  else .error (.mismatchingRanks shape slice)

end TensorSlice

open Math

/-- `TensorSliceSet::SliceInfo`. -/
structure SliceInfo (τ : Type) where
  slice : TensorSlice
  tag : τ
  numFloats : ℤ

structure TensorSliceSet (τ : Type) where
  shape : List ℤ
  /-- The entries of the hash map, in the order of their insertion. -/
  slices : List (List Char × SliceInfo τ)
  slicesHull : TensorSlice

/-- Why a slice is not registered. -/
inductive RegisterError
  | notApplicable (error : SliceError)
  | overlapping (existing : List Char) (new : List Char)
  deriving DecidableEq, Repr

namespace TensorSliceSet

variable {τ : Type}

/-- `std::unordered_map::insert`. -/
def insert (entries : List (List Char × SliceInfo τ)) (entry : List Char × SliceInfo τ) :
    List (List Char × SliceInfo τ) :=
  if entries.any (·.1 = entry.1) then entries else entries ++ [entry]

variable (order : List (List Char × SliceInfo τ) → List (List Char × SliceInfo τ))
  (set : TensorSliceSet τ)

/-- The first registered slice that overlaps with a new one; the hull can rule all of them out. -/
def findOverlap (slice : TensorSlice) : Option (List Char × SliceInfo τ) :=
  if TensorSlice.overlaps set.slicesHull slice then
    (order set.slices).find? fun entry => TensorSlice.overlaps slice entry.2.slice
  else none

/-- `Register`: the error, if any, and the set after the call; `none` if a `CHECK` fails. -/
def register (slice : TensorSlice) (tag : τ) :
    Option (Option RegisterError × TensorSliceSet τ) :=
  match TensorSlice.sliceTensorShape set.shape slice with
  | .error .checkFailed => none
  | .error error => some (some (.notApplicable error), set)
  | .ok resultShape =>
      let str := TensorSlice.debugString slice
      let slices := insert set.slices (str, ⟨slice, tag, resultShape.prod⟩)
      if set.slices.isEmpty then some (none, { set with slices := slices, slicesHull := slice })
      else
        match set.findOverlap order slice with
        | some entry => some (some (.overlapping entry.1 str), set)
        | none =>
            some (none, { set with
              slices := slices
              slicesHull := TensorSlice.updateToCover set.slicesHull slice })

/-- The loop of `QueryMeta`: the size of what the query shares with the slices. It ends if a
common slice does not apply to the shape. -/
def queryLoop (slice : TensorSlice) : List (List Char × SliceInfo τ) → ℤ →
    List (TensorSlice × τ) → Except SliceError ℤ × List (TensorSlice × τ)
  | [], overlapSize, results => (.ok overlapSize, results)
  | entry :: entries, overlapSize, results =>
      match TensorSlice.intersect slice entry.2.slice with
      | some intersection =>
          match TensorSlice.sliceTensorShape set.shape intersection with
          | .error error => (.error error, results)
          | .ok interShape =>
              queryLoop slice entries (int64 (overlapSize + interShape.prod))
                (results ++ [(entry.2.slice, entry.2.tag)])
      | none => queryLoop slice entries overlapSize results

/-- `QueryMeta` without an exact match: the slice can be patched together from the registered ones
if what they share with it adds up to it. -/
def queryPatched (slice : TensorSlice) : Option (Bool × List (TensorSlice × τ)) :=
  match TensorSlice.sliceTensorShape set.shape slice with
  | .error .checkFailed => none
  | .error _ => some (false, [])
  | .ok targetShape =>
      match set.queryLoop slice (order set.slices) 0 [] with
      | (.error .checkFailed, _) => none
      | (.error _, results) => some (false, results)
      | (.ok overlapSize, results) =>
          if targetShape.prod = overlapSize then some (true, results) else some (false, [])

/-- `QueryMeta`: the answer and the results; `none` if a `CHECK` fails. -/
def queryMeta (slice : TensorSlice) : Option (Bool × List (TensorSlice × τ)) :=
  match set.slices.find? (·.1 = TensorSlice.debugString slice) with
  | some entry => some (true, [(entry.2.slice, entry.2.tag)])
  | none => set.queryPatched order slice

end TensorSliceSet

/-- A set and the calls of `Register` that succeeded. -/
structure RegisteredSlices (τ : Type) where
  set : TensorSliceSet τ
  registered : List (TensorSlice × τ)

/-- A set whose slices are registered one after the other. -/
def sliceSet {τ : Type} (shape : List ℤ)
    (order : List (List Char × SliceInfo τ) → List (List Char × SliceInfo τ)) :
    Machine (RegisteredSlices τ) (TensorSlice × τ) where
  init := ⟨⟨shape, [], []⟩, []⟩
  step state call :=
    (state.set.register order call.1 call.2).map fun result =>
      ⟨result.2, if result.1 = none then state.registered ++ [call] else state.registered⟩

end ContainerScheduler.Checkpoint
