/-
# Strided slices

`ValidateStridedSliceOp` expands a slice as it is written, `foo[3:5, ..., -3]`, to one range for
each dimension of the input. Five masks of 32 bits say of each written item what it is. A shape is
the list of its dimensions, with -1 for an unknown one; the checks of the shape type are not part of
this. The element type of the index tensors, `int32` or `int64`, only bounds their values.

No sum leaves the range of `int64`, other than that of the largest index and one, which is refused.
-/

import Mathlib.Algebra.BigOperators.Group.List.Basic
import Mathlib.Algebra.Order.Ring.Int
import Mathlib.Data.Fin.VecNotation

namespace ContainerScheduler.Slicing

/-- A tensor of indices, with its elements in a row. -/
structure IndexTensor where
  shape : List ℕ
  flat : List ℤ
  length_flat : flat.length = shape.prod

namespace IndexTensor

def isVector (tensor : IndexTensor) : Prop := tensor.shape.length = 1

instance (tensor : IndexTensor) : Decidable tensor.isVector :=
  inferInstanceAs (Decidable (tensor.shape.length = 1))

def numElements (tensor : IndexTensor) : ℕ := tensor.shape.prod

def ofVector (values : List ℤ) : IndexTensor where
  shape := [values.length]
  flat := values
  length_flat := by simp

end IndexTensor

inductive InvalidArgument
  /-- Expected begin, end, and strides to be 1D equal size tensors, but got these shapes. -/
  | unequalShapes (begins ends strides : List ℕ)
  /-- Expected begin, end, and strides to be 1D equal size tensors, but got this shape for
  strides. -/
  | stridesShape (strides : List ℕ)
  /-- Multiple ellipses in slice spec not allowed. -/
  | multipleEllipses
  /-- Index out of range using input dim `fullIndex`; input has only `dims` dims. -/
  | outOfRange (fullIndex dims : ℕ)
  /-- `strides[dim]` must be non-zero. -/
  | zeroStride (dim : ℕ)
  /-- Only stride 1 allowed on non-range indexing. -/
  | strideOfShrunk
  /-- Slice index of a dimension out of bounds. -/
  | outOfBounds (index : ℤ) (dim : ℕ)
  deriving DecidableEq, Repr

/-- The test `(1 << i) & mask`. -/
def bit (mask : BitVec 32) (i : ℕ) : Bool := (1#32 <<< i) &&& mask != 0#32

/-- The statement `mask |= (1 << i)`, under a condition. -/
def setBit (mask : BitVec 32) (i : ℕ) (condition : Bool) : BitVec 32 :=
  if condition then mask ||| 1#32 <<< i else mask

def kShrinkAxis : ℤ := -1

def kNewAxis : ℤ := -2

/-! ## From a sparse to a dense specification -/

/-- A slice as it is written. -/
structure SparseSpec where
  dims : ℕ
  numAddAxisAfterEllipsis : ℕ := 0
  begins : Option (List ℤ)
  ends : Option (List ℤ)
  strides : List ℤ
  beginMask : BitVec 32
  endMask : BitVec 32
  ellipsisMask : BitVec 32
  newAxisMask : BitVec 32
  shrinkAxisMask : BitVec 32

/-- A slice with one entry for each dimension. -/
structure DenseSpec where
  dims : ℕ
  beginMask : BitVec 32 := 0
  endMask : BitVec 32 := 0
  beginValid : Bool
  endValid : Bool
  begins : List ℤ
  ends : List ℤ
  strides : List ℤ
  /-- Where the dimensions of the final shape come from. -/
  finalShapeGatherIndices : List ℤ := []
  shrinkAxisMask : BitVec 32 := 0
  /-- The next dimension, a variable of the loop. -/
  fullIndex : ℕ := 0

namespace DenseSpec

/-- Gather slicing spec into appropriate index. Without a tensor, the entry stays. -/
def addDim (begin_i end_i : Option ℤ) (stride_i : ℤ) (beginMasked endMasked shrink : Bool)
    (s : DenseSpec) : DenseSpec :=
  { s with
    begins := (begin_i.map (s.begins.set s.fullIndex)).getD s.begins
    ends := (end_i.map (s.ends.set s.fullIndex)).getD s.ends
    strides := s.strides.set s.fullIndex stride_i
    beginMask := setBit s.beginMask s.fullIndex beginMasked
    endMask := setBit s.endMask s.fullIndex endMasked
    finalShapeGatherIndices := s.finalShapeGatherIndices ++
      [if shrink then kShrinkAxis else (s.fullIndex : ℤ)]
    shrinkAxisMask := setBit s.shrinkAxisMask s.fullIndex shrink
    fullIndex := s.fullIndex + 1 }

/-- One dimension under the ellipsis. -/
def addFullDim (s : DenseSpec) : DenseSpec := s.addDim (some 0) (some 0) 1 true true false

/-- Expand the ellipsis into the appropriate indices, up to the next one. -/
def addFullDims : ℕ → DenseSpec → DenseSpec
  | 0, s => s
  | count + 1, s => addFullDims count s.addFullDim

def addNewAxis (s : DenseSpec) : DenseSpec :=
  { s with finalShapeGatherIndices := s.finalShapeGatherIndices ++ [kNewAxis] }

/-- One round of the loop over the items as they are written. -/
def visit (sparse : SparseSpec) (s : DenseSpec) (i : ℕ) : Except InvalidArgument DenseSpec :=
  if bit sparse.ellipsisMask i then
    let nextIndex : ℤ :=
      min ((s.dims : ℤ) - ((sparse.dims : ℤ) - i) + 1 + sparse.numAddAxisAfterEllipsis) s.dims
    .ok (s.addFullDims (nextIndex - s.fullIndex).toNat)
  else if bit sparse.newAxisMask i then
    .ok s.addNewAxis
  else if s.fullIndex = s.begins.length then
    .error (.outOfRange s.fullIndex s.dims)
  else
    .ok (s.addDim (sparse.begins.map (·.getD i 0)) (sparse.ends.map (·.getD i 0))
      (sparse.strides.getD i 0) (bit sparse.beginMask i) (bit sparse.endMask i)
      (bit sparse.shrinkAxisMask i))

end DenseSpec

def buildDenseSpec (sparse : SparseSpec) (dims : ℕ) : Except InvalidArgument DenseSpec :=
  (List.range sparse.dims).foldlM (DenseSpec.visit sparse)
    { dims
      beginValid := sparse.begins.isSome
      endValid := sparse.ends.isSome
      begins := List.replicate dims 0
      ends := List.replicate dims 0
      strides := List.replicate dims 0 }

/-- Whether there is an ellipsis, and the number of new axes behind it. -/
def countNewAxes (ellipsisMask newAxisMask : BitVec 32) (dims : ℕ) : Bool × ℕ :=
  (List.range dims).foldl (fun (s : Bool × ℕ) i =>
    (s.1 || bit ellipsisMask i,
      if s.1 ∧ bit newAxisMask i then s.2 + 1 else s.2)) (false, 0)

/-- If no ellipsis insert one at the end. -/
def SparseSpec.addEllipsis (ellipsisSeen : Bool) (sparse : SparseSpec) : SparseSpec :=
  if ellipsisSeen then sparse
  else
    { sparse with
      ellipsisMask := sparse.ellipsisMask ||| 1#32 <<< sparse.dims
      dims := sparse.dims + 1 }

/-! ## The dimensions -/

/-- A bound that is masked or clamped, of the lower (0) or the upper (1) end. -/
def canonical (stride_i dim_i : ℤ) (masks : Fin 2 → Bool) (x : ℤ) (c : Fin 2) : ℤ :=
  let validRange : Fin 2 → ℤ :=
    ![if stride_i > 0 then 0 else -1, if stride_i > 0 then dim_i else dim_i - 1]
  if masks c then
    if stride_i > 0 then validRange c else validRange (c + 1)
  else
    let x_fwd := if x < 0 then dim_i + x else x
    if x_fwd < validRange 0 then validRange 0
    else if x_fwd > validRange 1 then validRange 1
    else x_fwd

/-- The number of steps, zero if the interval is degenerate, rounded up otherwise. -/
def sliceSize (intervalLength stride_i : ℤ) : ℤ :=
  if intervalLength = 0 ∨ decide (intervalLength < 0) ≠ decide (stride_i < 0) then 0
  else intervalLength.tdiv stride_i + if intervalLength.tmod stride_i ≠ 0 then 1 else 0

/-- What the operation returns. The ranges of the dimensions visited so far are at hand. -/
structure SliceShapes where
  processingShape : List ℤ := []
  finalShape : List ℤ := []
  isIdentity : Bool := true
  isSimpleSlice : Bool := true
  sliceDim0 : Bool := true
  begins : List ℤ := []
  ends : List ℤ := []
  strides : List ℤ := []
  deriving DecidableEq, Repr

/-- The range of a dimension, when the bounds are given. -/
def rangeOf (i : ℕ) (begin_i end_i stride_i dim_i : ℤ) (masks : Fin 2 → Bool) (shrink : Bool) :
    Except InvalidArgument (ℤ × ℤ) :=
  if shrink then
    let x_fwd := if begin_i < 0 then dim_i + begin_i else begin_i
    if x_fwd < 0 ∨ x_fwd ≥ dim_i then .error (.outOfBounds x_fwd i)
    else .ok (x_fwd, x_fwd + 1)
  else
    .ok (canonical stride_i dim_i masks begin_i 0, canonical stride_i dim_i masks end_i 1)

/-- Make implicit ranges explicit and bounds check. -/
def validateDim (dense : DenseSpec) (inputShape : List ℤ) (s : SliceShapes) (i : ℕ) :
    Except InvalidArgument SliceShapes :=
  let begin_i := dense.begins.getD i 0
  let end_i := dense.ends.getD i 0
  let stride_i := dense.strides.getD i 0
  let dim_i := inputShape.getD i 0
  let shrink := bit dense.shrinkAxisMask i
  let masks : Fin 2 → Bool := ![bit dense.beginMask i, bit dense.endMask i]
  let bothMasked := masks 0 && masks 1
  if stride_i = 0 then .error (.zeroStride i)
  else if dim_i = -1 then
    .ok { s with
      processingShape := s.processingShape ++ [if shrink then 1 else -1]
      begins := s.begins ++ [begin_i]
      ends := s.ends ++ [end_i]
      strides := s.strides ++ [stride_i] }
  else if shrink ∧ stride_i ≤ 0 then .error .strideOfShrunk
  else if dense.beginValid ∧ dense.endValid then
    match rangeOf i begin_i end_i stride_i dim_i masks shrink with
    | .error e => .error e
    | .ok (first, stop) =>
        let takeAll : Bool := stride_i = 1 ∧ first = 0 ∧ stop = dim_i
        .ok { s with
          isSimpleSlice := s.isSimpleSlice && stride_i = 1
          isIdentity := s.isIdentity && takeAll
          sliceDim0 := s.sliceDim0 && ((i = 0 && stride_i = 1) || takeAll)
          processingShape := s.processingShape ++ [sliceSize (stop - first) stride_i]
          begins := s.begins ++ [first]
          ends := s.ends ++ [stop]
          strides := s.strides ++ [stride_i] }
  else
    let size :=
      if shrink then sliceSize 1 stride_i
      else if bothMasked ∧ dim_i ≥ 0 then
        sliceSize (if stride_i < 0 then -dim_i else dim_i) stride_i
      else -1
    .ok { s with
      isSimpleSlice := s.isSimpleSlice && stride_i = 1
      isIdentity := s.isIdentity && (stride_i = 1 && bothMasked)
      sliceDim0 := s.sliceDim0 && ((i = 0 && stride_i = 1) || bothMasked)
      processingShape := s.processingShape ++ [size]
      begins := s.begins ++ [begin_i]
      ends := s.ends ++ [end_i]
      strides := s.strides ++ [stride_i] }

/-- The dimensions of the result, gathered from those of the slices. -/
def gatherShape (gatherIndices processingShape : List ℤ) : List ℤ :=
  gatherIndices.foldl (fun finalShape index =>
    if index ≥ 0 then finalShape ++ [processingShape.getD index.toNat 0]
    else if index = kNewAxis then finalShape ++ [1]
    else finalShape) []

/-- A tensor of bounds is a vector with one entry for each stride. -/
def IndexTensor.fits (tensor strides : IndexTensor) : Bool :=
  tensor.isVector ∧ tensor.numElements = strides.numElements

def validateStridedSliceOp (beginTensor endTensor : Option IndexTensor)
    (stridesTensor : IndexTensor) (inputShape : List ℤ)
    (beginMaskSpec endMaskSpec ellipsisMask newAxisMask shrinkAxisMask : BitVec 32) :
    Except InvalidArgument SliceShapes :=
  -- the masks have 32 bits
  let beginIsWrong := beginTensor.any fun tensor =>
    !(tensor.fits stridesTensor && tensor.numElements < 32)
  let endIsWrong := endTensor.any fun tensor => !tensor.fits stridesTensor
  if beginIsWrong ∨ endIsWrong ∨ ¬ stridesTensor.isVector then
    match beginTensor, endTensor with
    | some begins, some ends =>
        .error (.unequalShapes begins.shape ends.shape stridesTensor.shape)
    | _, _ => .error (.stridesShape stridesTensor.shape)
  else if ellipsisMask ≠ 0 ∧ ellipsisMask &&& (ellipsisMask - 1) ≠ 0 then
    .error .multipleEllipses
  else
    let newAxes := countNewAxes ellipsisMask newAxisMask stridesTensor.numElements
    let sparse : SparseSpec :=
      { dims := stridesTensor.numElements
        numAddAxisAfterEllipsis := newAxes.2
        begins := beginTensor.map IndexTensor.flat
        ends := endTensor.map IndexTensor.flat
        strides := stridesTensor.flat
        beginMask := beginMaskSpec
        endMask := endMaskSpec
        ellipsisMask, newAxisMask, shrinkAxisMask }
    (buildDenseSpec (sparse.addEllipsis newAxes.1) inputShape.length).bind fun dense =>
      ((List.range inputShape.length).foldlM (validateDim dense inputShape) {}).map fun s =>
        { s with finalShape := gatherShape dense.finalShapeGatherIndices s.processingShape }

end ContainerScheduler.Slicing
