/-
# Merging partial shapes

`MergeWith` fills a third shape with the known sizes of two shapes. Neither of the two is the shape
that is filled.
-/

import ContainerScheduler.Shapes.TensorShape

namespace ContainerScheduler.Shapes

/-- The loop of `IsValid`. -/
def validSizes (isPartial : Bool) : List ℤ → ℤ → Except Fault Bool
  | [], _ => .ok true
  | d :: sizes, numElements =>
      if d < (if isPartial then -1 else 0) then .ok false
      else if d = -1 then validSizes isPartial sizes (-1)
      else if isPartial = false ∨ numElements ≥ 0 then
        (multiplyWithoutOverflow numElements d).bind fun numElements =>
          if numElements < 0 then .ok false else validSizes isPartial sizes numElements
      else validSizes isPartial sizes numElements

def isValid (isPartial : Bool) (heap : Heap) (rep : TensorShapeRep) : Except Fault Bool :=
  if unknownRank isPartial rep then .ok (dims isPartial rep == 0)
  else if dims isPartial rep > maxDimensions then .ok false
  else (appendTo isPartial heap rep).bind fun sizes => validSizes isPartial sizes 1

/-- The next `count` dimensions from the `i`-th on match, or one of the two is unknown. -/
def matchFrom (heap : Heap) (rep shape : TensorShapeRep) : ℕ → ℕ → Except Fault Bool
  | 0, _ => .ok true
  | count + 1, i =>
      (dimSize true heap rep i).bind fun dim0 =>
        (dimSize true heap shape i).bind fun dim1 =>
          if dim0 ≥ 0 ∧ dim1 ≥ 0 ∧ dim0 ≠ dim1 then .ok false
          else matchFrom heap rep shape count (i + 1)

def isCompatibleWith (heap : Heap) (rep shape : TensorShapeRep) : Except Fault Bool :=
  if unknownRank true rep ∨ unknownRank true shape then .ok true
  else if dims true rep ≠ dims true shape then .ok false
  else matchFrom heap rep shape (dims true rep).toNat 0

inductive MergeStatus
  | ok
  /-- `InvalidArgument`: Incompatible ranks during merge. -/
  | incompatibleRanks (dims shapeDims : ℤ)
  /-- `InvalidArgument`: Incompatible shapes during merge, with what both look like. -/
  | incompatibleShapes
  deriving DecidableEq

/-- The next `count` dimensions from the `i`-th on are added to the result. -/
def mergeFrom (address : ℕ) (rep shape : TensorShapeRep) :
    ℕ → ℕ → Memory → Except Fault (MergeStatus × Memory)
  | 0, _, result => .ok (.ok, result)
  | count + 1, i, result =>
      (dimSize true result.2 rep i).bind fun dim0 =>
        (dimSize true result.2 shape i).bind fun dim1 =>
          if dim0 ≥ 0 ∧ dim1 ≥ 0 ∧ dim0 ≠ dim1 then .ok (.incompatibleShapes, result)
          else
            (addDim true address (if dim0 ≥ 0 then dim0 else dim1) result).bind
              (mergeFrom address rep shape count (i + 1))

/-- The result is given with the heap. -/
def mergeWith (address : ℕ) (rep shape : TensorShapeRep) (result : Memory) :
    Except Fault (MergeStatus × Memory) :=
  if unknownRank true rep then (assign address shape result).map fun next => (.ok, next)
  else if unknownRank true shape then (assign address rep result).map fun next => (.ok, next)
  else if dims true rep ≠ dims true shape then
    .ok (.incompatibleRanks (dims true rep) (dims true shape), result)
  else (clear result).bind (mergeFrom address rep shape (dims true rep).toNat 0)

end ContainerScheduler.Shapes
