/-
# Shapes of tensors

A shape keeps its dimensions in 16 bytes, in one of three layouts that overlay each other: up to six
16-bit numbers, up to three 32-bit numbers, or the address of a vector on the heap. A data type, the
number of dimensions and the tag of the layout are in the last three bytes.

The operations of `TensorShape` and `PartialTensorShape` differ in `isPartial`. A failed `CHECK` and
a use of memory that is not allocated are faults. The address that `new` gives is an argument, since
an operation allocates at most one vector.
-/

import ContainerScheduler.Math.ByteMemory
import Mathlib.Data.List.Infix

namespace ContainerScheduler.Shapes

open Math

inductive Fault
  | checkFailed
  | badAccess
  /-- The program names no shape, or one of another type. -/
  | noShape
  deriving DecidableEq, Repr

/-! ## Integers and the heap -/

/-- The conversion of an `int64` to `uint64`. -/
def uint64 (value : ℤ) : ℕ := (value % 2 ^ 64).toNat

/-- The conversion of a `uint64` to `int64`. -/
def int64 (value : ℕ) : ℤ := if value < 2 ^ 63 then value else value - 2 ^ 64

def multiplyWithoutOverflow (x y : ℤ) : Except Fault ℤ :=
  let ux := uint64 x
  let uy := uint64 y
  let uxy := ux * uy % 2 ^ 64
  if (ux ||| uy) >>> 32 ≠ 0 then
    if ¬(0 ≤ x ∧ 0 ≤ y) then .error .checkFailed
    else if ux ≠ 0 ∧ uxy / ux ≠ uy then .ok (-1)
    else .ok (int64 uxy)
  else .ok (int64 uxy)

/-- The vectors that are allocated, at their addresses. -/
abbrev Heap := ℕ → Option (List ℤ)

namespace Heap

def read (heap : Heap) (address : ℕ) : Except Fault (List ℤ) :=
  match heap address with
  | some dims => .ok dims
  | none => .error .badAccess

def write (heap : Heap) (address : ℕ) (dims : List ℤ) : Except Fault Heap :=
  (heap.read address).map fun _ => Function.update heap address (some dims)

/-- `new`, which gives a free address. -/
def new (heap : Heap) (address : ℕ) (dims : List ℤ) : Except Fault Heap :=
  match heap address with
  | none => .ok (Function.update heap address (some dims))
  | some _ => .error .badAccess

def delete (heap : Heap) (address : ℕ) : Except Fault Heap :=
  (heap.read address).map fun _ => Function.update heap address none

variable {heap : Heap} {address : ℕ} {dims dims' : List ℤ}

theorem read_of_some (hdims : heap address = some dims) : heap.read address = .ok dims := by
  rw [read, hdims]

theorem write_of_some (hdims : heap address = some dims) :
    heap.write address dims' = .ok (Function.update heap address (some dims')) := by
  rw [write, read_of_some hdims]
  rfl

theorem new_of_none (hfree : heap address = none) :
    heap.new address dims = .ok (Function.update heap address (some dims)) := by
  rw [new, hfree]

theorem delete_of_some (hdims : heap address = some dims) :
    heap.delete address = .ok (Function.update heap address none) := by
  rw [delete, read_of_some hdims]
  rfl

end Heap

/-! ## The representation -/

def kMaxRep16 : ℤ := 2 ^ 16 - 2
def kMaxRep32 : ℤ := 2 ^ 32 - 2
def kUnknownRep16 : ℕ := 2 ^ 16 - 1
def kUnknownRep32 : ℕ := 2 ^ 32 - 1
def kUnknownRank : ℕ := 255
def maxDimensions : ℕ := 254

inductive RepTag
  | rep16
  | rep32
  | repOutOfLine
  deriving DecidableEq, Repr

namespace RepTag

def toByte : RepTag → ℕ
  | rep16 => 0
  | rep32 => 1
  | repOutOfLine => 2

def ofByte : ℕ → RepTag
  | 0 => rep16
  | 1 => rep32
  | _ => repOutOfLine

@[simp] theorem ofByte_toByte (tag : RepTag) : ofByte tag.toByte = tag := by
  cases tag <;> rfl

theorem toByte_lt (tag : RepTag) : tag.toByte < 256 := by
  cases tag <;> decide

end RepTag

structure TensorShapeRep where
  /-- The 16 bytes of the union. -/
  buf : Bytes
  numElements : ℤ

namespace TensorShapeRep

variable (rep : TensorShapeRep)

/-- `as16()->dims_[d]`. -/
def dims16 (d : ℕ) : ℕ := rep.buf.load (2 * d) 2

/-- `as32()->dims_[d]`. -/
def dims32 (d : ℕ) : ℕ := rep.buf.load (4 * d) 4

/-- `as64()->dims_`. -/
def dims64 : ℕ := rep.buf.load 0 8

def dataType : ℕ := rep.buf.load 13 1

def ndimsByte : ℕ := rep.buf.load 14 1

def tag : RepTag := .ofByte (rep.buf.load 15 1)

def setDims16 (d value : ℕ) : TensorShapeRep := { rep with buf := rep.buf.store (2 * d) 2 value }

def setDims32 (d value : ℕ) : TensorShapeRep := { rep with buf := rep.buf.store (4 * d) 4 value }

def setDims64 (address : ℕ) : TensorShapeRep := { rep with buf := rep.buf.store 0 8 address }

def setDataType (dataType : ℕ) : TensorShapeRep := { rep with buf := rep.buf.store 13 1 dataType }

def setNdimsByte (nd : ℕ) : TensorShapeRep := { rep with buf := rep.buf.store 14 1 nd }

def setTag (tag : RepTag) : TensorShapeRep := { rep with buf := rep.buf.store 15 1 tag.toByte }

def setNumElements (n : ℤ) : TensorShapeRep := { rep with numElements := n }

/-! What is read after one field was written. -/

section ReadAfterWrite

variable {rep} {d d' value : ℕ} {tag' : RepTag} {n : ℤ}

@[simp] theorem tag_setTag : (rep.setTag tag').tag = tag' := by
  rw [tag, setTag, Bytes.load_store_of_lt tag'.toByte_lt, RepTag.ofByte_toByte]

@[simp] theorem tag_setDims16 (hd : d < 6) : (rep.setDims16 d value).tag = rep.tag :=
  congrArg RepTag.ofByte (Bytes.load_store_of_disjoint (by omega))

@[simp] theorem tag_setDims32 (hd : d < 3) : (rep.setDims32 d value).tag = rep.tag :=
  congrArg RepTag.ofByte (Bytes.load_store_of_disjoint (by omega))

@[simp] theorem tag_setDims64 : (rep.setDims64 value).tag = rep.tag :=
  congrArg RepTag.ofByte (Bytes.load_store_of_disjoint (by omega))

@[simp] theorem tag_setDataType : (rep.setDataType value).tag = rep.tag :=
  congrArg RepTag.ofByte (Bytes.load_store_of_disjoint (by omega))

@[simp] theorem tag_setNdimsByte : (rep.setNdimsByte value).tag = rep.tag :=
  congrArg RepTag.ofByte (Bytes.load_store_of_disjoint (by omega))

@[simp] theorem tag_setNumElements : (rep.setNumElements n).tag = rep.tag := rfl

theorem ndimsByte_setNdimsByte (hvalue : value < 256) :
    (rep.setNdimsByte value).ndimsByte = value :=
  Bytes.load_store_of_lt hvalue

@[simp] theorem ndimsByte_setDims16 (hd : d < 6) :
    (rep.setDims16 d value).ndimsByte = rep.ndimsByte :=
  Bytes.load_store_of_disjoint (by omega)

@[simp] theorem ndimsByte_setDims32 (hd : d < 3) :
    (rep.setDims32 d value).ndimsByte = rep.ndimsByte :=
  Bytes.load_store_of_disjoint (by omega)

@[simp] theorem ndimsByte_setDims64 : (rep.setDims64 value).ndimsByte = rep.ndimsByte :=
  Bytes.load_store_of_disjoint (by omega)

@[simp] theorem ndimsByte_setDataType : (rep.setDataType value).ndimsByte = rep.ndimsByte :=
  Bytes.load_store_of_disjoint (by omega)

@[simp] theorem ndimsByte_setTag : (rep.setTag tag').ndimsByte = rep.ndimsByte :=
  Bytes.load_store_of_disjoint (by omega)

theorem dataType_setDataType (hvalue : value < 256) : (rep.setDataType value).dataType = value :=
  Bytes.load_store_of_lt hvalue

@[simp] theorem dataType_setDims16 (hd : d < 6) :
    (rep.setDims16 d value).dataType = rep.dataType :=
  Bytes.load_store_of_disjoint (by omega)

@[simp] theorem dataType_setDims32 (hd : d < 3) :
    (rep.setDims32 d value).dataType = rep.dataType :=
  Bytes.load_store_of_disjoint (by omega)

@[simp] theorem dataType_setDims64 : (rep.setDims64 value).dataType = rep.dataType :=
  Bytes.load_store_of_disjoint (by omega)

@[simp] theorem dataType_setNdimsByte : (rep.setNdimsByte value).dataType = rep.dataType :=
  Bytes.load_store_of_disjoint (by omega)

@[simp] theorem dataType_setTag : (rep.setTag tag').dataType = rep.dataType :=
  Bytes.load_store_of_disjoint (by omega)

theorem dims16_setDims16 (hvalue : value < 2 ^ 16) : (rep.setDims16 d value).dims16 d = value :=
  Bytes.load_store_of_lt hvalue

theorem dims16_setDims16_of_ne (hne : d' ≠ d) :
    (rep.setDims16 d value).dims16 d' = rep.dims16 d' :=
  Bytes.load_store_of_disjoint (by omega)

theorem dims32_setDims32 (hvalue : value < 2 ^ 32) : (rep.setDims32 d value).dims32 d = value :=
  Bytes.load_store_of_lt hvalue

theorem dims32_setDims32_of_ne (hne : d' ≠ d) :
    (rep.setDims32 d value).dims32 d' = rep.dims32 d' :=
  Bytes.load_store_of_disjoint (by omega)

theorem dims64_setDims64 (hvalue : value < 2 ^ 64) : (rep.setDims64 value).dims64 = value :=
  Bytes.load_store_of_lt hvalue

end ReadAfterWrite

/-- The 12 bytes of the layouts are the same. -/
def SamePayload (rep rep' : TensorShapeRep) : Prop := ∀ index < 12, rep.buf index = rep'.buf index

namespace SamePayload

variable {rep} {rep' : TensorShapeRep} {d value : ℕ}

theorem dims16_eq (hsame : SamePayload rep rep') (hd : d < 6) : rep.dims16 d = rep'.dims16 d := by
  apply Bytes.load_congr
  intro index _ hlt
  exact hsame index (by omega)

theorem dims32_eq (hsame : SamePayload rep rep') (hd : d < 3) : rep.dims32 d = rep'.dims32 d := by
  apply Bytes.load_congr
  intro index _ hlt
  exact hsame index (by omega)

theorem dims64_eq (hsame : SamePayload rep rep') : rep.dims64 = rep'.dims64 := by
  apply Bytes.load_congr
  intro index _ hlt
  exact hsame index (by omega)

theorem setDataType : SamePayload (rep.setDataType value) rep := by
  intro index hlt
  exact Bytes.store_apply_of_outside (.inl (by omega))

theorem setNdimsByte : SamePayload (rep.setNdimsByte value) rep := by
  intro index hlt
  exact Bytes.store_apply_of_outside (.inl (by omega))

theorem setNumElements {n : ℤ} : SamePayload (rep.setNumElements n) rep := fun _ _ => rfl

theorem trans {rep'' : TensorShapeRep} (hfirst : SamePayload rep rep')
    (hsecond : SamePayload rep' rep'') : SamePayload rep rep'' := by
  intro index hlt
  rw [hfirst index hlt, hsecond index hlt]

end SamePayload

end TensorShapeRep

open TensorShapeRep

/-- A representation and the heap its address is of. -/
abbrev Memory := TensorShapeRep × Heap

section Operations

variable (isPartial : Bool)

/-! ## Reading dimensions -/

def unknownRank (rep : TensorShapeRep) : Bool := isPartial && rep.ndimsByte == kUnknownRank

def dims (rep : TensorShapeRep) : ℤ :=
  if isPartial && rep.ndimsByte == kUnknownRank then -1 else rep.ndimsByte

def dimSize (heap : Heap) (rep : TensorShapeRep) (d : ℕ) : Except Fault ℤ :=
  if unknownRank isPartial rep then .ok (-1)
  else match rep.tag with
    | .rep16 =>
        .ok (if isPartial && rep.dims16 d == kUnknownRep16 then -1 else rep.dims16 d)
    | .rep32 =>
        .ok (if isPartial && rep.dims32 d == kUnknownRep32 then -1 else rep.dims32 d)
    | .repOutOfLine =>
        (heap.read rep.dims64).bind fun dims =>
          match dims[d]? with
          | some size => .ok size
          | none => .error .badAccess

/-- The next `count` dimensions from the `d`-th on. -/
def dimsFrom (heap : Heap) (rep : TensorShapeRep) : ℕ → ℕ → Except Fault (List ℤ)
  | 0, _ => .ok []
  | count + 1, d =>
      (dimSize isPartial heap rep d).bind fun size =>
        (dimsFrom heap rep count (d + 1)).map (size :: ·)

/-- `AppendTo` an empty vector. The end of the iteration checks that the rank is known. -/
def appendTo (heap : Heap) (rep : TensorShapeRep) : Except Fault (List ℤ) :=
  if unknownRank isPartial rep then .error .checkFailed
  else dimsFrom isPartial heap rep rep.ndimsByte 0

/-! ## Adding dimensions -/

/-- What the layout with this value for unknown stores for a size. -/
def packed (unknown : ℕ) (size : ℤ) : ℕ :=
  if isPartial && decide (size < 0) then unknown else (size % (unknown + 1)).toNat

/-- All dimensions from the `d`-th on are stored in 32 bits. -/
def setAll32 : ℕ → List ℤ → TensorShapeRep → TensorShapeRep
  | _, [], rep => rep
  | d, val :: vals, rep =>
      setAll32 (d + 1) vals (rep.setDims32 d (packed isPartial kUnknownRep32 val))

/-- The part of `UnsafeAddDim` that stores the size, with a change of the layout if it needs one. -/
def storeDim (address : ℕ) (size : ℤ) (memory : Memory) : Except Fault Memory :=
  let rep := memory.1
  let heap := memory.2
  let nd := rep.ndimsByte
  if rep.tag = .rep16 ∧ nd < 6 ∧ size < kMaxRep16 then
    .ok (rep.setDims16 nd (packed isPartial kUnknownRep16 size), heap)
  else if rep.tag = .rep32 ∧ nd < 3 ∧ size < kMaxRep32 then
    .ok (rep.setDims32 nd (packed isPartial kUnknownRep32 size), heap)
  else if rep.tag = .repOutOfLine then
    (heap.read rep.dims64).bind fun dims =>
      (heap.write rep.dims64 (dims ++ [size])).map fun heap => (rep, heap)
  else
    (appendTo isPartial heap rep).bind fun vals =>
      if (vals ++ [size]).length ≤ 3 ∧ ∀ val ∈ vals ++ [size], val < kMaxRep32 then
        .ok (setAll32 isPartial 0 (vals ++ [size]) (rep.setTag .rep32), heap)
      else
        (heap.new address (vals ++ [size])).map fun heap =>
          ((rep.setTag .repOutOfLine).setDims64 address, heap)

def unsafeAddDim (address : ℕ) (size newNumElements : ℤ) (memory : Memory) : Except Fault Memory :=
  (storeDim isPartial address size memory).map fun next =>
    ((next.1.setNdimsByte (memory.1.ndimsByte + 1)).setNumElements newNumElements, next.2)

def addDim (address : ℕ) (size : ℤ) (memory : Memory) : Except Fault Memory :=
  if isPartial = false ∧ size < 0 then .error .checkFailed
  else if unknownRank isPartial memory.1 then .ok memory
  else if maxDimensions ≤ memory.1.ndimsByte then .error .checkFailed
  else if isPartial = true ∧ (memory.1.numElements < 0 ∨ size < 0) then
    unsafeAddDim isPartial address size (-1) memory
  else
    (multiplyWithoutOverflow memory.1.numElements size).bind fun newNumElements =>
      if newNumElements < 0 then .error .checkFailed
      else unsafeAddDim isPartial address size newNumElements memory

/-- `for (auto dval : vals) AddDim(dval)`. -/
def addDims (address : ℕ) : List ℤ → Memory → Except Fault Memory
  | [], memory => .ok memory
  | val :: vals, memory => (addDim isPartial address val memory).bind (addDims address vals)

/-! ## Construction -/

def kMaxSmall : ℕ := 0xd744

/-- `Set16`: the representation, and whether the size is unknown. -/
def set16 (d : ℕ) (val : ℤ) (rep : TensorShapeRep) : Except Fault (TensorShapeRep × Bool) :=
  if isPartial then
    if val < 0 then .ok (rep.setDims16 d kUnknownRep16, true)
    else .ok (rep.setDims16 d (val % 2 ^ 16).toNat, false)
  else if val < 0 then .error .checkFailed
  else .ok (rep.setDims16 d (val % 2 ^ 16).toNat, false)

/-- `Set16` of all sizes from the `d`-th on, and whether one of them is unknown. -/
def setAll16 : ℕ → List ℤ → TensorShapeRep → Except Fault (TensorShapeRep × Bool)
  | _, [], rep => .ok (rep, false)
  | d, val :: vals, rep =>
      (set16 isPartial d val rep).bind fun result =>
        (setAll16 (d + 1) vals result.1).map fun rest => (rest.1, result.2 || rest.2)

/-- `InitDims`, whose cases for one to four small sizes are one. -/
def initDims (address : ℕ) (dimSizes : List ℤ) (memory : Memory) : Except Fault Memory :=
  let largeSize := dimSizes.any fun size => kMaxSmall < uint64 size
  if largeSize = false ∧ 1 ≤ dimSizes.length ∧ dimSizes.length ≤ 4 then
    (setAll16 isPartial 0 dimSizes (memory.1.setNdimsByte dimSizes.length)).map fun result =>
      (result.1.setNumElements (if result.2 then -1 else dimSizes.prod), memory.2)
  else
    addDims isPartial address dimSizes ((memory.1.setNdimsByte 0).setNumElements 1, memory.2)

/-- The constructor from a list, in uninitialized memory. `DT_INVALID` is 0. -/
def construct (address : ℕ) (dimSizes : List ℤ) (memory : Memory) : Except Fault Memory :=
  initDims isPartial address dimSizes ((memory.1.setTag .rep16).setDataType 0, memory.2)

/-! ## Copies -/

def destroy (memory : Memory) : Except Fault Heap :=
  if memory.1.tag = .repOutOfLine then memory.2.delete memory.1.dims64 else .ok memory.2

def slowCopyFrom (address : ℕ) (b : TensorShapeRep) (memory : Memory) : Except Fault Memory :=
  if b.tag ≠ .repOutOfLine then
    (destroy memory).map fun heap => ({ memory.1 with buf := b.buf }, heap)
  else
    let rep := (memory.1.setNdimsByte b.ndimsByte).setDataType b.dataType
    (memory.2.read b.dims64).bind fun dims =>
      if rep.tag = .repOutOfLine then
        (memory.2.write rep.dims64 dims).map fun heap => (rep, heap)
      else
        (memory.2.new address dims).map fun heap =>
          ((rep.setTag .repOutOfLine).setDims64 address, heap)

/-- The copy constructor. -/
def copyConstruct (address : ℕ) (b : TensorShapeRep) (memory : Memory) : Except Fault Memory :=
  let rep := memory.1.setNumElements b.numElements
  if b.tag ≠ .repOutOfLine then .ok ({ rep with buf := b.buf }, memory.2)
  else slowCopyFrom address b (rep.setTag .rep16, memory.2)

/-- `operator=`. -/
def assign (address : ℕ) (b : TensorShapeRep) (memory : Memory) : Except Fault Memory :=
  let rep := memory.1.setNumElements b.numElements
  if rep.tag ≠ .repOutOfLine ∧ b.tag ≠ .repOutOfLine then .ok ({ rep with buf := b.buf }, memory.2)
  else slowCopyFrom address b (rep, memory.2)

/-! ## The other operations -/

def clearAllButDataType (memory : Memory) : Except Fault Memory :=
  (destroy memory).map fun heap =>
    (((memory.1.setTag .rep16).setNdimsByte 0).setNumElements 1, heap)

def clear (memory : Memory) : Except Fault Memory :=
  (clearAllButDataType memory).map fun next => (next.1.setDataType 0, next.2)

/-- The product of the next `count` dimensions from the `d`-th on and `n`; -1 if one is unknown. -/
def countElements (heap : Heap) (rep : TensorShapeRep) : ℕ → ℕ → ℤ → Except Fault ℤ
  | 0, _, n => .ok n
  | count + 1, d, n =>
      (dimSize isPartial heap rep d).bind fun size =>
        if isPartial = true ∧ size < 0 then .ok (-1)
        else
          (multiplyWithoutOverflow n size).bind fun n =>
            if n < 0 then .error .checkFailed else countElements heap rep count (d + 1) n

def recomputeNumElements (memory : Memory) : Except Fault Memory :=
  if unknownRank isPartial memory.1 then .ok (memory.1.setNumElements (-1), memory.2)
  else
    (countElements isPartial memory.2 memory.1 memory.1.ndimsByte 0 1).map fun n =>
      (memory.1.setNumElements n, memory.2)

/-- The shape is cleared and gets the dimensions in `vals`. -/
def refill (address : ℕ) (vals : List ℤ) (memory : Memory) : Except Fault Memory :=
  (clearAllButDataType memory).bind (addDims isPartial address vals)

def insertDim (address : ℕ) (d size : ℤ) (memory : Memory) : Except Fault Memory :=
  if d < 0 ∨ dims isPartial memory.1 < d ∨ (isPartial = false ∧ size < 0) ∨
      (maxDimensions : ℤ) ≤ dims isPartial memory.1 then
    .error .checkFailed
  else
    (appendTo isPartial memory.2 memory.1).bind fun vals =>
      refill isPartial address (vals.insertIdx d.toNat size) memory

/-- The part of `set_dim` before the elements are counted again. -/
def replaceDim (address d : ℕ) (size : ℤ) (memory : Memory) : Except Fault Memory :=
  let rep := memory.1
  let heap := memory.2
  if rep.tag = .rep16 ∧ size < kMaxRep16 then
    .ok (rep.setDims16 d (packed isPartial kUnknownRep16 size), heap)
  else if rep.tag = .rep32 ∧ size < kMaxRep32 then
    .ok (rep.setDims32 d (packed isPartial kUnknownRep32 size), heap)
  else if rep.tag = .repOutOfLine then
    (heap.read rep.dims64).bind fun dims =>
      if d < dims.length then (heap.write rep.dims64 (dims.set d size)).map fun heap => (rep, heap)
      else .error .badAccess
  else
    (appendTo isPartial heap rep).bind fun vals => refill isPartial address (vals.set d size) memory

def setDim (address : ℕ) (d size : ℤ) (memory : Memory) : Except Fault Memory :=
  if d < 0 ∨ dims isPartial memory.1 ≤ d ∨ size < 0 then .error .checkFailed
  else (replaceDim isPartial address d.toNat size memory).bind (recomputeNumElements isPartial)

def removeDimRange (address : ℕ) (begin' end' : ℤ) (memory : Memory) : Except Fault Memory :=
  if unknownRank isPartial memory.1 then .ok memory
  else
    let dims := dims isPartial memory.1
    let begin' := if begin' < 0 then dims + begin' + 1 else begin'
    let end' := if end' < 0 then dims + end' + 1 else end'
    if begin' < 0 ∨ dims < begin' ∨ end' < 0 ∨ dims < end' then .error .checkFailed
    else if end' ≤ begin' then .ok memory
    else
      (appendTo isPartial memory.2 memory.1).bind fun vals =>
        (refill isPartial address (vals.take begin'.toNat ++ vals.drop end'.toNat) memory).bind
          (recomputeNumElements isPartial)

end Operations

/-! ## The shapes of a program -/

/-- A `TensorShape` or `PartialTensorShape`. -/
structure Shape where
  isPartial : Bool
  rep : TensorShapeRep

structure ShapeState where
  shapes : ℕ → Option Shape
  heap : Heap

namespace ShapeState

variable (state : ShapeState)

def shape (target : ℕ) : Except Fault Shape :=
  match state.shapes target with
  | some shape => .ok shape
  | none => .error .noShape

/-- The shape, if it can be used as one of the given type. -/
def shapeAs (isPartial : Bool) (source : ℕ) : Except Fault Shape :=
  (state.shape source).bind fun shape =>
    if shape.isPartial = true ∧ isPartial = false then .error .noShape else .ok shape

/-- An operation on the memory of a shape. -/
def modify (target : ℕ) (operation : Shape → Memory → Except Fault Memory) :
    Except Fault ShapeState :=
  (state.shape target).bind fun shape =>
    (operation shape (shape.rep, state.heap)).map fun next =>
      ⟨Function.update state.shapes target (some ⟨shape.isPartial, next.1⟩), next.2⟩

/-- A constructor, in memory that holds the bytes of `buf`. -/
def create (target : ℕ) (isPartial : Bool) (buf : Bytes)
    (operation : Memory → Except Fault Memory) : Except Fault ShapeState :=
  match state.shapes target with
  | some _ => .error .noShape
  | none =>
      (operation (⟨buf, 0⟩, state.heap)).map fun next =>
        ⟨Function.update state.shapes target (some ⟨isPartial, next.1⟩), next.2⟩

/-- The loop of `AppendShape`, which reads the next `count` dimensions of the source from the `d`-th
on. The source may be the target. -/
def appendShapeFrom (address target source : ℕ) : ℕ → ℕ → ShapeState → Except Fault ShapeState
  | 0, _, state => .ok state
  | count + 1, d, state =>
      (state.shape target).bind fun shape =>
        (state.shapeAs shape.isPartial source).bind fun other =>
          (dimSize shape.isPartial state.heap other.rep d).bind fun size =>
            (state.modify target fun shape => addDim shape.isPartial address size).bind
              (appendShapeFrom address target source count (d + 1))

def appendShape (address target source : ℕ) : Except Fault ShapeState :=
  (state.shape target).bind fun shape =>
    (state.shapeAs shape.isPartial source).bind fun other =>
      if unknownRank shape.isPartial other.rep then .error .checkFailed
      else appendShapeFrom address target source other.rep.ndimsByte 0 state

end ShapeState

/-- An operation of the program. Sizes are `int64`. -/
inductive ShapeOp
  | construct (target : ℕ) (isPartial : Bool) (buf : Bytes) (dimSizes : List Int64)
  | copyConstruct (target : ℕ) (isPartial : Bool) (buf : Bytes) (source : ℕ)
  | assign (target source : ℕ)
  | addDim (target : ℕ) (size : Int64)
  | insertDim (target : ℕ) (d : ℤ) (size : Int64)
  | setDim (target : ℕ) (d : ℤ) (size : Int64)
  | removeDimRange (target : ℕ) (begin' end' : ℤ)
  | appendShape (target source : ℕ)
  | clear (target : ℕ)
  | setDataType (target : ℕ) (dataType : UInt8)
  | destroy (target : ℕ)

/-- An operation, with the address `new` gives if the operation allocates. -/
structure ShapeCall where
  op : ShapeOp
  address : ℕ

namespace ShapeState

def call (state : ShapeState) (call : ShapeCall) : Except Fault ShapeState :=
  let address := call.address
  match call.op with
  | .construct target isPartial buf dimSizes =>
      state.create target isPartial buf
        (Shapes.construct isPartial address (dimSizes.map Int64.toInt))
  | .copyConstruct target isPartial buf source =>
      (state.shapeAs isPartial source).bind fun other =>
        state.create target isPartial buf (Shapes.copyConstruct address other.rep)
  | .assign target source =>
      (state.shape target).bind fun shape =>
        (state.shapeAs shape.isPartial source).bind fun other =>
          state.modify target fun _ => Shapes.assign address other.rep
  | .addDim target size =>
      state.modify target fun shape => Shapes.addDim shape.isPartial address size.toInt
  | .insertDim target d size =>
      state.modify target fun shape => Shapes.insertDim shape.isPartial address d size.toInt
  | .setDim target d size =>
      state.modify target fun shape => Shapes.setDim shape.isPartial address d size.toInt
  | .removeDimRange target begin' end' =>
      state.modify target fun shape => Shapes.removeDimRange shape.isPartial address begin' end'
  | .appendShape target source => state.appendShape address target source
  | .clear target => state.modify target fun _ => Shapes.clear
  | .setDataType target dataType =>
      state.modify target fun _ memory =>
        .ok (memory.1.setDataType dataType.toNat, memory.2)
  | .destroy target =>
      (state.shape target).bind fun shape =>
        (Shapes.destroy (shape.rep, state.heap)).map fun heap =>
          ⟨Function.update state.shapes target none, heap⟩

/-- The operations one after the other, up to the first fault. -/
def calls : List ShapeCall → ShapeState → Except Fault ShapeState
  | [], state => .ok state
  | call :: rest, state => (state.call call).bind (calls rest)

/-- Before the first operation. -/
def init : ShapeState := ⟨fun _ => none, fun _ => none⟩

end ShapeState

end ContainerScheduler.Shapes
