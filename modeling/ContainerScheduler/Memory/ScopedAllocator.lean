/-
# Scoped allocators

One buffer backs the tensors of several fields. A container has an instance for each field in its
table, which allocates its field once. The last allocation drops all instances from the table, and
who comes last of the drop and the deallocation deletes the instance. The last deallocation deletes
the allocator.

Each field has a thread that allocates and, when this has returned, deallocates. A step of a thread
is a section under a mutex or an access between sections. A thread in the loop over the fields
holds the mutex of the allocator. Sizes are taken modulo `2 ^ 64`.
-/

import ContainerScheduler.Math.Transition
import Mathlib.Algebra.Order.Ring.Int

namespace ContainerScheduler.Memory

open Math

/-! ## Fields -/

namespace ScopedAllocator

structure Field where
  scopeId : Int32
  offset : ℕ
  bytesRequested : ℕ
  bytesAllocated : ℕ
  deriving DecidableEq

end ScopedAllocator

open ScopedAllocator

namespace ScopedAllocatorMgr

def kAllocatorAlignment : ℕ := 64

/-- The loop over the shapes, given by their numbers of elements, from the `i`-th one on: the
fields, and the offset behind them. -/
def populateFrom (scopeId : Int32) (dataTypeSize : ℕ) :
    (i : ℕ) → (offset : ℕ) → (shapes : List ℕ) → List Field × ℕ
  | _, offset, [] => ([], offset)
  | i, offset, numElements :: shapes =>
      let bytesRequested := numElements * dataTypeSize % 2 ^ 64
      let behind := (offset + bytesRequested) % 2 ^ 64
      let overshoot := behind % kAllocatorAlignment
      let alignmentBytes := if overshoot > 0 then kAllocatorAlignment - overshoot else 0
      let field : Field := ⟨scopeId + 1 + Int32.ofNat i, offset, bytesRequested,
        (bytesRequested + alignmentBytes) % 2 ^ 64⟩
      let rest := populateFrom scopeId dataTypeSize (i + 1)
        ((behind + alignmentBytes) % 2 ^ 64) shapes
      (field :: rest.1, rest.2)

/-- Nothing if the number of shapes is negative as an `int32`, for which `resize` throws. -/
def populateFields (scopeId : Int32) (shapes : List ℕ) (dataTypeSize : ℕ) :
    Option (List Field × ℕ) :=
  let numFields := Int32.ofNat shapes.length
  if numFields < 0 then none
  else some (populateFrom scopeId dataTypeSize 0 0 (shapes.take numFields.toInt.toNat))

end ScopedAllocatorMgr

/-! ## The allocator, its instances and its threads -/

namespace ScopedAllocator

inductive Fault
  | checkFailed
  /-- An object is used or deleted that was deleted before. -/
  | deleted
  deriving DecidableEq

/-- What does not change: the address of the buffer, and the bytes that each thread asks for. -/
structure Setup where
  id : Int32
  base : ℕ
  fields : List Field
  numBytes : ℕ → ℕ

structure Instance where
  allocated : Bool := false
  deallocated : Bool := false
  inTable : Bool := true
  deletes : ℕ := 0
  deriving DecidableEq

inductive SAField
  | scopedAllocator
  | aliasing (fieldIndex : ℕ)
  deriving DecidableEq

/-- What a thread does next. -/
inductive Phase
  /-- `ScopedAllocator::AllocateRaw`. -/
  | allocate
  /-- `Drop` for the `j`-th field, or for the allocator behind the last one. -/
  | drop (j : ℕ) (ptr : ℕ)
  /-- The end of `Drop` for the `j`-th field, behind `DropFromTable` of an instance. -/
  | erase (j : ℕ) (fieldIndex : ℕ) (del : Bool) (ptr : ℕ)
  | unref (ptr : ℕ)
  | annotate (ptr : ℕ)
  /-- The section of `ScopedAllocatorInstance::AllocateRaw`. -/
  | mark (ptr : Option ℕ)
  /-- `AllocateRaw` has returned. -/
  | returned (ptr : Option ℕ)
  /-- The section of `ScopedAllocator::DeallocateRaw`. -/
  | release
  | deleteAllocator
  /-- The section of `ScopedAllocatorInstance::DeallocateRaw`. -/
  | finish
  | deleteInstance
  | done
  deriving DecidableEq

/-- The allocator is deleted when `deletes` is not 0. The table has the ids of this allocator. -/
structure State where
  expectedCallCount : ℤ
  liveAllocCount : ℤ := 0
  /-- The thread that holds the mutex of the allocator between its steps. -/
  mu : Option ℕ := none
  hasContainer : Bool := true
  deletes : ℕ := 0
  instances : ℕ → Instance := fun _ => {}
  allocators : Int32 → Option SAField
  /-- The references to the container. -/
  refs : ℕ
  phase : ℕ → Phase

namespace State

variable (setup : Setup) (s : State)

def goto (i : ℕ) (phase : Phase) : State := { s with phase := Function.update s.phase i phase }

def setInstance (i : ℕ) (inst : Instance) : State :=
  { s with instances := Function.update s.instances i inst }

def useAllocator {β : Type} (next : Except Fault β) : Except Fault β :=
  if s.deletes = 0 then next else .error .deleted

def useInstance {β : Type} (i : ℕ) (next : Except Fault β) : Except Fault β :=
  if (s.instances i).deletes = 0 then next else .error .deleted

def useContainer {β : Type} (next : Except Fault β) : Except Fault β :=
  if s.hasContainer ∧ s.refs ≠ 0 then next else .error .deleted

/-- The section of `ScopedAllocator::AllocateRaw` up to the loop over the fields. -/
def allocateRaw (i : ℕ) : Except Fault State :=
  s.useInstance i <| s.useAllocator <|
    if s.expectedCallCount ≤ 0 then .ok (s.goto i (.mark none))
    else
      match setup.fields[i]? with
      | none => .ok (s.goto i (.mark none))
      | some field =>
          if setup.numBytes i ≠ field.bytesRequested then .ok (s.goto i (.mark none))
          else
            let ptr := setup.base + field.offset
            let s : State := { s with
              liveAllocCount := s.liveAllocCount + 1, expectedCallCount := s.expectedCallCount - 1 }
            if s.expectedCallCount = 0 then .ok ({ s with mu := some i }.goto i (.drop 0 ptr))
            else .ok (s.goto i (.annotate ptr))

/-- `DropFromTable` up to the deletion. -/
def dropFromTable (i j fieldIndex ptr : ℕ) : Except Fault State :=
  s.useInstance fieldIndex <|
    let inst := s.instances fieldIndex
    if inst.inTable = false then .error .checkFailed
    else .ok ((s.setInstance fieldIndex { inst with inTable := false }).goto i
      (.erase j fieldIndex (inst.allocated && inst.deallocated) ptr))

def eraseId (scopeId : Int32) : State :=
  { s with allocators := Function.update s.allocators scopeId none }

def drop (i j ptr : ℕ) : Except Fault State :=
  s.useAllocator <| s.useContainer <|
    match setup.fields[j]? with
    | some field =>
        match s.allocators field.scopeId with
        | none => .ok (s.goto i (.drop (j + 1) ptr))
        | some .scopedAllocator => .ok ((s.eraseId field.scopeId).goto i (.drop (j + 1) ptr))
        | some (.aliasing fieldIndex) => s.dropFromTable i j fieldIndex ptr
    | none => .ok ((s.eraseId setup.id).goto i (.unref ptr))

def deleteInstance (i : ℕ) : Except Fault State :=
  s.useInstance i <|
    .ok (s.setInstance i { s.instances i with deletes := (s.instances i).deletes + 1 })

def erase (i j fieldIndex : ℕ) (del : Bool) (ptr : ℕ) : Except Fault State :=
  (if del then s.deleteInstance fieldIndex else .ok s).bind fun s =>
    match setup.fields[j]? with
    | some field => .ok ((s.eraseId field.scopeId).goto i (.drop (j + 1) ptr))
    | none => .ok (s.goto i (.drop (j + 1) ptr))

/-- `container_->Unref()`, and the end of the section. -/
def unref (i ptr : ℕ) : Except Fault State :=
  s.useContainer <|
    .ok ({ s with refs := s.refs - 1, hasContainer := false, mu := none }.goto i (.annotate ptr))

def mark (i : ℕ) (ptr : Option ℕ) : Except Fault State :=
  s.useInstance i <|
    match ptr with
    | none => .ok (s.goto i (.returned none))
    | some ptr =>
        .ok ((s.setInstance i { s.instances i with allocated := true }).goto i
          (.returned (some ptr)))

/-- `CHECK(VerifyPointer(p))`. -/
def verifyPointer (i p : ℕ) : Except Fault State :=
  s.useInstance i <| s.useAllocator <|
    if setup.base ≤ p ∧ ∃ field ∈ setup.fields, setup.base + field.offset = p then
      .ok (s.goto i .release)
    else .error .checkFailed

def release (i : ℕ) : Except Fault State :=
  s.useAllocator <|
    if ¬s.liveAllocCount > 0 then .error .checkFailed
    else
      let s : State := { s with liveAllocCount := s.liveAllocCount - 1 }
      if s.liveAllocCount = 0 ∧ s.expectedCallCount = 0 then .ok (s.goto i .deleteAllocator)
      else .ok (s.goto i .finish)

def deleteAllocator (i : ℕ) : Except Fault State :=
  s.useAllocator <| .ok ({ s with deletes := s.deletes + 1 }.goto i .finish)

def finish (i : ℕ) : Except Fault State :=
  s.useInstance i <|
    if (s.instances i).allocated = false then .error .checkFailed
    else .ok ((s.setInstance i { s.instances i with deallocated := true }).goto i
      (if (s.instances i).inTable then .done else .deleteInstance))

/-- The next step of a thread; none while it waits for the mutex, and at its end. -/
def act (i : ℕ) : Option (Except Fault State) :=
  match s.phase i with
  | .allocate => if s.mu = none then some (s.allocateRaw setup i) else none
  | .drop j ptr => some (s.drop setup i j ptr)
  | .erase j fieldIndex del ptr => some (s.erase setup i j fieldIndex del ptr)
  | .unref ptr => some (s.unref i ptr)
  | .annotate ptr => some (s.useAllocator (.ok (s.goto i (.mark (some ptr)))))
  | .mark ptr => some (s.mark i ptr)
  | .returned none => none
  | .returned (some p) => some (s.verifyPointer setup i p)
  | .release => if s.mu = none then some (s.release i) else none
  | .deleteAllocator => if s.mu = none then some (s.deleteAllocator i) else none
  | .finish => some (s.finish i)
  | .deleteInstance => some ((s.deleteInstance i).map (·.goto i .done))
  | .done => none

end State

/-- The table with instances for fields, from the `i`-th one on. -/
def addInstances : (i : ℕ) → List Field → (Int32 → Option SAField) → Int32 → Option SAField
  | _, [], allocators => allocators
  | i, field :: fields, allocators =>
      addInstances (i + 1) fields (Function.update allocators field.scopeId (some (.aliasing i)))

/-- `AddScopedAllocator`: nothing if an id is in use, else the state in front of the threads. -/
def addScopedAllocator (setup : Setup) (inUse : Int32 → Bool) (size refs : ℕ)
    (expectedCallCount : ℤ) : Option (Except Fault State) :=
  if inUse setup.id || setup.fields.any (fun field => inUse field.scopeId) then none
  else
    match setup.fields.getLast? with
    | none => some (.error .checkFailed)
    | some back =>
        if ¬(back.offset + back.bytesRequested) % 2 ^ 64 ≤ size then some (.error .checkFailed)
        else some (.ok {
          expectedCallCount
          allocators := addInstances 0 setup.fields
            (Function.update (fun _ => none) setup.id (some .scopedAllocator))
          refs := refs + 1
          phase := fun i => if i < setup.fields.length then .allocate else .done })

/-- The steps of the threads behind a registration, in any order. -/
def life (setup : Setup) (start : State) : Machine (Except Fault State) ℕ where
  init := .ok start
  step result i :=
    match result with
    | .ok s => s.act setup i
    | .error _ => none

end ScopedAllocator

end ContainerScheduler.Memory
