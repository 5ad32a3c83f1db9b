/-
# Pending and dead counts in one array of bytes

`PendingCounts` keeps the counts of all nodes of a frame's iteration in one array. A node with small
maxima has a byte with two fields of three bits, another one has eight bytes with fields of 32 and
31 bits, and the one bit left says whether the node has started. A `Layout` hands out the offsets.

The structs are laid out as GCC lays them out on a little-endian machine: a struct's bytes form one
number, and a bit-field is a run of its bits. A failed `DCHECK` and an access outside the array
leave a call without result.
-/

import ContainerScheduler.Math.BitFields
import ContainerScheduler.Math.ByteMemory
import ContainerScheduler.Math.Transition

namespace ContainerScheduler.Executor

open Math

/-- How a struct of counts lies in memory, and the mask `mark_live` uses on its pending count. -/
structure CountsRep where
  size : ℕ
  pending : BitField
  deadCount : BitField
  hasStarted : BitField
  liveMask : ℕ
  pending_below : pending.Below deadCount
  deadCount_below : deadCount.Below hasStarted
  inside : hasStarted.shift + hasStarted.bits ≤ 8 * size
  hasStarted_bits : hasStarted.bits = 1
  liveMask_eq : liveMask = 2 * (2 ^ (pending.bits - 1) - 1)
  pending_bits : 0 < pending.bits

def kMaxCountForPackedCounts : ℕ := 7

/-- `uint8 pending : 3; uint8 dead_count : 3; uint8 has_started : 1` -/
def packedCounts : CountsRep where
  size := 1
  pending := ⟨0, 3⟩
  deadCount := ⟨3, 3⟩
  hasStarted := ⟨6, 1⟩
  liveMask := 0x6
  pending_below := by decide
  deadCount_below := by decide
  inside := by decide
  hasStarted_bits := rfl
  liveMask_eq := rfl
  pending_bits := by decide

/-- `uint32 pending; uint32 dead_count : 31; uint8 has_started : 1` -/
def largeCounts : CountsRep where
  size := 8
  pending := ⟨0, 32⟩
  deadCount := ⟨32, 31⟩
  hasStarted := ⟨63, 1⟩
  -- ~static_cast<int>(0x1), converted to uint32
  liveMask := 0xFFFFFFFE
  pending_below := by decide
  deadCount_below := by decide
  inside := by decide
  hasStarted_bits := rfl
  liveMask_eq := rfl
  pending_bits := by decide

/-- `alignof(LargeCounts)` -/
def alignOfLargeCounts : ℤ := 4

structure PendingCounts where
  numBytes : ℤ
  bytes : Bytes

namespace PendingCounts

inductive NodeState
  | pendingNotReady
  | pendingReady
  | started
  | completed
deriving DecidableEq

/-- `byte_offset_` is a signed field of 31 bits. -/
structure Handle where
  byteOffset : ℤ
  isLarge : Bool
deriving DecidableEq

namespace Handle

def rep (h : Handle) : CountsRep := if h.isLarge then largeCounts else packedCounts

def offset (h : Handle) : ℕ := h.byteOffset.toNat

end Handle

/-- The `int` with the same lowest 32 bits. -/
def asInt (value : ℤ) : ℤ := Int.bmod value (2 ^ 32)

/-! ## Handles -/

/-- `Layout::CreateHandle`: the handle and the next offset. -/
def createHandle (nextOffset : ℤ) (maxPendingCount maxDeadCount : ℕ) : Handle × ℤ :=
  if kMaxCountForPackedCounts < maxPendingCount ∨ kMaxCountForPackedCounts < maxDeadCount then
    -- rounded up to a multiple of the size
    let offset := Int.tdiv (nextOffset + largeCounts.size - 1) largeCounts.size * largeCounts.size
    let byteOffset := Int.bmod offset (2 ^ 31)
    (⟨byteOffset, true⟩, asInt (byteOffset + largeCounts.size))
  else
    (⟨Int.bmod nextOffset (2 ^ 31), false⟩, asInt (nextOffset + packedCounts.size))

/-- The handles for a list of maxima of the pending and the dead count, and the offset after them.
-/
def createHandles : List (ℕ × ℕ) → ℤ → List Handle × ℤ
  | [], nextOffset => ([], nextOffset)
  | (maxPending, maxDead) :: maxima, nextOffset =>
      let created := createHandle nextOffset maxPending maxDead
      let rest := createHandles maxima created.2
      (created.1 :: rest.1, rest.2)

/-! ## Access to a handle's fields -/

/-- The checks of `Large` and `Packed`. An offset before the array is not checked, but there is
nothing to read. -/
def Holds (counts : PendingCounts) (h : Handle) : Prop :=
  0 ≤ h.byteOffset ∧ h.byteOffset + h.rep.size ≤ counts.numBytes ∧
    (h.isLarge → h.byteOffset % alignOfLargeCounts = 0)

instance (counts : PendingCounts) (h : Handle) : Decidable (counts.Holds h) :=
  inferInstanceAs (Decidable (_ ∧ _ ∧ (_ → _)))

/-- The struct a handle points at. -/
def struct (counts : PendingCounts) (h : Handle) : ℕ := counts.bytes.load h.offset h.rep.size

def read (counts : PendingCounts) (h : Handle) (field : BitField) : ℕ := field.get (counts.struct h)

def write (counts : PendingCounts) (h : Handle) (field : BitField) (content : ℕ) : PendingCounts :=
  { counts with
    bytes := counts.bytes.store h.offset h.rep.size (field.set (counts.struct h) content) }

/-- `NodeStateForStruct` -/
def nodeState (counts : PendingCounts) (h : Handle) : NodeState :=
  if counts.read h h.rep.hasStarted ≠ 0 then
    if counts.read h h.rep.pending = 0 then .started else .completed
  else
    if counts.read h h.rep.pending = 0 then .pendingReady else .pendingNotReady

/-- The pending count encodes the state once the node has started, so then this is 0. -/
def pending (counts : PendingCounts) (h : Handle) : ℤ :=
  if counts.nodeState h = .pendingNotReady then asInt (counts.read h h.rep.pending) else 0

def deadCount (counts : PendingCounts) (h : Handle) : ℤ := counts.read h h.rep.deadCount

/-- `c->pending -= v`, in 32 bits before it is put into the field -/
def lowerPending (counts : PendingCounts) (h : Handle) (v : ℤ) : PendingCounts :=
  counts.write h h.rep.pending ((counts.read h h.rep.pending - v) % 2 ^ 32).toNat

/-- `c->dead_count++` -/
def raiseDeadCount (counts : PendingCounts) (h : Handle) : PendingCounts :=
  counts.write h h.rep.deadCount (counts.read h h.rep.deadCount + 1)

/-! ## The calls on a handle -/

def setInitialCount (counts : PendingCounts) (h : Handle) (pendingCount : ℕ) :
    Option PendingCounts :=
  if counts.Holds h ∧ (h.isLarge ∨ pendingCount ≤ kMaxCountForPackedCounts) then
    some (((counts.write h h.rep.pending pendingCount).write h h.rep.deadCount 0).write h
      h.rep.hasStarted 0)
  else none

def markStarted (counts : PendingCounts) (h : Handle) : Option PendingCounts :=
  if counts.Holds h ∧ counts.pending h = 0 ∧ counts.read h h.rep.hasStarted = 0 then
    some (counts.write h h.rep.hasStarted 1)
  else none

def markCompleted (counts : PendingCounts) (h : Handle) : Option PendingCounts :=
  if counts.Holds h ∧ counts.read h h.rep.hasStarted = 1 then
    some (counts.write h h.rep.pending 1)
  else none

/-- The second component is the result: the field itself, not what `pending` makes of it. -/
def decrementPending (counts : PendingCounts) (h : Handle) (v : ℤ) : Option (PendingCounts × ℤ) :=
  if counts.Holds h ∧ v ≤ counts.pending h then
    some (counts.lowerPending h v, asInt ((counts.lowerPending h v).read h h.rep.pending))
  else none

def markLive (counts : PendingCounts) (h : Handle) : Option PendingCounts :=
  if counts.Holds h then
    -- only do anything if the node has not already started executing
    if counts.nodeState h = .pendingNotReady then
      some (counts.write h h.rep.pending (counts.read h h.rep.pending &&& h.rep.liveMask))
    else some counts
  else none

def incrementDeadCount (counts : PendingCounts) (h : Handle) : Option PendingCounts :=
  if counts.Holds h then
    if counts.nodeState h = .pendingNotReady then
      if h.isLarge ∨ counts.read h h.rep.deadCount < kMaxCountForPackedCounts then
        some (counts.raiseDeadCount h)
      else none
    else some counts
  else none

/-- The counts afterwards, the pending result and the dead result. -/
def adjustForActivationShared (counts : PendingCounts) (h : Handle) (incrementDead : Bool) :
    PendingCounts × ℤ × ℤ :=
  let counted :=
    if incrementDead ∧ counts.nodeState h = .pendingNotReady then counts.raiseDeadCount h
    else counts
  let adjusted := counted.lowerPending h 1
  (adjusted, asInt (adjusted.read h h.rep.pending), adjusted.read h h.rep.deadCount)

def adjustForActivation (counts : PendingCounts) (h : Handle) (incrementDead : Bool) :
    Option (PendingCounts × ℤ × ℤ) :=
  if counts.Holds h ∧ 1 ≤ counts.pending h then
    some (counts.adjustForActivationShared h incrementDead)
  else none

/-- The calls that change the counts. -/
inductive Call
  | setInitialCount (pendingCount : ℕ)
  | decrementPending (v : ℤ)
  | markLive
  | incrementDeadCount
  | adjustForActivation (incrementDead : Bool)
  | markStarted
  | markCompleted

def call (counts : PendingCounts) (h : Handle) : Call → Option PendingCounts
  | .setInitialCount pendingCount => counts.setInitialCount h pendingCount
  | .decrementPending v => (counts.decrementPending h v).map Prod.fst
  | .markLive => counts.markLive h
  | .incrementDeadCount => counts.incrementDeadCount h
  | .adjustForActivation incrementDead =>
      (counts.adjustForActivation h incrementDead).map Prod.fst
  | .markStarted => counts.markStarted h
  | .markCompleted => counts.markCompleted h

/-- The calls on an object with the handles' layout, each label naming a handle. The bytes are not
initialised. -/
def machine (layout : List Handle × ℤ) (bytes : Bytes) : Machine PendingCounts (ℕ × Call) where
  init := ⟨layout.2, bytes⟩
  step counts label := layout.1[label.1]?.bind fun h => counts.call h label.2

end PendingCounts

end ContainerScheduler.Executor
