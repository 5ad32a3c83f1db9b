/-
# The pool allocator

Chunks that users give back are kept in a pool, by their sizes, and in a list by the time of their
return. A chunk starts with a prefix that has its size and its address; the address stands again in
front of the user's pointer. When the pool is full the chunk at the end of the list is freed.

The sub-allocator keeps the chunks that it has handed out, with the sizes that they were freed
with. The memory has words at the multiples of 8. `find` gives the first entry with a key. Ratios
of counters and the product with `1.1`, which are floating-point numbers, are given.
-/

import ContainerScheduler.Math.Transition
import Mathlib.Algebra.Order.Ring.Int

namespace ContainerScheduler.Memory

open Math

namespace PoolAllocator

/-- `sizeof(ChunkPrefix)`. -/
def kPoolAlignment : ℕ := 16

inductive Fault
  | checkFailed
  /-- A record is used that was deleted. -/
  | deleted
  /-- An iterator is behind the last entry. -/
  | behindEnd
  /-- A chunk is freed that is not handed out. -/
  | notHandedOut
  | outOfTurns
  deriving DecidableEq

/-- What does not change. -/
structure Setup where
  poolSizeLimit : ℕ
  autoResize : Bool
  roundUp : ℕ → ℕ
  /-- Whether a quotient is above `kTolerable`. -/
  exceeds : ℤ → ℤ → Bool
  /-- `kIncreaseFactor * pool_size_limit_`. -/
  increase : ℕ → ℕ

def Setup.hasSizeLimit (setup : Setup) : Bool := setup.poolSizeLimit > 0

structure PtrRecord where
  ptr : ℕ
  numBytes : ℕ
  prev : Option ℕ
  next : Option ℕ

/-- A chunk of the sub-allocator, with the sizes that it was freed with. -/
structure Chunk where
  ptr : ℕ
  size : ℕ
  frees : List ℕ
  deriving DecidableEq

/-- What a user has asked for, and the pointer. -/
structure User where
  ptr : ℕ
  numBytes : ℕ
  alignment : ℕ
  deriving DecidableEq

/-- Records have numbers, which are not used again. -/
structure State where
  poolSizeLimit : ℕ
  pool : List (ℕ × ℕ) := []
  records : ℕ → Option PtrRecord := fun _ => none
  nextRecord : ℕ := 0
  lruHead : Option ℕ := none
  lruTail : Option ℕ := none
  getFromPoolCount : ℤ := 0
  putCount : ℤ := 0
  allocatedCount : ℤ := 0
  evictedCount : ℤ := 0
  mem : ℕ → ℕ
  chunks : List Chunk := []
  users : List User := []

/-! ## Chunks -/

/-- The chunk that is handed out at an address is freed. -/
def freeChunk (ptr size : ℕ) : List Chunk → Option (List Chunk)
  | [] => none
  | chunk :: chunks =>
      if chunk.ptr = ptr ∧ chunk.frees = [] then some ({ chunk with frees := [size] } :: chunks)
      else (freeChunk ptr size chunks).map (chunk :: ·)

/-- The memory behind the writes to the prefixes, and the pointer for the user. -/
def prepareChunk (mem : ℕ → ℕ) (chunk alignment numBytes : ℕ) : Except Fault ((ℕ → ℕ) × ℕ) :=
  let mem := Function.update (Function.update mem chunk numBytes) (chunk + 8) chunk
  let userPtr := chunk + kPoolAlignment
  -- `~(alignment - 1)` of a `size_t`
  let aligned := if alignment > kPoolAlignment then
      (userPtr + alignment) % 2 ^ 64 &&& (2 ^ 64 - alignment)
    else userPtr
  let mem := if alignment > kPoolAlignment then Function.update mem (aligned - 8) chunk else mem
  if aligned ≥ chunk + kPoolAlignment then .ok (mem, aligned) else .error .checkFailed

def findPrefix (mem : ℕ → ℕ) (userPtr : ℕ) : ℕ := mem (userPtr - 8)

/-! ## The pool by sizes -/

/-- The first entry with a key is erased. -/
def eraseFirst (key : ℕ) : List (ℕ × ℕ) → Option (ℕ × List (ℕ × ℕ))
  | [] => none
  | entry :: pool =>
      if entry.1 = key then some (entry.2, pool)
      else (eraseFirst key pool).map fun found => (found.1, entry :: found.2)

/-- From an entry on, that of a record is erased. -/
def eraseFrom (id : ℕ) : List (ℕ × ℕ) → Option (List (ℕ × ℕ))
  | [] => none
  | entry :: pool =>
      if entry.2 = id then some pool else (eraseFrom id pool).map (entry :: ·)

/-- From the first entry with a key on. -/
def eraseRecord (key id : ℕ) : List (ℕ × ℕ) → Option (List (ℕ × ℕ))
  | [] => none
  | entry :: pool =>
      if entry.1 = key then eraseFrom id (entry :: pool)
      else (eraseRecord key id pool).map (entry :: ·)

/-- Behind the entries with the same key. -/
def insertEntry (key id : ℕ) : List (ℕ × ℕ) → List (ℕ × ℕ)
  | [] => [(key, id)]
  | entry :: pool =>
      if key < entry.1 then (key, id) :: entry :: pool else entry :: insertEntry key id pool

namespace State

variable (setup : Setup) (s : State)

def record (id : ℕ) : Except Fault PtrRecord :=
  match s.records id with
  | some record => .ok record
  | none => .error .deleted

def setRecord (id : ℕ) (record : PtrRecord) : State :=
  { s with records := Function.update s.records id (some record) }

def deleteRecord (id : ℕ) : State := { s with records := Function.update s.records id none }

/-- `allocator_->Free(ptr, num_bytes)`. -/
def free (ptr numBytes : ℕ) : Except Fault State :=
  match freeChunk ptr numBytes s.chunks with
  | some chunks => .ok { s with chunks }
  | none => .error .notHandedOut

/-! ## The list -/

/-- The first half of `RemoveFromList`. -/
def relinkPrev (id : ℕ) (pr : PtrRecord) : Except Fault State :=
  match pr.prev with
  | none => if s.lruHead = some id then .ok { s with lruHead := none } else .error .checkFailed
  | some prev =>
      (s.record prev).map fun (other : PtrRecord) =>
        s.setRecord prev { other with next := pr.next }

/-- The second half. -/
def relinkNext (id : ℕ) (pr : PtrRecord) : Except Fault State :=
  match pr.next with
  | none => if s.lruTail = some id then .ok { s with lruTail := pr.prev } else .error .checkFailed
  | some next =>
      (s.record next).map fun (other : PtrRecord) =>
        let s : State := s.setRecord next { other with prev := pr.prev }
        if s.lruHead = none then { s with lruHead := pr.next } else s

def removeFromList (id : ℕ) : Except Fault State :=
  (s.record id).bind fun pr => (s.relinkPrev id pr).bind fun s => s.relinkNext id pr

/-- `AddToList` for a record that is new. -/
def addToList (id ptr numBytes : ℕ) : Except Fault State :=
  match s.lruHead with
  | none =>
      if s.lruTail = none then
        .ok { s.setRecord id ⟨ptr, numBytes, none, none⟩ with
          lruHead := some id, lruTail := some id }
      else .error .checkFailed
  | some head =>
      (s.record head).map fun (other : PtrRecord) =>
        { (s.setRecord id ⟨ptr, numBytes, none, some head⟩).setRecord head
            { other with prev := some id } with lruHead := some id }

/-! ## Eviction -/

/-- Auto-resizing at the end of `EvictOne`. -/
def resize : State :=
  if s.evictedCount % 1000 = 0 then
    let allocRequestCount := s.allocatedCount + s.getFromPoolCount
    if setup.autoResize && setup.exceeds s.evictedCount s.putCount &&
        (allocRequestCount != 0 && setup.exceeds s.allocatedCount allocRequestCount) then
      { s with
        poolSizeLimit :=
          if s.poolSizeLimit < 100 then 100 else setup.increase s.poolSizeLimit
        putCount := 0
        allocatedCount := 0
        evictedCount := 0
        getFromPoolCount := 0 }
    else s
  else s

def evictOne : Except Fault State :=
  match s.lruTail with
  | none => .error .checkFailed
  | some prec =>
      (s.record prec).bind fun pr =>
        (s.removeFromList prec).bind fun s =>
          match eraseRecord pr.numBytes prec s.pool with
          | none => .error .behindEnd
          | some pool =>
              (State.free { s with pool } pr.ptr pr.numBytes).map fun s =>
                resize setup { s.deleteRecord prec with evictedCount := s.evictedCount + 1 }

/-- `while (pool_.size() >= pool_size_limit_) EvictOne();` -/
def evictWhile : (turns : ℕ) → State → Except Fault State
  | 0, _ => .error .outOfTurns
  | turns + 1, s =>
      if s.pool.length ≥ s.poolSizeLimit then (s.evictOne setup).bind (evictWhile turns) else .ok s

/-! ## Operations -/

/-- The section of `AllocateRaw`, with the deletion of the record. -/
def takeFromPool (size : ℕ) : Except Fault (Option ℕ × State) :=
  match eraseFirst size s.pool with
  | none => .ok (none, { s with allocatedCount := s.allocatedCount + 1 })
  | some (id, pool) =>
      (s.record id).bind fun pr =>
        (State.removeFromList { s with getFromPoolCount := s.getFromPoolCount + 1 } id).map fun s =>
          (some pr.ptr, { s.deleteRecord id with pool })

/-- The size of the chunk for a request, before and behind the rounder. -/
def chunkSize (alignment numBytes : ℕ) : ℕ :=
  let numBytes := if alignment > kPoolAlignment then (numBytes + alignment) % 2 ^ 64 else numBytes
  setup.roundUp ((numBytes + kPoolAlignment) % 2 ^ 64)

/-- `AllocateRaw`, where the sub-allocator gives `chunk` if it is asked. -/
def allocateRaw (alignment numBytes chunk : ℕ) : Except Fault State :=
  if numBytes = 0 then .ok s
  else
    let size := chunkSize setup alignment numBytes
    (if setup.hasSizeLimit then s.takeFromPool size else .ok (none, s)).bind fun found =>
      let ptr := found.1.getD chunk
      let s : State := match found.1 with
        | some _ => found.2
        | none => { found.2 with chunks := found.2.chunks ++ [⟨chunk, size, []⟩] }
      (prepareChunk s.mem ptr alignment size).map fun prepared =>
        { s with mem := prepared.1, users := ⟨prepared.2, numBytes, alignment⟩ :: s.users }

def deallocateRaw (ptr : ℕ) : Except Fault State :=
  let cp := findPrefix s.mem ptr
  let s : State := { s with users := s.users.eraseP fun user => user.ptr = ptr }
  if ptr = 0 then .ok s
  else if ¬cp ≤ ptr then .error .checkFailed
  else if !setup.hasSizeLimit && !setup.autoResize then s.free cp (s.mem cp)
  else
    (evictWhile setup (s.pool.length + 1) { s with putCount := s.putCount + 1 }).bind fun s =>
      let id := s.nextRecord
      (State.addToList { s with nextRecord := id + 1 } id cp (s.mem cp)).map fun s =>
        { s with pool := insertEntry (s.mem cp) id s.pool }

/-- The loop of `Clear`. -/
def freeAll : List (ℕ × ℕ) → State → Except Fault State
  | [], s => .ok s
  | entry :: pool, s =>
      (s.record entry.2).bind fun pr =>
        (s.free pr.ptr pr.numBytes).bind fun s => freeAll pool (s.deleteRecord entry.2)

def clear : Except Fault State :=
  if setup.hasSizeLimit then
    (freeAll s.pool s).map fun s =>
      { s with
        pool := []
        getFromPoolCount := 0
        putCount := 0
        allocatedCount := 0
        evictedCount := 0
        lruHead := none
        lruTail := none }
  else .ok s

/-- A user writes to its bytes. -/
def write (user : User) (word : ℕ → ℕ) : State :=
  { s with mem := fun a =>
      if user.ptr ≤ a ∧ a < user.ptr + user.numBytes then word a else s.mem a }

end State

/-! ## Runs -/

inductive Label
  | allocate (alignment numBytes chunk : ℕ)
  | deallocate (ptr : ℕ)
  | clear
  | write (user : User) (word : ℕ → ℕ)

def act (setup : Setup) (s : State) : Label → Except Fault State
  | .allocate alignment numBytes chunk => s.allocateRaw setup alignment numBytes chunk
  | .deallocate ptr => s.deallocateRaw setup ptr
  | .clear => s.clear setup
  | .write user word => .ok (s.write user word)

/-- The constructor. -/
def create (setup : Setup) (mem : ℕ → ℕ) : Except Fault State :=
  if setup.autoResize = true ∧ ¬0 < setup.poolSizeLimit then .error .checkFailed
  else .ok { poolSizeLimit := setup.poolSizeLimit, mem }

def system (setup : Setup) (mem : ℕ → ℕ) : Machine (Except Fault State) Label where
  init := create setup mem
  step result label :=
    match result with
    | .ok s => some (act setup s label)
    | .error _ => none

end PoolAllocator

end ContainerScheduler.Memory
