/-
# A memory arena

An arena plans allocations as ranges of offsets and commits a buffer that holds all of them. Ranges
may overlap in time only if they do not overlap in space: a new allocation goes into the smallest
gap between the allocations that are live, or behind all of them.

Offsets and sizes are unsigned 64-bit numbers. The address of a new buffer is an argument.
-/

import ContainerScheduler.Math.ByteMemory
import ContainerScheduler.Math.Transition

namespace ContainerScheduler.Arena

open Math

inductive TfLiteStatus
  | ok
  | error
  deriving DecidableEq, Repr

/-- The value of an unsigned 64-bit result. -/
def sizeT (value : ℕ) : ℕ := value % 2 ^ 64

/-- The difference of two unsigned 64-bit numbers. -/
def subtract (x y : ℕ) : ℕ := sizeT (x + 2 ^ 64 - y)

def alignTo (alignment offset : ℕ) : ℕ :=
  if offset % alignment = 0 then offset else sizeT (offset + (alignment - offset % alignment))

structure ArenaAlloc where
  offset : ℕ
  size : ℕ
  deriving DecidableEq, Repr

/-- The offset after the allocation. -/
def ArenaAlloc.finish (alloc : ArenaAlloc) : ℕ := alloc.offset + alloc.size

structure SimpleMemoryArena where
  committed : Bool
  arenaAlignment : ℕ
  highWaterMark : ℕ
  /-- The address of the buffer, if there is one. -/
  underlyingBuffer : Option ℕ
  underlyingBufferSize : ℕ
  underlyingBufferAlignedPtr : ℕ
  allocs : List ArenaAlloc
  deriving DecidableEq, Repr

/-- The best gap so far: where the allocation would go, the size of the gap and the place in the
list before which it would be inserted. -/
structure BestFit where
  offset : ℕ
  fit : ℕ
  insertion : ℕ
  deriving DecidableEq, Repr

/-- The gaps before each of the allocations, the first of which is number `index`. -/
def bestFit (alignment size : ℕ) : List ArenaAlloc → ℕ → ℕ → BestFit → BestFit
  | [], _, _, best => best
  | alloc :: rest, index, currentOffset, best =>
      let alignedCurrentOffset := alignTo alignment currentOffset
      let gap := subtract alloc.offset currentOffset
      bestFit alignment size rest (index + 1) (sizeT (alloc.offset + alloc.size))
        (if sizeT (alignedCurrentOffset + size) ≤ alloc.offset ∧ gap < best.fit then
          ⟨alignedCurrentOffset, gap, index⟩
        else best)

/-- Erase all allocations at the offset of the given one. `none` if one of them has another size;
the ones after it are left alone then. -/
def eraseAllocs (alloc : ArenaAlloc) : List ArenaAlloc → Option ℕ × List ArenaAlloc
  | [] => (some 0, [])
  | it :: rest =>
      if it.offset = alloc.offset then
        if it.size = alloc.size then
          ((eraseAllocs alloc rest).1.map (· + 1), (eraseAllocs alloc rest).2)
        else (none, it :: rest)
      else ((eraseAllocs alloc rest).1, it :: (eraseAllocs alloc rest).2)

namespace SimpleMemoryArena

def new (arenaAlignment : ℕ) : SimpleMemoryArena := ⟨false, arenaAlignment, 0, none, 0, 0, []⟩

variable (arena : SimpleMemoryArena)

/-- The end of the last allocation. -/
def currentTop : ℕ :=
  match arena.allocs.getLast? with
  | some last => sizeT (last.offset + last.size)
  | none => 0

/-- `Allocate`: the status, the new allocation unless it was refused, and the arena. -/
def allocate (alignment size : ℕ) : TfLiteStatus × Option ArenaAlloc × SimpleMemoryArena :=
  if arena.arenaAlignment < alignment then (.error, none, arena)
  else if size = 0 then (.ok, some ⟨0, 0⟩, arena)
  else
    let best := bestFit alignment size arena.allocs 0 0
      ⟨alignTo alignment arena.currentTop, 2 ^ 64 - 1, arena.allocs.length⟩
    (.ok, some ⟨best.offset, size⟩, { arena with
      highWaterMark := max arena.highWaterMark (sizeT (best.offset + size))
      allocs := arena.allocs.insertIdx best.insertion ⟨best.offset, size⟩ })

def deallocate (alloc : ArenaAlloc) : TfLiteStatus × SimpleMemoryArena :=
  if alloc.size = 0 then (.ok, arena)
  else
    let result := eraseAllocs alloc arena.allocs
    (if result.1 = some 1 then .ok else .error, { arena with allocs := result.2 })

def requiredBufferSize : ℕ :=
  sizeT (arena.arenaAlignment + arena.highWaterMark + arena.arenaAlignment)

/-- `memcpy`. -/
def copyBytes (memory : Bytes) (dest src amount : ℕ) : Bytes := fun address =>
  if dest ≤ address ∧ address < dest + amount then memory (src + (address - dest))
  else memory address

/-- `Commit`, where `new` gives the address. -/
def commit (address : ℕ) (memory : Bytes) : TfLiteStatus × SimpleMemoryArena × Bytes :=
  if arena.underlyingBufferSize < arena.requiredBufferSize then
    let alignedPtr := alignTo arena.arenaAlignment address
    let memory :=
      if 0 < arena.highWaterMark ∧ 0 < arena.underlyingBufferSize then
        copyBytes memory alignedPtr arena.underlyingBufferAlignedPtr
          (min (arena.underlyingBuffer.getD 0 + arena.underlyingBufferSize -
              arena.underlyingBufferAlignedPtr)
            (address + arena.requiredBufferSize - alignedPtr))
      else memory
    (.ok, { arena with
      committed := true
      underlyingBuffer := some address
      underlyingBufferSize := arena.requiredBufferSize
      underlyingBufferAlignedPtr := alignedPtr }, memory)
  else
    (if arena.underlyingBuffer.isSome then .ok else .error,
      { arena with committed := true }, memory)

/-- `ResolveAlloc`: the status and the pointer, `none` for a null one. -/
def resolveAlloc (alloc : ArenaAlloc) : TfLiteStatus × Option ℕ :=
  if arena.committed = false then (.error, none)
  else if alloc.size = 0 then (.ok, none)
  else (.ok, some (arena.underlyingBufferAlignedPtr + alloc.offset))

def clearPlan : SimpleMemoryArena :=
  { arena with committed := false, highWaterMark := 0, allocs := [] }

def releaseBuffer : SimpleMemoryArena :=
  { arena with
    committed := false
    underlyingBufferSize := 0
    underlyingBufferAlignedPtr := 0
    underlyingBuffer := none }

end SimpleMemoryArena

/-- An arena, the memory of the program, and what has been done with them. -/
structure ArenaState where
  arena : SimpleMemoryArena
  memory : Bytes
  /-- The allocations with a size that have been made and not been freed, with the alignments that
  were asked for. -/
  live : List (ℕ × ArenaAlloc)
  /-- Those that could be resolved since the last `Commit`. -/
  resolved : List ArenaAlloc

inductive ArenaCall
  | allocate (alignment size : ℕ)
  | deallocate (alloc : ArenaAlloc)
  | commit (address : ℕ)
  | clearPlan
  | releaseBuffer
  /-- The program writes into its memory. -/
  | write (address : ℕ) (byte : UInt8)
  deriving DecidableEq, Repr

/-- All sequences of calls. -/
def memoryArena (arenaAlignment : ℕ) : Machine ArenaState ArenaCall where
  init := ⟨.new arenaAlignment, fun _ => 0, [], []⟩
  step state
    | .allocate alignment size =>
        let result := state.arena.allocate alignment size
        some { state with
          arena := result.2.2
          live := state.live ++
            (result.2.1.filter fun alloc => alloc.size ≠ 0).toList.map fun alloc =>
              (alignment, alloc) }
    | .deallocate alloc =>
        let result := state.arena.deallocate alloc
        some { state with
          arena := result.2
          live := state.live.eraseP fun entry => entry.2 = alloc
          resolved := state.resolved.erase alloc }
    | .commit address =>
        let result := state.arena.commit address state.memory
        some { state with
          arena := result.2.1
          memory := result.2.2
          resolved := result.2.1.allocs }
    | .clearPlan =>
        some { state with arena := state.arena.clearPlan, live := [], resolved := [] }
    | .releaseBuffer => some { state with arena := state.arena.releaseBuffer, resolved := [] }
    | .write address byte => some { state with memory := Function.update state.memory address byte }

end ContainerScheduler.Arena
