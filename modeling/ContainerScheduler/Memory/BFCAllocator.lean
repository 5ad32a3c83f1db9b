/-
# The regions of the best-fit allocator

The allocator asks a sub-allocator for regions of memory and divides them into
chunks. `Extend` asks for one more region: it doubles the size of the next region
until the request fits, asks for it, and tries smaller sizes, once in the lifetime
of the allocator, when the sub-allocator has no memory.

Sizes are 64-bit words, which wrap around. The factor of the smaller sizes is the
exact fraction nine tenths. The iterations of each loop are bounded, and a call
whose loop needs more has no result.
-/

import Mathlib.Data.Nat.Notation

namespace ContainerScheduler.Memory

/-- A piece of a region that is either free or in use by one allocation. -/
structure Chunk where
  size : UInt64 := 0
  requestedSize : UInt64 := 0
  allocationId : Option ℕ := none
  ptr : ℕ := 0
  prev : Option ℕ := none
  next : Option ℕ := none
  binNum : Option ℕ := none
  freedAtCount : UInt64 := 0
  deriving DecidableEq, Repr

/-- Memory obtained by one call of the sub-allocator, with the handle of the chunk that
starts at each multiple of the smallest size. -/
structure AllocationRegion where
  ptr : ℕ
  memorySize : UInt64
  handles : List (Option ℕ)
  deriving DecidableEq, Repr

namespace AllocationRegion

def endPtr (region : AllocationRegion) : ℕ :=
  region.ptr + region.memorySize.toNat

def new (ptr : ℕ) (memorySize : UInt64) : AllocationRegion :=
  ⟨ptr, memorySize, List.replicate ((memorySize.toNat + 255) / 256) none⟩

def setHandle (region : AllocationRegion) (ptr : ℕ) (handle : Option ℕ) : AllocationRegion :=
  { region with handles := region.handles.set ((ptr - region.ptr) / 256) handle }

end AllocationRegion

structure BFCAllocator where
  memoryLimit : UInt64
  currRegionAllocationBytes : UInt64
  totalRegionAllocatedBytes : UInt64 := 0
  startedBackpedal : Bool := false
  /-- Sorted by their ends. -/
  regions : List AllocationRegion := []
  chunks : List Chunk := []
  freeChunksList : Option ℕ := none
  /-- The free chunks of each bin, smaller ones first. -/
  bins : List (List ℕ) := List.replicate 21 []
  deriving DecidableEq, Repr

/-- What a sub-allocator answers: to which call of it, for which alignment and size. -/
abbrev SubAllocator := ℕ → UInt64 → UInt64 → Option ℕ

namespace BFCAllocator

/-- The next multiple of the smallest size. -/
def roundedBytes (bytes : UInt64) : UInt64 :=
  256 * ((bytes + 255) / 256)

/-- A new allocator. -/
def new (totalMemory : UInt64) (allowGrowth : Bool) : BFCAllocator where
  memoryLimit := totalMemory
  currRegionAllocationBytes :=
    -- 1 MiB smallest initial allocation, unless the total memory is less
    if allowGrowth then roundedBytes (min totalMemory 1048576) else roundedBytes totalMemory

def binNumForSize (bytes : UInt64) : ℕ :=
  min 20 (Nat.log2 (max bytes.toNat 256 / 256))

/-- Insert a region before the first one that ends behind its start. -/
def addAllocationRegion (allocator : BFCAllocator) (ptr : ℕ) (memorySize : UInt64) :
    BFCAllocator :=
  let isBefore := fun region : AllocationRegion => decide (region.endPtr ≤ ptr)
  { allocator with
    regions := allocator.regions.takeWhile isBefore ++
      AllocationRegion.new ptr memorySize :: allocator.regions.dropWhile isBefore }

/-- Set the handle of an address in the first region that ends behind it. -/
def setHandle (allocator : BFCAllocator) (ptr : ℕ) (handle : Option ℕ) : BFCAllocator :=
  { allocator with
    regions :=
      match allocator.regions.findIdx? fun region => decide (ptr < region.endPtr) with
      | some index => allocator.regions.modify index fun region => region.setHandle ptr handle
      | none => allocator.regions }

/-- Take a chunk from the list of unused ones, or a new one at the end. -/
def allocateChunk (allocator : BFCAllocator) : ℕ × BFCAllocator :=
  match allocator.freeChunksList with
  | some handle =>
      (handle, { allocator with
        freeChunksList := (allocator.chunks[handle]?).bind Chunk.next })
  | none =>
      (allocator.chunks.length, { allocator with chunks := allocator.chunks ++ [{}] })

def chunkFromHandle (allocator : BFCAllocator) (handle : ℕ) : Chunk :=
  allocator.chunks.getD handle {}

/-- The order of the chunks of a bin: by size, then by address. -/
def chunkLess (allocator : BFCAllocator) (first second : ℕ) : Bool :=
  let a := allocator.chunkFromHandle first
  let b := allocator.chunkFromHandle second
  if a.size ≠ b.size then a.size < b.size else a.ptr < b.ptr

def insertFreeChunkIntoBin (allocator : BFCAllocator) (handle : ℕ) : BFCAllocator :=
  let binNum := binNumForSize (allocator.chunkFromHandle handle).size
  let isBefore := fun other => allocator.chunkLess other handle
  { allocator with
    chunks := allocator.chunks.modify handle fun chunk => { chunk with binNum := some binNum }
    bins := allocator.bins.modify binNum fun bin =>
      bin.takeWhile isBefore ++ handle :: bin.dropWhile isBefore }

/-- Double the size of a region until the request fits. -/
def doubleRegion : ℕ → UInt64 → UInt64 → Option UInt64
  | 0, _, _ => none
  | fuel + 1, roundedBytes, currRegionAllocationBytes =>
      if roundedBytes > currRegionAllocationBytes then
        doubleRegion fuel roundedBytes (currRegionAllocationBytes * 2)
      else some currRegionAllocationBytes

/-- Nine tenths of a size, rounded. -/
def smallerBytes (bytes : UInt64) : UInt64 :=
  roundedBytes (UInt64.ofNat (bytes.toNat * 9 / 10))

/-- What the loop over smaller sizes ends with: the memory, its size, and the sizes
that were tried. -/
structure Backpedalled where
  memAddr : Option ℕ
  bytes : UInt64
  tried : List UInt64
  deriving DecidableEq, Repr

/-- Try smaller and smaller sizes until there is memory or the request does not fit.
`attempt` counts the calls of the sub-allocator. -/
def backpedal (subAllocator : SubAllocator) (alignment roundedBytes : UInt64) :
    ℕ → ℕ → UInt64 → Option Backpedalled
  | 0, _, _ => none
  | fuel + 1, attempt, bytes =>
      let bytes := smallerBytes bytes
      if bytes < roundedBytes then some ⟨none, bytes, []⟩
      else
        match subAllocator attempt alignment bytes with
        | some memAddr => some ⟨some memAddr, bytes, [bytes]⟩
        | none =>
            (backpedal subAllocator alignment roundedBytes fuel (attempt + 1) bytes).map
              fun rest => { rest with tried := bytes :: rest.tried }

/-- The memory that is left below the limit, in multiples of the smallest size. -/
def availableBytes (allocator : BFCAllocator) : UInt64 :=
  (allocator.memoryLimit - allocator.totalRegionAllocatedBytes) / 256 * 256

/-- A region that the sub-allocator has given becomes one free chunk. -/
def addRegion (allocator : BFCAllocator) (memAddr : ℕ) (bytes : UInt64) : BFCAllocator :=
  let allocator := { allocator with
    totalRegionAllocatedBytes := allocator.totalRegionAllocatedBytes + bytes }
  let (handle, allocator) := (allocator.addAllocationRegion memAddr bytes).allocateChunk
  let allocator := { allocator with
    chunks := allocator.chunks.modify handle fun chunk =>
      { chunk with
        ptr := memAddr, size := bytes, allocationId := none, prev := none, next := none
        freedAtCount := 0 } }
  (allocator.setHandle memAddr (some handle)).insertFreeChunkIntoBin handle

/-- A call of `Extend` that has returned. -/
structure Extension where
  extended : Bool
  allocator : BFCAllocator
  /-- The sizes that the loop over smaller sizes tried. -/
  tried : List UInt64 := []
  deriving DecidableEq, Repr

/-- Try to add a region that can satisfy a request. -/
def extend (fuel : ℕ) (subAllocator : SubAllocator) (alignment roundedBytes : UInt64)
    (allocator : BFCAllocator) : Option Extension :=
  let availableBytes := allocator.availableBytes
  -- do we have enough space to handle the client's request?
  if roundedBytes > availableBytes then some { extended := false, allocator := allocator }
  else do
    let currRegionAllocationBytes ←
      doubleRegion fuel roundedBytes allocator.currRegionAllocationBytes
    let increasedAllocation := decide (roundedBytes > allocator.currRegionAllocationBytes)
    let allocator := { allocator with currRegionAllocationBytes := currRegionAllocationBytes }
    let bytes := min currRegionAllocationBytes availableBytes
    let memAddr := subAllocator 0 alignment bytes
    let (attempted, allocator) ←
      if memAddr = none ∧ !allocator.startedBackpedal then do
        -- only backpedal once
        let attempted ← backpedal subAllocator alignment roundedBytes fuel 1 bytes
        pure (attempted, { allocator with startedBackpedal := true })
      else pure (⟨memAddr, bytes, []⟩, allocator)
    match attempted.memAddr with
    | none => some { extended := false, allocator := allocator, tried := attempted.tried }
    | some memAddr =>
        -- increase the region size of the next required allocation
        let next := if increasedAllocation then allocator.currRegionAllocationBytes
          else allocator.currRegionAllocationBytes * 2
        let allocator := { allocator with currRegionAllocationBytes := next }
        some
          { extended := true
            allocator := allocator.addRegion memAddr attempted.bytes
            tried := attempted.tried }

end BFCAllocator

end ContainerScheduler.Memory
