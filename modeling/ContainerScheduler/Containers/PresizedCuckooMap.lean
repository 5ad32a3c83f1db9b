/-
# The presized cuckoo map

A key lies in one of two buckets. When both are full, a breadth-first search over the buckets in
which the stored keys could lie as well looks for one with a free slot, and the keys on the path to
it are moved by one step each.

An access behind the end of an array is a failure. What an array holds that was not set is taken
from the state, and the number of buckets, which `Clear` computes in floating point, is given.
-/

import Mathlib.Algebra.Order.Ring.Int

namespace ContainerScheduler.Containers

namespace PresizedCuckooMap

def kSlotsPerBucket : ℕ := 4
def kMaxBFSPathLen : ℕ := 5
def kMaxQueueSize : ℕ := 682
def kVisitedListSize : ℕ := 170

def kUnusedSlot : UInt64 := ~~~0

inductive Failure
  /-- An index is out of range. -/
  | outOfRange
  /-- A loop did not end. -/
  | outOfTurns
  deriving DecidableEq

def read {α : Type} {n : ℕ} (xs : Vector α n) (i : ℕ) : Except Failure α :=
  if h : i < n then .ok (xs[i]) else .error .outOfRange

def write {α : Type} {n : ℕ} (xs : Vector α n) (i : ℕ) (x : α) : Except Failure (Vector α n) :=
  if h : i < n then .ok (xs.set i x) else .error .outOfRange

/-! ## The queue -/

/-- A parent is an index in the array of visited entries. -/
structure CuckooPathEntry where
  bucket : UInt64
  depth : ℕ
  parent : ℕ
  parentSlot : ℕ
  deriving DecidableEq

structure CuckooPathQueue where
  queue : Vector CuckooPathEntry kMaxQueueSize
  head : ℕ
  tail : ℕ

namespace CuckooPathQueue

variable (q : CuckooPathQueue)

def pushBack (e : CuckooPathEntry) : Except Failure CuckooPathQueue :=
  (write q.queue q.tail e).map fun queue => { q with queue, tail := (q.tail + 1) % kMaxQueueSize }

def popFront : Except Failure (CuckooPathEntry × CuckooPathQueue) :=
  (read q.queue q.head).map fun e => (e, { q with head := (q.head + 1) % kMaxQueueSize })

def empty : Bool := q.head == q.tail

def reset : CuckooPathQueue := { q with head := 0, tail := 0 }

end CuckooPathQueue

/-! ## The map -/

structure Bucket (β : Type) where
  keys : Vector UInt64 kSlotsPerBucket
  values : Vector β kSlotsPerBucket

end PresizedCuckooMap

open PresizedCuckooMap

structure PresizedCuckooMap (β : Type) where
  numBuckets : UInt64
  buckets : List (Bucket β)
  cpq : CuckooPathQueue
  visited : Vector CuckooPathEntry kVisitedListSize

namespace PresizedCuckooMap

variable {β : Type}

/-- The map that `Clear` leaves. -/
def clear (numBuckets : UInt64) (queue : Vector CuckooPathEntry kMaxQueueSize)
    (visited : Vector CuckooPathEntry kVisitedListSize) (value : β) : PresizedCuckooMap β where
  numBuckets
  buckets := List.replicate numBuckets.toNat
    ⟨Vector.replicate kSlotsPerBucket kUnusedSlot, Vector.replicate kSlotsPerBucket value⟩
  cpq := { queue, head := 0, tail := 0 }
  visited

def multiplyHighU64 (x y : UInt64) : UInt64 := UInt64.ofNat (x.toNat * y.toNat / 2 ^ 64)

/-- The same for platforms without integers of 128 bits. -/
def multiplyHighU64Portable (x y : UInt64) : UInt64 :=
  let xLo : UInt64 := x &&& 0xffffffff
  let xHi : UInt64 := x >>> 32
  let bucketsLo : UInt64 := y &&& 0xffffffff
  let bucketsHi : UInt64 := y >>> 32
  let prodHi := xHi * bucketsHi
  let prodLo := xLo * bucketsLo
  let prodMid1 := xHi * bucketsLo
  let prodMid2 := xLo * bucketsHi
  let carry : UInt64 := ((prodMid1 &&& (0xffffffff : UInt64)) +
    (prodMid2 &&& (0xffffffff : UInt64)) + (prodLo >>> (32 : UInt64))) >>> (32 : UInt64)
  prodHi + (prodMid1 >>> 32) + (prodMid2 >>> 32) + carry

def keyTransform (k : UInt64) : UInt64 := k + if k = kUnusedSlot then 1 else 0

def h2 (h : UInt64) : UInt64 :=
  (0xc6a4a7935bd1e995 : UInt64) * ((h >>> 32) ||| (h <<< 32))

variable (m : PresizedCuckooMap β)

def fastMapToBuckets (x : UInt64) : UInt64 := multiplyHighU64 x m.numBuckets

def fastMapToBucketsPortable (x : UInt64) : UInt64 := multiplyHighU64Portable x m.numBuckets

def altBucket (k b : UInt64) : UInt64 :=
  if m.fastMapToBuckets k ≠ b then m.fastMapToBuckets k else m.fastMapToBuckets (h2 k)

def bucketAt (b : UInt64) : Except Failure (Bucket β) :=
  match m.buckets[b.toNat]? with
  | some bucket => .ok bucket
  | none => .error .outOfRange

def insertInternal (k : UInt64) (v : β) (b : UInt64) (slot : ℕ) :
    Except Failure (PresizedCuckooMap β) :=
  (m.bucketAt b).bind fun bucket =>
    (write bucket.keys slot k).bind fun keys =>
      (write bucket.values slot v).bind fun values =>
        .ok { m with buckets := m.buckets.set b.toNat ⟨keys, values⟩ }

def copyItem (srcBucket : UInt64) (srcSlot : ℕ) (dstBucket : UInt64) (dstSlot : ℕ) :
    Except Failure (PresizedCuckooMap β) :=
  (m.bucketAt srcBucket).bind fun bucket =>
    (read bucket.keys srcSlot).bind fun key =>
      (read bucket.values srcSlot).bind fun value => m.insertInternal key value dstBucket dstSlot

/-- The first slot with a key. -/
def slotOf (keys : Vector UInt64 kSlotsPerBucket) (k : UInt64) : Option (Fin kSlotsPerBucket) :=
  (List.finRange kSlotsPerBucket).find? fun slot => keys[slot] == k

def findInBucket (k b : UInt64) : Except Failure (Option β) :=
  (m.bucketAt b).map fun bucket => (slotOf bucket.keys k).map fun slot => bucket.values[slot]

def find (k : UInt64) : Except Failure (Option β) :=
  let tk := keyTransform k
  (m.findInBucket k (m.fastMapToBuckets tk)).bind fun
    | some value => .ok (some value)
    | none => m.findInBucket k (m.fastMapToBuckets (h2 tk))

def spaceAvailable (bucket : UInt64) : Except Failure (Option ℕ) :=
  (m.bucketAt bucket).map fun bref => (slotOf bref.keys kUnusedSlot).map Fin.val

/-! ## Insertion -/

/-- Moves the items on the path up to an entry by one step each, and inserts the new one. -/
def moveItems (k : UInt64) (v : β) : (turns : ℕ) → PresizedCuckooMap β → CuckooPathEntry →
    (freeSlot : ℕ) → Except Failure (PresizedCuckooMap β)
  | 0, _, _, _ => .error .outOfTurns
  | turns + 1, m, e, freeSlot =>
      if e.depth > 1 then
        (read m.visited e.parent).bind fun parent =>
          (m.copyItem parent.bucket e.parentSlot e.bucket freeSlot).bind fun m =>
            moveItems k v turns m parent e.parentSlot
      else m.insertInternal k v e.bucket freeSlot

/-- The loop over the slots of a bucket without space, whose entry is at `parentIndex`. -/
def pushChildren (startSlot : ℕ) (e : CuckooPathEntry) (parentIndex : ℕ) (bref : Bucket β) :
    List ℕ → CuckooPathQueue → Except Failure CuckooPathQueue
  | [], cpq => .ok cpq
  | i :: is, cpq =>
      let slot := (startSlot + i) % kSlotsPerBucket
      (read bref.keys slot).bind fun key =>
        (read m.visited e.parent).bind fun parent =>
          let nextBucket := m.altBucket key e.bucket
          -- Avoid single-step cycles.
          if nextBucket ≠ parent.bucket then
            (cpq.pushBack ⟨nextBucket, e.depth + 1, parentIndex, slot⟩).bind fun cpq =>
              pushChildren startSlot e parentIndex bref is cpq
          else pushChildren startSlot e parentIndex bref is cpq

/-- The entry that was popped is visited, unless it has space. -/
def visit (k : UInt64) (visitedEnd : ℕ) (e : CuckooPathEntry) :
    Except Failure (PresizedCuckooMap β × ℕ) :=
  if e.depth < kMaxBFSPathLen then
    (write m.visited visitedEnd e).bind fun visited =>
      (m.bucketAt e.bucket).bind fun bref =>
        let startSlot := ((k + e.bucket) % 4).toNat
        (pushChildren { m with visited } startSlot e visitedEnd bref (List.range kSlotsPerBucket)
          m.cpq).bind fun cpq => .ok ({ m with visited, cpq }, visitedEnd + 1)
  else .ok (m, visitedEnd)

def searchLoop (k : UInt64) (v : β) : (turns : ℕ) → PresizedCuckooMap β → (visitedEnd : ℕ) →
    Except Failure (Bool × PresizedCuckooMap β)
  | 0, _, _ => .error .outOfTurns
  | turns + 1, m, visitedEnd =>
      if m.cpq.empty then .ok (false, m)
      else
        m.cpq.popFront.bind fun popped =>
          (m.spaceAvailable popped.1.bucket).bind fun
            | some freeSlot =>
                (moveItems k v turns { m with cpq := popped.2 } popped.1 freeSlot).map (true, ·)
            | none =>
                ({ m with cpq := popped.2 }.visit k visitedEnd popped.1).bind fun next =>
                  searchLoop k v turns next.1 next.2

def cuckooInsert (turns : ℕ) (k : UInt64) (v : β) (b1 b2 : UInt64) :
    Except Failure (Bool × PresizedCuckooMap β) :=
  -- Depth starts at 1.
  (m.cpq.reset.pushBack ⟨b1, 1, 0, 0⟩).bind fun cpq =>
    (cpq.pushBack ⟨b2, 1, 0, 0⟩).bind fun cpq => searchLoop k v turns { m with cpq } 0

/-- The loop over the slots of a bucket: nothing if it holds the key, and else the target. -/
def scanSlots (k bucket : UInt64) (keys : Vector UInt64 kSlotsPerBucket) :
    List (Fin kSlotsPerBucket) → (target : Option (UInt64 × ℕ)) → Option (Option (UInt64 × ℕ))
  | [], target => some target
  | slot :: slots, target =>
      if keys[slot] = k then none
      else
        scanSlots k bucket keys slots
          (if target = none ∧ keys[slot] = kUnusedSlot then some (bucket, slot.val) else target)

/-- Merged find and duplicate checking. -/
def scanBuckets (k : UInt64) : List UInt64 → (target : Option (UInt64 × ℕ)) →
    Except Failure (Option (Option (UInt64 × ℕ)))
  | [], target => .ok (some target)
  | bucket :: buckets, target =>
      (m.bucketAt bucket).bind fun bptr =>
        match scanSlots k bucket bptr.keys (List.finRange kSlotsPerBucket) target with
        | none => .ok none
        | some target => scanBuckets k buckets target

def insertUnique (turns : ℕ) (k : UInt64) (v : β) : Except Failure (Bool × PresizedCuckooMap β) :=
  let tk := keyTransform k
  let b1 := m.fastMapToBuckets tk
  let b2 := m.fastMapToBuckets (h2 tk)
  (m.scanBuckets k [b1, b2] none).bind fun
    | none => .ok (false, m)
    | some (some target) => (m.insertInternal tk v target.1 target.2).map (true, ·)
    | some none => m.cuckooInsert turns tk v b1 b2

end PresizedCuckooMap

end ContainerScheduler.Containers
