/-
# The flat hash map

The table is an open-addressed array of slots. A key has a sequence of slots that starts
at its hash and goes on with quadratic probing. Erasing a key leaves a marker behind, and
a later insertion takes the first marker that it meets when it does not find its key.

The buckets of eight slots are laid out one after the other, so a slot is named by its index
in the array. A loop that has met every slot of the table once and has not stopped never
stops.
-/

import ContainerScheduler.Math.Transition
import Mathlib.Algebra.Order.Ring.Int

namespace ContainerScheduler.Containers

open Math

variable {K V : Type}

/-- A slot: `kEmpty`, `kDeleted`, or a marker of at least 2 with a key and a value. -/
inductive Slot (K V : Type)
  | empty
  | deleted
  | full (marker : ℕ) (key : K) (val : V)
  deriving DecidableEq, Repr

namespace Slot

def isFull : Slot K V → Bool
  | .full .. => true
  | _ => false

def isDeleted : Slot K V → Bool
  | .deleted => true
  | _ => false

def isEmpty : Slot K V → Bool
  | .empty => true
  | _ => false

/-- What is stored in a slot. -/
def entry : Slot K V → Option (K × V)
  | .full _ key val => some (key, val)
  | _ => none

section Kinds

variable {x : ℕ} {key : K} {val : V}

@[simp] theorem isFull_empty : (empty : Slot K V).isFull = false := rfl
@[simp] theorem isFull_deleted : (deleted : Slot K V).isFull = false := rfl
@[simp] theorem isFull_full : (full x key val).isFull = true := rfl
@[simp] theorem isDeleted_empty : (empty : Slot K V).isDeleted = false := rfl
@[simp] theorem isDeleted_deleted : (deleted : Slot K V).isDeleted = true := rfl
@[simp] theorem isDeleted_full : (full x key val).isDeleted = false := rfl
@[simp] theorem isEmpty_empty : (empty : Slot K V).isEmpty = true := rfl
@[simp] theorem isEmpty_deleted : (deleted : Slot K V).isEmpty = false := rfl
@[simp] theorem isEmpty_full : (full x key val).isEmpty = false := rfl

/-- A slot is of one kind. -/
theorem isDeleted_of_isEmpty {slot : Slot K V} (hempty : slot.isEmpty = true) :
    slot.isDeleted = false := by
  cases slot with
  | empty => rfl
  | deleted => cases hempty
  | full => cases hempty

theorem isEmpty_of_isDeleted {slot : Slot K V} (hdeleted : slot.isDeleted = true) :
    slot.isEmpty = false := by
  cases slot with
  | empty => cases hdeleted
  | deleted => rfl
  | full => cases hdeleted

theorem of_isFull {slot : Slot K V} (hfull : slot.isFull = true) :
    slot.isEmpty = false ∧ slot.isDeleted = false := by
  cases slot with
  | empty => cases hfull
  | deleted => cases hfull
  | full => exact ⟨rfl, rfl⟩

end Kinds

end Slot

/-- `FlatRep`. -/
structure FlatRep (K V : Type) where
  /-- The slots of all buckets. -/
  slots : List (Slot K V)
  notEmpty : ℕ
  deleted : ℕ
  grow : ℕ
  shrink : ℕ
  deriving DecidableEq, Repr

/-- Why a call does not return. -/
inductive Fault
  /-- A probing loop has met every slot and goes on. -/
  | spins
  /-- The number of slots does not fit into 32 bits. -/
  | tooLarge
  deriving DecidableEq, Repr

/-- `Marker`: not `kEmpty` and not `kDeleted`. -/
def markerOf (hb : ℕ) : ℕ := hb + if hb < 2 then 2 else 0

namespace FlatRep

def slot (rep : FlatRep K V) (index : ℕ) : Slot K V := rep.slots[index]?.getD .empty

def mask (rep : FlatRep K V) : ℕ := rep.slots.length - 1

/-- `size`: a difference of unsigned numbers. -/
def size (rep : FlatRep K V) : ℕ := (rep.notEmpty + (2 ^ 64 - rep.deleted)) % 2 ^ 64

/-! ## Building a table -/

/-- The smallest table is one bucket. With 2^29 buckets `(1 << lg) * kWidth` wraps around to 0
and the loop that looks for `lg` goes on beyond the width of an `int`. -/
def initLg (N : ℕ) : Except Fault ℕ :=
  match (List.range 29).find? fun lg => 5 * N < 4 * (2 ^ lg * 8) with
  | some lg => .ok lg
  | none => .error .tooLarge

/-- `static_cast<size_t>(capacity * 0.8)`. -/
def growAt (capacity : ℕ) : ℕ := 4 * capacity / 5

/-- `Init`. -/
def init (N : ℕ) : Except Fault (FlatRep K V) := do
  let lg ← initLg N
  let capacity := 2 ^ lg * 8
  return {
    slots := List.replicate capacity .empty
    notEmpty := 0
    deleted := 0
    grow := growAt capacity
    shrink := if lg = 0 then 0 else 2 * growAt capacity / 5 }

/-! ## Probing -/

section Probing

variable (hash : K → ℕ) (equal : K → K → Bool)

/-- The marker of a key. -/
def marker (k : K) : ℕ := markerOf (hash k &&& 0xff)

def firstIndex (rep : FlatRep K V) (k : K) : ℕ := (hash k >>> 8) &&& rep.mask

def nextIndex (rep : FlatRep K V) (index numProbes : ℕ) : ℕ := (index + numProbes) &&& rep.mask

/-- The number of probes is an `uint32`. -/
def nextProbes (numProbes : ℕ) : ℕ := (numProbes + 1) % 2 ^ 32

/-- Whether a slot holds a key. -/
def holds (k : K) : Slot K V → Bool
  | .full x key _ => x = marker hash k && equal key k
  | _ => false

/-- The loop of `Find`. -/
def findLoop (rep : FlatRep K V) (k : K) : (fuel index numProbes : ℕ) → Except Fault (Option ℕ)
  | 0, _, _ => .error .spins
  | fuel + 1, index, numProbes =>
      if holds hash equal k (rep.slot index) then .ok (some index)
      else if (rep.slot index).isEmpty then .ok none
      else findLoop rep k fuel (rep.nextIndex index numProbes) (nextProbes numProbes)

/-- `Find`. -/
def find (rep : FlatRep K V) (k : K) : Except Fault (Option ℕ) :=
  rep.findLoop hash equal k rep.slots.length (rep.firstIndex hash k) 1

/-- Where `FindOrInsert` ends. -/
inductive Place
  | found (index : ℕ)
  /-- The first deleted slot on the way to an empty one. -/
  | reuse (index : ℕ)
  | fresh (index : ℕ)
  deriving DecidableEq, Repr

/-- The loop of `FindOrInsert`. -/
def findOrInsertLoop (rep : FlatRep K V) (k : K) :
    (fuel index numProbes : ℕ) → (del : Option ℕ) → Except Fault Place
  | 0, _, _, _ => .error .spins
  | fuel + 1, index, numProbes, del =>
      if holds hash equal k (rep.slot index) then .ok (.found index)
      else if (rep.slot index).isEmpty then .ok (del.elim (.fresh index) .reuse)
      else
        findOrInsertLoop rep k fuel (rep.nextIndex index numProbes) (nextProbes numProbes)
          (if del = none ∧ (rep.slot index).isDeleted then some index else del)

/-- `FindOrInsert`, where a new key gets a value: whether the key is new, and its slot. -/
def findOrInsert (rep : FlatRep K V) (k : K) (v : V) :
    Except Fault (Bool × ℕ × FlatRep K V) := do
  match ← rep.findOrInsertLoop hash equal k rep.slots.length (rep.firstIndex hash k) 1 none with
  | .found index => return (false, index, rep)
  | .reuse index => return (true, index, { rep with
      slots := rep.slots.set index (.full (marker hash k) k v)
      deleted := (rep.deleted + (2 ^ 64 - 1)) % 2 ^ 64 })
  | .fresh index => return (true, index, { rep with
      slots := rep.slots.set index (.full (marker hash k) k v)
      notEmpty := rep.notEmpty + 1 })

/-- The loop of `FreshInsert`. -/
def freshInsertLoop (rep : FlatRep K V) : (fuel index numProbes : ℕ) → Except Fault ℕ
  | 0, _, _ => .error .spins
  | fuel + 1, index, numProbes =>
      if (rep.slot index).isEmpty then .ok index
      else freshInsertLoop rep fuel (rep.nextIndex index numProbes) (nextProbes numProbes)

/-- `FreshInsert`: for a table without deletions and without the key. -/
def freshInsert (rep : FlatRep K V) (k : K) (v : V) : Except Fault (FlatRep K V) := do
  let index ← rep.freshInsertLoop rep.slots.length (rep.firstIndex hash k) 1
  return { rep with
    slots := rep.slots.set index (.full (marker hash k) k v)
    notEmpty := rep.notEmpty + 1 }

/-- `CopyEntries`. -/
def copyEntries (rep : FlatRep K V) (entries : List (Slot K V)) : Except Fault (FlatRep K V) :=
  entries.foldlM (fun rep entry =>
    match entry with
    | .full _ key val => rep.freshInsert hash key val
    | _ => return rep) rep

/-- A copy. -/
def copy (rep : FlatRep K V) : Except Fault (FlatRep K V) := do
  (← init rep.size).copyEntries hash rep.slots

/-- `Resize`. -/
def resize (rep : FlatRep K V) (N : ℕ) : Except Fault (FlatRep K V) := do
  (← init N).copyEntries hash rep.slots

/-- `MaybeResize`. -/
def maybeResize (rep : FlatRep K V) : Except Fault (FlatRep K V) :=
  if rep.notEmpty < rep.grow then return rep
  else if rep.grow = 0 ∧ rep.shrink ≤ rep.size then
    -- not small enough to shrink
    let rep := { rep with grow := growAt rep.slots.length }
    if rep.notEmpty < rep.grow then return rep
    else rep.resize hash (rep.size + 1)
  else rep.resize hash (rep.size + 1)

end Probing

/-- `Erase`. -/
def erase (rep : FlatRep K V) (index : ℕ) : FlatRep K V :=
  { rep with
    slots := rep.slots.set index .deleted
    deleted := (rep.deleted + 1) % 2 ^ 64
    grow := 0 }

/-- `clear_no_resize` empties the full slots. -/
def clearNoResize (rep : FlatRep K V) : FlatRep K V :=
  { rep with
    slots := rep.slots.map fun entry => if entry.isFull then .empty else entry
    notEmpty := 0
    deleted := 0 }

/-- `clear`. -/
def clear (hash : K → ℕ) (rep : FlatRep K V) : Except Fault (FlatRep K V) :=
  { rep.clearNoResize with grow := 0 }.maybeResize hash

/-! ## Iterating -/

/-- `SkipUnused`: the next full slot, or the end. -/
def skipUnused (rep : FlatRep K V) : (left index : ℕ) → ℕ
  | 0, index => index
  | left + 1, index => if (rep.slot index).isFull then index else skipUnused rep left (index + 1)

/-- What an iterator and its successors show. -/
def iterate (rep : FlatRep K V) : (left index : ℕ) → List (K × V)
  | 0, _ => []
  | left + 1, index =>
      match (rep.slot index).entry with
      | some entry => entry :: iterate rep left
          (rep.skipUnused (rep.slots.length - (index + 1)) (index + 1))
      | none => []

/-- From `begin` to `end`. -/
def entries (rep : FlatRep K V) : List (K × V) :=
  rep.iterate rep.slots.length (rep.skipUnused rep.slots.length 0)

end FlatRep

/-! ## FlatMap -/

/-- A call to a `FlatMap`. -/
inductive Call (K V : Type)
  | insert (key : K) (val : V)
  /-- `operator[]`, and what the caller writes through the reference, if anything. -/
  | indexOp (key : K) (write : Option V)
  | erase (key : K)
  | find (key : K)
  | count (key : K)
  | size
  | reserve (N : ℕ)
  /-- The calls that follow are made to a copy. -/
  | copy
  | clear
  | clearNoResize
  deriving DecidableEq, Repr

/-- What a call returns. -/
inductive Result (K V : Type)
  | nothing
  | number (n : ℕ)
  /-- The value that a reference refers to. -/
  | value (val : V)
  /-- What an iterator shows, if it is not the end. -/
  | entry (entry : Option (K × V))
  | inserted (entry : Option (K × V)) (isNew : Bool)
  deriving DecidableEq, Repr

section FlatMap

variable [Inhabited V] (hash : K → ℕ) (equal : K → K → Bool)

/-- Write through a reference into a slot. -/
def FlatRep.write (rep : FlatRep K V) (index : ℕ) (val : V) : FlatRep K V :=
  match rep.slot index with
  | .full x key _ => { rep with slots := rep.slots.set index (.full x key val) }
  | _ => rep

/-- A call. -/
def Call.exec (rep : FlatRep K V) : Call K V → Except Fault (FlatRep K V × Result K V)
  | .insert key val => do
      let rep ← rep.maybeResize hash
      let (isNew, index, rep) ← rep.findOrInsert hash equal key val
      return (rep, .inserted (rep.slot index).entry isNew)
  | .indexOp key write => do
      let rep ← rep.maybeResize hash
      let (_, index, rep) ← rep.findOrInsert hash equal key default
      let val := (rep.slot index).entry.elim default Prod.snd
      return (write.elim rep (rep.write index), .value val)
  | .erase key => do
      match ← rep.find hash equal key with
      | none => return (rep, .number 0)
      | some index => return (rep.erase index, .number 1)
  | .find key => do
      match ← rep.find hash equal key with
      | none => return (rep, .entry none)
      | some index => return (rep, .entry (rep.slot index).entry)
  | .count key => do
      match ← rep.find hash equal key with
      | none => return (rep, .number 0)
      | some _ => return (rep, .number 1)
  | .size => return (rep, .number rep.size)
  | .reserve N => return (← rep.resize hash (max N rep.size), .nothing)
  | .copy => return (← rep.copy hash, .nothing)
  | .clear => return (← rep.clear hash, .nothing)
  | .clearNoResize => return (rep.clearNoResize, .nothing)

/-- An empty map with one bucket. A map that is built for `N` elements is this one after
`reserve(N)`. -/
def emptyMap : FlatRep K V :=
  { slots := List.replicate 8 .empty
    notEmpty := 0
    deleted := 0
    grow := FlatRep.growAt 8
    shrink := 0 }

/-- The calls made to a map, one after the other. -/
def flatMap : Machine (FlatRep K V) (Call K V) where
  init := emptyMap
  step rep call := (call.exec hash equal rep).toOption.map Prod.fst

end FlatMap

end ContainerScheduler.Containers
