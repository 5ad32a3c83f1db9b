/-
# The n greatest elements

The elements are unsorted up to the limit, with a lowest one in front once it was asked for. Behind
the limit they are a heap, and the last slot is unused. The comparator is the "greater" predicate. A
vector has fewer than 2^64 elements, so that the sum of the limit and one is exact; moving an element
copies it.
-/

import Mathlib.Algebra.Order.Ring.Int

namespace ContainerScheduler.Containers

namespace TopN

universe u

variable {α : Type u}

/-- The algorithms of the standard library, for one comparator. -/
structure Algorithms (α : Type u) where
  makeHeap : List α → List α
  popHeap : List α → List α
  sort : List α → List α
  sortHeap : List α → List α

inductive State
  | unordered
  | bottomKnown
  | heapSorted
  deriving DecidableEq

structure TopElements (α : Type u) where
  elements : List α := []
  /-- Maximum number of elements to find. -/
  limit : ℕ
  state : State := .unordered

variable (std : Algorithms α) (cmp : α → α → Bool) (t : TopElements α)

def size : ℕ := min t.elements.length t.limit

/-- The elements from `unsorted_begin` to `unsorted_end`. -/
def unsorted : List α := t.elements.take (size t)

/-- The value that is stored in an `int`. -/
def toInt (number : ℕ) : ℤ := (number : ℤ).bmod (2 ^ 32)

/-- The element at an index, if it is one of the vector. -/
def elementAt (elements : List α) (index : ℤ) : Option α :=
  if index < 0 then none else elements[index.toNat]?

/-- `swap(elements_[0], elements_[index])`. -/
def swapFront (elements : List α) (index : ℤ) : Option (List α) :=
  match elements[0]?, elementAt elements index with
  | some front, some element => some ((elements.set 0 element).set index.toNat front)
  | _, _ => none

/-- The vector with a new element, which is put in front if it is the bottom. -/
def pushUnsorted (v : α) : Option (List α) :=
  let elements := t.elements ++ [v]
  elements[0]?.bind fun front =>
    if t.state = .unordered ∨ cmp v front then some elements
    else swapFront elements t.elements.length

/-- The new elements, and what is stored in `dropped`. -/
def pushInternal (v : α) : Option (TopElements α × Option α) :=
  if t.limit = 0 then some (t, some v)
  else if t.state ≠ .heapSorted then
    (pushUnsorted cmp t v).map fun elements =>
      if elements.length = t.limit + 1 then
        -- Transition from unsorted vector to a heap.
        let heap := std.makeHeap elements
        ({ t with elements := std.popHeap heap, state := .heapSorted }, heap[0]?)
      else ({ t with elements }, none)
  else
    t.elements[0]?.map fun front =>
      if cmp v front then
        let elements := std.popHeap (t.elements.dropLast ++ [v])
        ({ t with elements }, elements.getLast?)
      else (t, some v)

/-- The linear scan for the bottom element, from an index on. -/
def scanBottom (elements : List α) : (i : ℕ) → (minCandidate : ℤ) → (rest : List α) → Option ℤ
  | _, minCandidate, [] => some minCandidate
  | i, minCandidate, element :: rest =>
      (elementAt elements minCandidate).bind fun bottom =>
        scanBottom elements (i + 1) (if cmp bottom element then toInt i else minCandidate) rest

def findBottom : Option (TopElements α) :=
  if t.state = .unordered then
    (scanBottom cmp t.elements 1 0 t.elements.tail).bind fun minCandidate =>
      (if minCandidate ≠ 0 then swapFront t.elements minCandidate else some t.elements).map
        fun elements => { t with elements, state := .bottomKnown }
  else some t

/-- An empty set of elements fails a check. -/
def peekBottom : Option (TopElements α × α) :=
  if size t = 0 then none
  else (findBottom cmp t).bind fun t => t.elements[0]?.map fun front => (t, front)

def extractNondestructive : List α :=
  if t.state ≠ .heapSorted then std.sort t.elements else std.sortHeap t.elements.dropLast

/-- The state stays as it is; only `Reset` can be called then. -/
def extract : TopElements α × List α :=
  ({ t with elements := [] }, extractNondestructive std t)

def extractUnsortedNondestructive : List α :=
  if t.state = .heapSorted then t.elements.dropLast else t.elements

def reset : TopElements α := { t with elements := [], state := .unordered }

end TopN

end ContainerScheduler.Containers
