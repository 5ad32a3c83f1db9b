/-
# The queue of ready nodes

A closure keeps its ready nodes in a vector and counts the entries that it has consumed,
which stay in front until the queue is empty or until there are more than 16384 of them.
-/

import ContainerScheduler.Math.Transition
import Mathlib.Algebra.Order.Ring.Int

namespace ContainerScheduler.Executor

open Math

universe u

/-- How many consumed entries a vector may hold. -/
def compactionLimit : ℕ := 16384

/-- The vector and the number of its entries that are consumed. A vector that is not empty
has one that is not. -/
structure TaggedNodeReadyQueue (α : Type u) where
  ready : List α
  frontIndex : ℕ
  front_lt : frontIndex < ready.length ∨ ready = [] ∧ frontIndex = 0
  front_le : frontIndex ≤ compactionLimit

namespace TaggedNodeReadyQueue

variable {α : Type u} (queue : TaggedNodeReadyQueue α)

def new : TaggedNodeReadyQueue α := ⟨[], 0, .inr ⟨rfl, rfl⟩, Nat.zero_le _⟩

def pushBack (node : α) : TaggedNodeReadyQueue α where
  ready := queue.ready ++ [node]
  frontIndex := queue.frontIndex
  front_lt := by
    rw [List.length_append, List.length_singleton]
    rcases queue.front_lt with hlt | ⟨-, hzero⟩
    · exact .inl (hlt.trans (Nat.lt_succ_self _))
    · exact .inl (hzero ▸ Nat.succ_pos _)
  front_le := queue.front_le

/-- `front`; there is none where an assertion fails. -/
def front : Option α := queue.ready[queue.frontIndex]?

/-- `pop_front`: one more entry is consumed. When all are, the vector is cleared, and when
there are too many, they are erased. -/
def popFront : Option (TaggedNodeReadyQueue α) :=
  if hlt : queue.frontIndex < queue.ready.length then
    if hlast : queue.frontIndex + 1 = queue.ready.length then some new
    else if hmany : compactionLimit < queue.frontIndex + 1 then
      some ⟨queue.ready.drop (queue.frontIndex + 1), 0, by
        rw [List.length_drop]
        exact .inl (by omega), Nat.zero_le _⟩
    else some ⟨queue.ready, queue.frontIndex + 1, .inl (by omega), not_lt.mp hmany⟩
  else none

def size : ℕ := queue.ready.length

def empty : Bool := queue.ready.isEmpty

/-- The entries from `begin` to `end`. -/
def range : List α := queue.ready.drop queue.frontIndex

end TaggedNodeReadyQueue

/-- The calls that change a queue. -/
inductive QueueCall (α : Type u)
  | pushBack (node : α)
  | popFront
  deriving DecidableEq, Repr

/-- A queue and its calls. -/
def readyQueue (α : Type u) : Machine (TaggedNodeReadyQueue α) (QueueCall α) where
  init := .new
  step
    | queue, .pushBack node => some (queue.pushBack node)
    | queue, .popFront => queue.popFront

end ContainerScheduler.Executor
