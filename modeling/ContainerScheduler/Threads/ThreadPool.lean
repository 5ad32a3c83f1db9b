/-
# Sharding a range into blocks of a fixed size

`ParallelForFixedBlockSizeScheduling` either calls its function once for the whole
range, or starts one `handle_range` closure for it. The closure splits its range
near the middle, at a multiple of the block size, schedules the upper part as a
further closure and goes on with the lower one until one block is left, for which
it calls the function. A counter of the shards tells the caller when to return.

A scheduled closure may be started by any thread at any moment, and the threads
take their steps in any order. The integers are those of mathematics.
-/

import ContainerScheduler.Math.Transition
import Mathlib.Algebra.Order.Ring.Int

namespace ContainerScheduler.Threads

open Math

/-- Where a thread is in `handle_range`. -/
inductive ShardPhase
  | splitting
  | calling
  | returned
  deriving DecidableEq, Repr

/-- A running `handle_range` closure with its local variables. -/
structure Shard where
  first : ℕ
  last : ℕ
  phase : ShardPhase := .splitting
  deriving DecidableEq, Repr

/-- Where the thread is that asked for the range. -/
inductive ShardCaller
  /-- It is going to call the function for the whole range. -/
  | direct
  | calling
  /-- It has started the closure of the whole range and waits for the counter. -/
  | waiting
  | finished
  deriving DecidableEq, Repr

structure ParallelFor where
  caller : ShardCaller
  /-- The arguments of the scheduled closures that no thread has started. -/
  scheduled : List (ℕ × ℕ) := []
  running : List Shard := []
  counter : ℤ := 0
  /-- The arguments of the calls of the function, and of those that have returned. -/
  called : List (ℕ × ℕ) := []
  returned : List (ℕ × ℕ) := []
  deriving DecidableEq, Repr

namespace ThreadPool

def numShardsUsedByFixedBlockSizeScheduling (numThreads total blockSize : ℕ) : ℕ :=
  if blockSize ≤ 0 ∨ total ≤ 1 ∨ total ≤ blockSize ∨ numThreads = 1 then 1
  else (total + blockSize - 1) / blockSize

/-- Something near the midpoint which is a multiple of the block size. -/
def midBlock (blockSize first last : ℕ) : ℕ :=
  first + ((last - first) / 2 + blockSize - 1) / blockSize * blockSize

def parallelForFixedBlockSizeScheduling (numThreads total blockSize : ℕ) : ParallelFor :=
  let numShardsUsed := numShardsUsedByFixedBlockSizeScheduling numThreads total blockSize
  if numShardsUsed = 1 then { caller := .direct }
  else if numShardsUsed ≤ numThreads then
    -- the calling thread runs the closure itself
    { caller := .waiting, counter := numShardsUsed, running := [⟨0, total, .splitting⟩] }
  else { caller := .waiting, counter := numShardsUsed, scheduled := [(0, total)] }

end ThreadPool

namespace ParallelFor

open ThreadPool

/-- The next step of a thread in `handle_range`. -/
def handleRange (blockSize : ℕ) (call : ParallelFor) (shard : Shard) : ParallelFor :=
  let others := call.running.erase shard
  match shard.phase with
  | .splitting =>
      if blockSize < shard.last - shard.first then
        let mid := midBlock blockSize shard.first shard.last
        { call with
          scheduled := (mid, shard.last) :: call.scheduled
          running := { shard with last := mid } :: others }
      else
        { call with
          called := (shard.first, shard.last) :: call.called
          running := { shard with phase := .calling } :: others }
  | .calling =>
      { call with
        returned := (shard.first, shard.last) :: call.returned
        running := { shard with phase := .returned } :: others }
  | .returned => { call with counter := call.counter - 1, running := others }

/-- The next step of the thread that asked for the range. -/
def callerStep (total : ℕ) (call : ParallelFor) : Option ParallelFor :=
  match call.caller with
  | .direct => some { call with caller := .calling, called := (0, total) :: call.called }
  | .calling => some { call with caller := .finished, returned := (0, total) :: call.returned }
  -- a calling thread that runs a closure itself comes to `Wait` after it, and until
  -- then the counter is not zero
  | .waiting => if call.counter = 0 then some { call with caller := .finished } else none
  | .finished => none

inductive Action
  | start (range : ℕ × ℕ)
  | handle (shard : Shard)
  | caller
  deriving DecidableEq, Repr

def step (total blockSize : ℕ) (call : ParallelFor) : Action → Option ParallelFor
  | .start range =>
      if range ∈ call.scheduled then
        some { call with
          scheduled := call.scheduled.erase range
          running := ⟨range.1, range.2, .splitting⟩ :: call.running }
      else none
  | .handle shard => if shard ∈ call.running then some (call.handleRange blockSize shard) else none
  | .caller => call.callerStep total

/-- All runs of one call, over every order in which the closures are started and
the threads take their steps. -/
def machine (numThreads total blockSize : ℕ) : Machine ParallelFor Action where
  init := parallelForFixedBlockSizeScheduling numThreads total blockSize
  step := step total blockSize

end ParallelFor

end ContainerScheduler.Threads
