/-
# The queue of a batch scheduler

Tasks are added to the open batch at the back of a queue of batches. When they do not fit there, the
open batch is closed and another one started. A thread that is ready takes the closed batch at the
front; the open batch is closed for it when it is full, old enough or the queue is closed.

The queue always has an open batch, so that the deque of the source is a list of batches and the one
at the back. Sizes and times are unsigned 64-bit numbers. Each reading of the clock is an argument.
-/

import ContainerScheduler.Math.Transition
import Mathlib.Algebra.Order.Ring.Int

namespace ContainerScheduler.Batching

open Math

/-- The value of an unsigned 64-bit result. -/
def uint64 (value : ℕ) : ℕ := value % 2 ^ 64

/-- The value that a signed 32-bit variable takes. -/
def toInt (value : ℤ) : ℤ := Int.bmod value (2 ^ 32)

/-- `Batch`: its tasks, the sum of their sizes and whether it is closed. -/
structure Batch (τ : Type) where
  tasks : List τ
  size : ℕ
  closed : Bool
  deriving DecidableEq, Repr

namespace Batch

variable {τ : Type}

def new : Batch τ := ⟨[], 0, false⟩

def addTask (taskSize : τ → ℕ) (task : τ) (batch : Batch τ) : Batch τ :=
  { batch with tasks := batch.tasks ++ [task], size := uint64 (batch.size + taskSize task) }

def close (batch : Batch τ) : Batch τ := { batch with closed := true }

end Batch

structure QueueOptions where
  maxBatchSize : ℕ
  batchTimeoutMicros : ℕ
  maxEnqueuedBatches : ℕ
  deriving DecidableEq, Repr

/-- The test of `AddQueue`. A timeout and a number of batches can not be negative here. -/
def QueueOptions.acceptedByAddQueue (options : QueueOptions) : Bool := options.maxBatchSize != 0

inductive ScheduleError
  /-- `Task size ... is larger than maximum batch size ...`. -/
  | taskTooLarge (taskSize maxBatchSize : ℕ)
  /-- `The batch scheduling queue to which this task was submitted is full`. -/
  | queueFull
  deriving DecidableEq, Repr

/-- The members of `Queue`. -/
structure BatchQueue (τ : Type) where
  closed : Bool
  /-- The batches of the deque before the one at the back. -/
  front : List (Batch τ)
  back : Batch τ
  openBatchStartTimeMicros : ℕ
  schedulableBatch : Bool
  numBatchesBeingProcessed : ℕ
  /-- Whether `CloseAndWaitUntilEmpty` waits for `ProcessBatch`. -/
  emptyNotification : Bool
  deriving DecidableEq, Repr

/-- What `Schedule` gives: its status, the queue, what the caller's pointer holds and whether the
scheduler is told of a batch. -/
structure Scheduled (τ : Type) where
  status : Option ScheduleError
  queue : BatchQueue τ
  task : Option τ
  notify : Bool

namespace BatchQueue

variable {τ : Type} (taskSize : τ → ℕ) (options : QueueOptions) (queue : BatchQueue τ)

/-- The constructor, with an open batch. -/
def new : BatchQueue τ := ⟨false, [], .new, 0, false, 0, false⟩

/-- All batches of the deque. -/
def batches : List (Batch τ) := queue.front ++ [queue.back]

def isEmptyInternal : Bool :=
  queue.numBatchesBeingProcessed = 0 ∧ queue.front = [] ∧ queue.back.tasks = []

def startNewBatch : BatchQueue τ :=
  { queue with front := queue.front ++ [queue.back.close], back := .new }

def isOpenBatchSchedulable (nowMicros : ℕ) : Bool :=
  if queue.back.tasks = [] then false
  else queue.closed || decide (options.maxBatchSize ≤ queue.back.size) ||
    decide (uint64 (queue.openBatchStartTimeMicros + options.batchTimeoutMicros) ≤ nowMicros)

/-- The task is added to the open batch. The clock is read when it is the first one, and again to
see whether the batch can be scheduled. -/
def addToOpenBatch (task : τ) (nowMicros laterMicros : ℕ) : Scheduled τ :=
  let queue :=
    if queue.back.tasks = [] then { queue with openBatchStartTimeMicros := nowMicros } else queue
  let queue := { queue with back := queue.back.addTask taskSize task }
  if queue.schedulableBatch = false ∧
      (1 < queue.batches.length ∨ queue.isOpenBatchSchedulable options laterMicros = true) then
    ⟨none, { queue with schedulableBatch := true }, none, true⟩
  else ⟨none, queue, none, false⟩

/-- `Schedule`. -/
def schedule (task : τ) (nowMicros laterMicros : ℕ) : Scheduled τ :=
  if options.maxBatchSize < taskSize task then
    ⟨some (.taskTooLarge (taskSize task) options.maxBatchSize), queue, some task, false⟩
  else if options.maxBatchSize < uint64 (queue.back.size + taskSize task) then
    if options.maxEnqueuedBatches ≤ queue.batches.length then
      ⟨some .queueFull, queue, some task, false⟩
    else queue.startNewBatch.addToOpenBatch taskSize options task nowMicros laterMicros
  else queue.addToOpenBatch taskSize options task nowMicros laterMicros

/-- `SchedulingCapacity`: two differences of unsigned numbers are stored in signed ones, and the
first of them is multiplied as an unsigned number. -/
def schedulingCapacity : ℕ :=
  let numNewBatchesSchedulable := toInt ((options.maxEnqueuedBatches : ℤ) - queue.batches.length)
  let openBatchCapacity := toInt ((options.maxBatchSize : ℤ) - queue.back.size)
  ((numNewBatchesSchedulable * options.maxBatchSize + openBatchCapacity) % 2 ^ 64).toNat

/-- `ScheduleBatch`: the batch that is ready, if any, and the queue. -/
def scheduleBatch (nowMicros : ℕ) : Option (Batch τ) × BatchQueue τ :=
  let queue :=
    if queue.batches.length = 1 ∧ queue.isOpenBatchSchedulable options nowMicros = true then
      queue.startNewBatch
    else queue
  match queue.front with
  | batch :: rest =>
      (some batch, { queue with
        front := rest
        numBatchesBeingProcessed := queue.numBatchesBeingProcessed + 1 })
  | [] => (none, { queue with schedulableBatch := false })

/-- The critical section of `ProcessBatch`: the queue, and whether the waiter is notified. -/
def processBatch : BatchQueue τ × Bool :=
  let queue := { queue with numBatchesBeingProcessed := queue.numBatchesBeingProcessed - 1 }
  (queue, queue.emptyNotification && queue.isEmptyInternal)

/-- The critical section of `CloseAndWaitUntilEmpty`, and whether there is nothing to wait for. -/
def closeAndWaitUntilEmpty : BatchQueue τ × Bool :=
  let queue := { queue with closed := true }
  if queue.isEmptyInternal then (queue, true) else ({ queue with emptyNotification := true }, false)

end BatchQueue

/-- A queue and what has been done with it. -/
structure QueueState (τ : Type) where
  queue : BatchQueue τ
  /-- The tasks that `Schedule` accepted. -/
  accepted : List τ
  /-- The batches that `ScheduleBatch` returned. -/
  returned : List (Batch τ)
  /-- Those whose processing has not ended. -/
  inProcess : List (Batch τ)
  /-- How often the waiter was notified. -/
  notified : ℕ

/-- An operation on a queue, with the readings of the clock. -/
inductive QueueCall (τ : Type)
  | schedule (task : τ) (nowMicros laterMicros : ℕ)
  | scheduleBatch (nowMicros : ℕ)
  | processBatch (index : ℕ)
  | closeAndWaitUntilEmpty
  deriving DecidableEq, Repr

/-- A queue that is closed once, and in which nothing is scheduled after that. -/
def batchQueue {τ : Type} (taskSize : τ → ℕ) (options : QueueOptions) :
    Machine (QueueState τ) (QueueCall τ) where
  init := ⟨.new, [], [], [], 0⟩
  step state
    | .schedule task nowMicros laterMicros =>
        if state.queue.closed then none
        else
          let result := state.queue.schedule taskSize options task nowMicros laterMicros
          some { state with
            queue := result.queue
            accepted := if result.status = none then state.accepted ++ [task] else state.accepted }
    | .scheduleBatch nowMicros =>
        let result := state.queue.scheduleBatch options nowMicros
        some { state with
          queue := result.2
          returned := state.returned ++ result.1.toList
          inProcess := state.inProcess ++ result.1.toList }
    | .processBatch index =>
        if index < state.inProcess.length then
          let result := state.queue.processBatch
          some { state with
            queue := result.1
            inProcess := state.inProcess.eraseIdx index
            notified := state.notified + result.2.toNat }
        else none
    | .closeAndWaitUntilEmpty =>
        if state.queue.closed then none
        else
          let result := state.queue.closeAndWaitUntilEmpty
          some { state with queue := result.1, notified := state.notified + result.2.toNat }

end ContainerScheduler.Batching
