/-
# The unbounded work queue

`Schedule` puts a work function into a queue, notifies one pooled thread that
waits for work, and starts a further thread when the queue is longer than the
number of idle threads. A pooled thread counts itself as idle when it enters its
loop, and takes itself out again with the function it takes.

Each critical section under the lock of the queue is one step. Between its
sections a thread has just been started, waits on the condition variable, is
awake and about to lock the queue again, runs a function, or has returned from
one.
-/

import ContainerScheduler.Math.Transition
import Mathlib.Algebra.Order.Ring.Int

namespace ContainerScheduler.Threads

open Math

universe u

/-- Where a pooled thread is between its critical sections. -/
inductive PooledThread (α : Type u)
  | starting
  | waiting
  | awake
  | running (fn : α)
  | returned
  | exited
  deriving DecidableEq, Repr

namespace PooledThread

variable {α : Type u}

def isWaiting : PooledThread α → Bool
  | waiting => true
  | _ => false

def isRunning : PooledThread α → Bool
  | running _ => true
  | _ => false

end PooledThread

structure UnboundedWorkQueue (α : Type u) where
  numIdleThreads : ℕ := 0
  cancelled : Bool := false
  workQueue : List α := []
  threadPool : List (PooledThread α) := []
  deriving DecidableEq, Repr

namespace UnboundedWorkQueue

variable {α : Type u}

/-- `notify_one` wakes a waiting thread, if there is one; which one is not
determined. -/
def notifyOne (woken : ℕ) (threads : List (PooledThread α)) : Option (List (PooledThread α)) :=
  if threads.any PooledThread.isWaiting then
    if (threads[woken]?).any PooledThread.isWaiting then some (threads.set woken .awake) else none
  else some threads

/-- Enqueue a work function, and start a thread unless enough are idle. -/
def schedule (queue : UnboundedWorkQueue α) (fn : α) (woken : ℕ) : Option (UnboundedWorkQueue α) :=
  (notifyOne woken queue.threadPool).map fun threads =>
    let workQueue := queue.workQueue ++ [fn]
    { queue with
      workQueue := workQueue
      threadPool :=
        if queue.numIdleThreads < workQueue.length then threads ++ [.starting] else threads }

def setThread (queue : UnboundedWorkQueue α) (thread : ℕ) (state : PooledThread α) :
    UnboundedWorkQueue α :=
  { queue with threadPool := queue.threadPool.set thread state }

/-- The loop of a thread that counts as idle, from its test to the next wait or to
the end of the critical section, with the function that it is going to run. -/
def workLoop (queue : UnboundedWorkQueue α) (thread : ℕ) : Option α × UnboundedWorkQueue α :=
  match queue.cancelled, queue.workQueue with
  | true, _ => (none, queue.setThread thread .exited)
  | false, [] => (none, queue.setThread thread .waiting)
  | false, fn :: workQueue =>
      (some fn, { queue with
        numIdleThreads := queue.numIdleThreads - 1
        workQueue := workQueue
        threadPool := queue.threadPool.set thread (.running fn) })

/-- A thread locks the queue: at the beginning of an iteration, or when it returns
from its wait. -/
def pooledThreadFunc (queue : UnboundedWorkQueue α) (thread : ℕ) :
    Option (Option α × UnboundedWorkQueue α) :=
  match queue.threadPool[thread]? with
  | some .starting | some .returned =>
      some ({ queue with numIdleThreads := queue.numIdleThreads + 1 }.workLoop thread)
  | some .awake => some (queue.workLoop thread)
  | _ => none

/-- A wait ends although nobody notified the thread. -/
def wakeUp (queue : UnboundedWorkQueue α) (thread : ℕ) : Option (UnboundedWorkQueue α) :=
  match queue.threadPool[thread]? with
  | some .waiting => some (queue.setThread thread .awake)
  | _ => none

/-- A work function returns. -/
def finish (queue : UnboundedWorkQueue α) (thread : ℕ) : Option (UnboundedWorkQueue α) :=
  match queue.threadPool[thread]? with
  | some (.running _) => some (queue.setThread thread .returned)
  | _ => none

end UnboundedWorkQueue

/-! ## Runs -/

/-- One step of the program around the queue. -/
inductive WorkStep (α : Type u)
  | schedule (fn : α) (woken : ℕ)
  | lock (thread : ℕ)
  | wakeUp (thread : ℕ)
  | finish (thread : ℕ)
  deriving DecidableEq, Repr

/-- A queue with what was scheduled and what was taken out of it, in order. -/
structure WorkHistory (α : Type u) where
  queue : UnboundedWorkQueue α := {}
  scheduled : List α := []
  taken : List α := []
  deriving DecidableEq, Repr

/-- A queue that is not destroyed, used by any threads. -/
def workQueue (α : Type u) : Machine (WorkHistory α) (WorkStep α) where
  init := {}
  step history
    | .schedule fn woken => (history.queue.schedule fn woken).map fun queue =>
        { history with queue := queue, scheduled := history.scheduled ++ [fn] }
    | .lock thread => (history.queue.pooledThreadFunc thread).map fun locked =>
        { history with queue := locked.2, taken := history.taken ++ locked.1.toList }
    | .wakeUp thread => (history.queue.wakeUp thread).map fun queue =>
        { history with queue := queue }
    | .finish thread => (history.queue.finish thread).map fun queue =>
        { history with queue := queue }

end ContainerScheduler.Threads
