/-
# Searching the requests for a task

`FindTask` goes round robin over a range of the work sources of a thread, from
the place where the search before it stopped. The ranges of the searches differ:
first that of the thread's own sub-pool, then all requests.

What `PopBack` of a queue does is a parameter, and so is what other threads do to
the queues before each round. The cursors are numbers without a sign.
-/

import Mathlib.Data.Int.Notation
import Mathlib.Data.Nat.Notation
import Mathlib.Logic.Function.Basic

namespace ContainerScheduler.Threads

/-- The queues of one request, and its counters of running tasks. -/
structure ThreadWorkSource (Queue : Type*) where
  blockingWorkQueue : Queue
  nonBlockingWorkQueues : List Queue
  blockingInflight : ℤ
  nonBlockingInflight : ℤ

namespace ThreadWorkSource

variable {Queue Task : Type*} (popBack : Queue → Option (Task × Queue))
  (source : ThreadWorkSource Queue)

def getInflightTaskCount (isBlocking : Bool) : ℤ :=
  if isBlocking then source.blockingInflight else source.nonBlockingInflight

def nonBlockingWorkShardingFactor : ℕ := source.nonBlockingWorkQueues.length

def popBlockingTask : Option (Task × ThreadWorkSource Queue) :=
  (popBack source.blockingWorkQueue).map fun popped =>
    (popped.1, { source with blockingWorkQueue := popped.2 })

/-- One round of `PopNonBlockingTask`. -/
def popFrom (index : ℕ) : Option (Task × ThreadWorkSource Queue) :=
  source.nonBlockingWorkQueues[index]?.bind fun queue =>
    (popBack queue).map fun popped =>
      (popped.1,
        { source with nonBlockingWorkQueues := source.nonBlockingWorkQueues.set index popped.2 })

def popNonBlockingTask (startIndex : ℕ) (searchFromAllQueue : Bool) :
    Option (Task × ThreadWorkSource Queue) :=
  let rounds :=
    if searchFromAllQueue then source.nonBlockingWorkShardingFactor
    else min 1 source.nonBlockingWorkShardingFactor
  (List.range rounds).findSome? fun j =>
    source.popFrom popBack ((startIndex + j) % source.nonBlockingWorkShardingFactor)

end ThreadWorkSource

/-- The arguments of a call of `FindTask`, and its surroundings. -/
structure FindTask (Source Queue : Type*) where
  searchingRangeStart : ℕ
  searchingRangeEnd : ℕ
  threadId : ℕ
  maxBlockingInflight : ℤ
  mayStealBlockingWork : Bool
  threadWorkSources : List Source
  /-- The work sources when the call begins. -/
  memory : Source → ThreadWorkSource Queue
  /-- What other threads do before a round. -/
  others : ℕ → (Source → ThreadWorkSource Queue) → Source → ThreadWorkSource Queue

/-- The variables of `FindTask`. -/
structure Search (Source Queue Task : Type*) where
  currentIndex : ℕ
  memory : Source → ThreadWorkSource Queue
  t : Option Task := none
  taskFromBlockingQueue : Bool := false
  tws : Option Source := none
  /-- The places that have been examined, and what was there. -/
  examined : List (ℕ × ThreadWorkSource Queue) := []

namespace FindTask

variable {Source Queue Task : Type*} [DecidableEq Source]
  (popBack : Queue → Option (Task × Queue)) (call : FindTask Source Queue)

/-- Take a task from a source: the task, whether it is a blocking one, and the source without it. -/
def takeTask (source : ThreadWorkSource Queue) :
    Option (Task × Bool × ThreadWorkSource Queue) :=
  let blocking :=
    if call.mayStealBlockingWork ∧ source.getInflightTaskCount true < call.maxBlockingInflight then
      source.popBlockingTask popBack
    else none
  match blocking with
  | some (t, source) => some (t, true, source)
  | none =>
      (source.popNonBlockingTask popBack call.threadId true).map fun popped =>
        (popped.1, false, popped.2)

/-- One round of the loop, at the corrected place. -/
def examine (s : Search Source Queue Task) : Search Source Queue Task :=
  let currentIndex :=
    if s.currentIndex ≥ call.searchingRangeEnd then call.searchingRangeStart else s.currentIndex
  match call.threadWorkSources[currentIndex]? with
  | none => { s with currentIndex := currentIndex + 1 }
  | some tws =>
      let found : Search Source Queue Task :=
        { s with
          currentIndex := currentIndex + 1
          tws := some tws
          examined := s.examined ++ [(currentIndex, s.memory tws)] }
      match call.takeTask popBack (s.memory tws) with
      | none => found
      | some (t, isBlocking, source) =>
          { found with
            t := some t
            taskFromBlockingQueue := isBlocking
            memory := Function.update s.memory tws source }

/-- The loop of the search, until a task is found. -/
def searchRounds : ℕ → Search Source Queue Task → Search Source Queue Task
  | 0, s => s
  | rounds + 1, s =>
      let s' := call.examine popBack { s with memory := call.others rounds s.memory }
      if s'.t.isSome then s' else searchRounds rounds s'

/-- The function, for a thread whose cursor stands here. -/
def run (currentIndex : ℕ) : Search Source Queue Task :=
  call.searchRounds popBack (call.searchingRangeEnd - call.searchingRangeStart)
    { currentIndex, memory := call.memory }

/-- The cursor of a thread after some calls. -/
def cursorAfter (calls : List (FindTask Source Queue)) : ℕ :=
  calls.foldl (fun currentIndex call => (call.run popBack currentIndex).currentIndex) 0

end FindTask

end ContainerScheduler.Threads
