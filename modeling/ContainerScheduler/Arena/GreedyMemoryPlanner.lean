/-
# The greedy memory planner

Each buffer is needed during an interval of time. The planner places the largest buffer first, and
each in the first gap between those that are needed at the same time. The placed buffers are kept in
an array, and linked by their indices in the order of their offsets.

An array is the list of what was written into it since the calculation began. An access behind its
end is a fault; so is an operation on `int`s whose result is none, and a loop that goes on after it
could have visited all entries.
-/

import ContainerScheduler.Math.ExchangeSort

namespace ContainerScheduler.Arena

open Math

inductive PlannerFault
  | overflow
  | outOfBounds
  | endless
  deriving DecidableEq

structure BufferRequirements where
  size : ℤ
  firstTimeUsed : ℤ
  lastTimeUsed : ℤ
  deriving DecidableEq

structure ListEntry where
  offset : ℤ
  requirementsIndex : ℕ
  /-- `none` for -1. -/
  nextEntryIndex : Option ℕ
  deriving DecidableEq

structure GreedyMemoryPlanner where
  maxBufferCount : ℤ
  /-- As many as `buffer_count_`. -/
  requirements : List BufferRequirements
  /-- As many as `next_free_entry_`. -/
  buffersSortedByOffset : List ListEntry
  bufferOffsets : List ℤ
  needToCalculateOffsets : Bool
  deriving DecidableEq

/-- The result of an operation on `int`s. -/
def asInt (result : ℤ) : Except PlannerFault ℤ :=
  if -2 ^ 31 ≤ result ∧ result < 2 ^ 31 then .ok result else .error .overflow

def readAt {α : Type} (array : List α) (index : ℕ) : Except PlannerFault α :=
  match array[index]? with
  | some value => .ok value
  | none => .error .outOfBounds

/-- Values with their ids, which are swapped together. -/
def reverseSortInPlace (values : List (ℤ × ℕ)) : List (ℤ × ℕ) := exchangeSort Prod.fst values

/-- The sum of the sizes of the five parts. -/
def perBufferSize : ℤ := 36

def GreedyMemoryPlanner.new (scratchBufferSize : ℤ) : GreedyMemoryPlanner :=
  ⟨scratchBufferSize.tdiv perBufferSize, [], [], [], true⟩

inductive PlannerStatus
  | kTfLiteOk
  /-- "Too many buffers (max is %d)". -/
  | tooManyBuffers (max : ℤ)
  deriving DecidableEq

def addBuffer (size firstTimeUsed lastTimeUsed : ℤ) (planner : GreedyMemoryPlanner) :
    PlannerStatus × GreedyMemoryPlanner :=
  if planner.requirements.length ≥ planner.maxBufferCount then
    (.tooManyBuffers planner.maxBufferCount, planner)
  else
    (.kTfLiteOk,
      { planner with
        requirements := planner.requirements ++ [⟨size, firstTimeUsed, lastTimeUsed⟩]
        needToCalculateOffsets := true })

section Placing

variable (requirements : List BufferRequirements) (entries : List ListEntry)

def doesEntryOverlapInTime (entry : ListEntry) (firstTimeUsed lastTimeUsed : ℤ) :
    Except PlannerFault Bool :=
  (readAt requirements entry.requirementsIndex).map fun entryRequirements =>
    if entryRequirements.firstTimeUsed > lastTimeUsed then false
    else if firstTimeUsed > entryRequirements.lastTimeUsed then false
    else true

/-- The loop of `NextSimultaneouslyActiveBuffer`. -/
def activeFrom (firstTimeUsed lastTimeUsed : ℤ) :
    (fuel candidate : ℕ) → Except PlannerFault (Option ℕ)
  | 0, _ => .error .endless
  | fuel + 1, candidate =>
      (readAt entries candidate).bind fun entry =>
        (doesEntryOverlapInTime requirements entry firstTimeUsed lastTimeUsed).bind fun overlaps =>
          if overlaps then .ok (some candidate)
          else
            match entry.nextEntryIndex with
            | none => .ok none
            | some next => activeFrom firstTimeUsed lastTimeUsed fuel next

def nextSimultaneouslyActiveBuffer (start : Option ℕ) (firstTimeUsed lastTimeUsed : ℤ) :
    Except PlannerFault (Option ℕ) :=
  match start with
  | none => activeFrom requirements entries firstTimeUsed lastTimeUsed entries.length 0
  | some start =>
      (readAt entries start).bind fun entry =>
        match entry.nextEntryIndex with
        | none => .ok none
        | some next =>
            activeFrom requirements entries firstTimeUsed lastTimeUsed entries.length next

/-- The candidate offset is moved behind the prior entry. -/
def behindPrior (priorEntry : Option ℕ) (candidateOffset : ℤ) : Except PlannerFault ℤ :=
  match priorEntry with
  | none => .ok candidateOffset
  | some prior =>
      (readAt entries prior).bind fun entry =>
        (readAt requirements entry.requirementsIndex).bind fun candidateRequirements =>
          (asInt (entry.offset + candidateRequirements.size)).map fun priorEntryOffset =>
            if priorEntryOffset > candidateOffset then priorEntryOffset else candidateOffset

/-- The loop that looks for gaps. -/
def findGap (wanted : BufferRequirements) :
    (fuel : ℕ) → (priorEntry : Option ℕ) → (candidateOffset : ℤ) → Except PlannerFault ℤ
  | 0, _, _ => .error .endless
  | fuel + 1, priorEntry, candidateOffset =>
      (nextSimultaneouslyActiveBuffer requirements entries priorEntry wanted.firstTimeUsed
        wanted.lastTimeUsed).bind fun nextEntry =>
        (behindPrior requirements entries priorEntry candidateOffset).bind fun candidateOffset =>
          match nextEntry with
          | none => .ok candidateOffset
          | some next =>
              (readAt entries next).bind fun entry =>
                (asInt (entry.offset - candidateOffset)).bind fun gap =>
                  if gap ≥ wanted.size then .ok candidateOffset
                  else findGap wanted fuel (some next) candidateOffset

/-- `buffers_sorted_by_offset_[index].next_entry_index = next`. -/
def setNext (index : ℕ) (next : Option ℕ) : List ListEntry :=
  entries.modify index fun entry => { entry with nextEntryIndex := next }

/-- The loop that links the new entry behind those whose offsets are not larger. -/
def insertEntry (newEntryIndex : ℕ) (candidateOffset : ℤ) :
    (fuel currentEntry : ℕ) → Except PlannerFault (List ListEntry)
  | 0, _ => .error .endless
  | fuel + 1, current =>
      (readAt entries current).bind fun currentEntry =>
        match currentEntry.nextEntryIndex with
        | none => .ok (setNext (setNext entries current (some newEntryIndex)) newEntryIndex none)
        | some next =>
            (readAt entries next).bind fun nextEntry =>
              if nextEntry.offset > candidateOffset then
                .ok (setNext (setNext entries newEntryIndex currentEntry.nextEntryIndex) current
                  (some newEntryIndex))
              else insertEntry newEntryIndex candidateOffset fuel next

end Placing

/-- One pass of the loop over the sorted buffers, on the entries and the offsets. -/
def placeBuffer (requirements : List BufferRequirements) (bufferId : ℕ)
    (plan : List ListEntry × List ℤ) : Except PlannerFault (List ListEntry × List ℤ) :=
  (readAt requirements bufferId).bind fun wanted =>
    (findGap requirements plan.1 wanted (plan.1.length + 1) none 0).bind fun candidateOffset =>
      (insertEntry (plan.1 ++ [⟨candidateOffset, bufferId, none⟩]) plan.1.length candidateOffset
        (plan.1.length + 1) 0).map fun entries => (entries, plan.2.set bufferId candidateOffset)

def placeBuffers (requirements : List BufferRequirements) :
    List ℕ → List ListEntry × List ℤ → Except PlannerFault (List ListEntry × List ℤ)
  | [], plan => .ok plan
  | bufferId :: bufferIds, plan =>
      (placeBuffer requirements bufferId plan).bind (placeBuffers requirements bufferIds)

def calculateOffsetsIfNeeded (planner : GreedyMemoryPlanner) :
    Except PlannerFault GreedyMemoryPlanner :=
  if planner.needToCalculateOffsets = false ∨ planner.requirements.length = 0 then .ok planner
  else
    match reverseSortInPlace (planner.requirements.map BufferRequirements.size).zipIdx with
    | [] => .error .outOfBounds
    | largest :: others =>
        let offsets := List.replicate planner.requirements.length (-1)
        (placeBuffers planner.requirements (others.map Prod.snd)
          ([⟨0, largest.2, none⟩], offsets.set largest.2 0)).map fun plan =>
          { planner with
            buffersSortedByOffset := plan.1
            bufferOffsets := plan.2
            needToCalculateOffsets := false }

/-- The loop over the linked entries. -/
def maximumFrom (requirements : List BufferRequirements) (entries : List ListEntry) :
    (fuel index : ℕ) → (maxSize : ℤ) → Except PlannerFault ℤ
  | 0, _, _ => .error .endless
  | fuel + 1, index, maxSize =>
      (readAt entries index).bind fun entry =>
        (readAt requirements entry.requirementsIndex).bind fun entryRequirements =>
          (asInt (entry.offset + entryRequirements.size)).bind fun currentSize =>
            let maxSize := if currentSize > maxSize then currentSize else maxSize
            match entry.nextEntryIndex with
            | none => .ok maxSize
            | some next => maximumFrom requirements entries fuel next maxSize

def getMaximumMemorySize (planner : GreedyMemoryPlanner) :
    Except PlannerFault (ℤ × GreedyMemoryPlanner) :=
  (calculateOffsetsIfNeeded planner).bind fun planner =>
    if planner.requirements.length = 0 then .ok (0, planner)
    else
      (maximumFrom planner.requirements planner.buffersSortedByOffset
        planner.buffersSortedByOffset.length 0 0).map fun maxSize => (maxSize, planner)

/-! ## Runs -/

inductive PlannerCall
  | addBuffer (size firstTimeUsed lastTimeUsed : ℤ)
  | calculateOffsetsIfNeeded
  | getMaximumMemorySize
  deriving DecidableEq

def plannerCall (planner : GreedyMemoryPlanner) :
    PlannerCall → Except PlannerFault GreedyMemoryPlanner
  | .addBuffer size firstTimeUsed lastTimeUsed =>
      .ok (addBuffer size firstTimeUsed lastTimeUsed planner).2
  | .calculateOffsetsIfNeeded => calculateOffsetsIfNeeded planner
  | .getMaximumMemorySize => (getMaximumMemorySize planner).map Prod.snd

def plannerCalls : List PlannerCall → GreedyMemoryPlanner → Except PlannerFault GreedyMemoryPlanner
  | [], planner => .ok planner
  | call :: calls, planner => (plannerCall planner call).bind (plannerCalls calls)

end ContainerScheduler.Arena
