/-
# The scheduling policy

A policy object answers two questions: how much parallelism a request gets out of
a given number of cores (`scheduleParallelism`, one rule for each assignment
policy), and which request is served next (its queue arrays, one queue for FCFS
and one for each priority otherwise).

Under `max_prop` the share is divided by a proportion factor that is measured
from the queued requests. Python's float quotients are read as exact rationals,
`int` as truncation towards zero and `round` as rounding half to even.
-/

import ContainerScheduler.Host.Container
import ContainerScheduler.Math.QueueArray
import Mathlib.Data.Rat.Floor

namespace ContainerScheduler.Host

open Math

/-! ## Numbers of the source language -/

/-- `int` of a float: truncation towards zero. -/
def pyInt (value : ℚ) : ℤ := if 0 ≤ value then ⌊value⌋ else ⌈value⌉

/-- `round` of a float: ties go to the even neighbour. -/
def pyRound (value : ℚ) : ℤ :=
  if value - ⌊value⌋ < 1 / 2 then ⌊value⌋
  else if 1 / 2 < value - ⌊value⌋ then ⌊value⌋ + 1
  else if ⌊value⌋ % 2 = 0 then ⌊value⌋ else ⌊value⌋ + 1

/-- Subscripting a list of `count` elements: a negative index counts from the
end, and `none` stands for `IndexError`. -/
def pyIndex (count : ℕ) (index : ℤ) : Option (Fin count) :=
  let position := if index < 0 then index + count else index
  if hposition : 0 ≤ position ∧ position.toNat < count then
    some ⟨position.toNat, hposition.2⟩
  else none

/-! ## Shares -/

/-- How requests are given parallelism, and how free cores are reassigned. -/
inductive ReassigmentType
  | strict
  | maxProp
  | alwaysAttend
  deriving DecidableEq, Repr

/-- At most one inter thread is assigned. The source overwrites the inter amount
before adding it to the intra amount, so exactly one thread is moved. -/
def collapseInter (inter intra : ℤ) : ℤ × ℤ :=
  if 1 < inter then (1, intra + 1) else (inter, intra)

/-- All of the request or nothing; a request for no more than zero always passes. -/
def strictParallelism (resourcesAvailables inter intra : ℤ) : Option (ℤ × ℤ) :=
  if 0 < inter + intra then
    if inter + intra ≤ resourcesAvailables then some (collapseInter inter intra) else none
  else some (inter, intra)

/-- One inter thread, and the intra amount divided by the proportion factor. -/
def maxPropParallelism (factorProp : ℚ) (maxResourcesPerCont resourcesAvailables intra : ℤ) :
    Option (ℤ × ℤ) :=
  if 2 < resourcesAvailables then
    let interP : ℤ := 1
    let quotient := pyInt (intra / factorProp)
    let intraP := if maxResourcesPerCont ≤ quotient then maxResourcesPerCont else quotient
    let intraP := if intraP = 0 then 1 else intraP
    let intraP := if resourcesAvailables - interP < intraP then resourcesAvailables - interP
      else intraP
    -- the final loop takes threads off one by one until the share fits
    let excess := (interP + intraP - resourcesAvailables).toNat
    some (interP, (fun threads => threads - 1)^[excess] intraP)
  else if resourcesAvailables = 2 then some (1, 1)
  else none

/-- Cut a request down to the available cores in the proportion it asked for. -/
def fractionParallelism (resourcesAvailables inter intra : ℤ) : ℤ × ℤ :=
  let (interP, intraP) :=
    if 0 < inter ∧ 0 < intra then
      (pyRound ((inter / (inter + intra) : ℚ) * resourcesAvailables),
        pyRound ((intra / (inter + intra) : ℚ) * resourcesAvailables))
    else if 0 < inter then (resourcesAvailables, 0)
    else (0, resourcesAvailables)
  let (interP, intraP) := if interP = 0 then (interP + 1, intraP - 1) else (interP, intraP)
  let (interP, intraP) := if intraP = 0 then (interP - 1, intraP + 1) else (interP, intraP)
  -- the surplus inter threads are computed after the overwrite, hence zero of them
  if 1 < interP then (1, intraP + (1 - 1)) else (interP, intraP)

/-- Some share for everyone, as long as one thread of each kind is available. -/
def alwaysAttendParallelism (resourcesAvailables inter intra : ℤ) : Option (ℤ × ℤ) :=
  if 2 ≤ resourcesAvailables then
    if inter + intra ≤ resourcesAvailables then some (collapseInter inter intra)
    else some (fractionParallelism resourcesAvailables inter intra)
  else none

/-- The parallelism given to a request out of the available cores; `none` is the
empty list of the source. -/
def scheduleParallelism (reassigmentType : ReassigmentType) (factorProp : ℚ)
    (maxResourcesPerCont resourcesAvailables inter intra : ℤ) : Option (ℤ × ℤ) :=
  match reassigmentType with
  | .strict => strictParallelism resourcesAvailables inter intra
  | .maxProp => maxPropParallelism factorProp maxResourcesPerCont resourcesAvailables intra
  | .alwaysAttend => alwaysAttendParallelism resourcesAvailables inter intra

/-! ## The policy object -/

/-- First come first served, or one queue for each of a number of priorities. -/
inductive PolicyClass
  | fcfs
  | priority (priorities : ℕ)
  deriving DecidableEq, Repr

namespace PolicyClass

def numberQueues : PolicyClass → ℕ
  | fcfs => 1
  | priority priorities => priorities

/-- Which request an array of the class gives out next. -/
def get : (policyClass : PolicyClass) → QueueArray Request policyClass.numberQueues →
    Option (Request × QueueArray Request policyClass.numberQueues)
  | fcfs, array => array.popFrom (0 : Fin 1)
  | priority _, array => array.pop

/-- Both classes serve their arrays from the first nonempty queue. -/
theorem get_eq_pop (policyClass : PolicyClass)
    (array : QueueArray Request policyClass.numberQueues) : policyClass.get array = array.pop := by
  cases policyClass with
  | fcfs => exact array.popFrom_zero_eq_pop
  | priority priorities => rfl

/-- The queue an identifier selects: all of them when there is only one. -/
def queueIndex (policyClass : PolicyClass) (idQueue : ℤ) : Option (Fin policyClass.numberQueues) :=
  if 1 < policyClass.numberQueues then pyIndex policyClass.numberQueues idQueue
  else pyIndex policyClass.numberQueues 0

end PolicyClass

/-- The queues hold new requests and requests that could not be attended yet. -/
structure SchedulingPolicy where
  policyClass : PolicyClass
  reassigmentType : ReassigmentType
  factorProp : ℚ
  queueArray : QueueArray Request policyClass.numberQueues
  queuePendingArray : QueueArray Request policyClass.numberQueues
  deriving DecidableEq, Repr

namespace SchedulingPolicy

/-- The policy object as its constructor leaves it. -/
def init (policyClass : PolicyClass) (reassigmentType : ReassigmentType) : SchedulingPolicy :=
  ⟨policyClass, reassigmentType, 1, .empty _, .empty _⟩

def addQueueRequest (policy : SchedulingPolicy) (idQueue : ℤ) (data : Request) :
    Option SchedulingPolicy :=
  (policy.policyClass.queueIndex idQueue).map fun index =>
    { policy with queueArray := policy.queueArray.push index data }

def addPendingQueueRequest (policy : SchedulingPolicy) (idQueue : ℤ) (data : Request) :
    Option SchedulingPolicy :=
  (policy.policyClass.queueIndex idQueue).map fun index =>
    { policy with queuePendingArray := policy.queuePendingArray.push index data }

def getNewRequest (policy : SchedulingPolicy) : Option (Request × SchedulingPolicy) :=
  (policy.policyClass.get policy.queueArray).map fun popped =>
    (popped.1, { policy with queueArray := popped.2 })

def getPendingRequest (policy : SchedulingPolicy) : Option (Request × SchedulingPolicy) :=
  (policy.policyClass.get policy.queuePendingArray).map fun popped =>
    (popped.1, { policy with queuePendingArray := popped.2 })

/-! ## What the queue operations do -/

/-- The new requests, in the order in which they would be served. -/
def newRequests (policy : SchedulingPolicy) : List Request := policy.queueArray.stored

/-- The pending requests, in the order in which they would be served. -/
def pendingRequests (policy : SchedulingPolicy) : List Request := policy.queuePendingArray.stored

/-- The pending queue at a position. -/
def pendingQueue (policy : SchedulingPolicy) (position : ℕ) : List Request :=
  policy.queuePendingArray.queueAt position

/-- The position of the queue of a request's priority. -/
def home (policy : SchedulingPolicy) (request : Request) : Option ℕ :=
  (policy.policyClass.queueIndex request.getPriority).map Fin.val

section Operations

variable {policy after : SchedulingPolicy} {idQueue : ℤ} {request : Request}

theorem addQueueRequest_eq_some :
    policy.addQueueRequest idQueue request = some after ↔
      ∃ index, policy.policyClass.queueIndex idQueue = some index ∧
        { policy with queueArray := policy.queueArray.push index request } = after :=
  Option.map_eq_some_iff

theorem addPendingQueueRequest_eq_some :
    policy.addPendingQueueRequest idQueue request = some after ↔
      ∃ index, policy.policyClass.queueIndex idQueue = some index ∧
        { policy with queuePendingArray := policy.queuePendingArray.push index request } = after :=
  Option.map_eq_some_iff

theorem getNewRequest_eq_some :
    policy.getNewRequest = some (request, after) ↔
      ∃ array, policy.queueArray.pop = some (request, array) ∧
        { policy with queueArray := array } = after := by
  simp only [getNewRequest, PolicyClass.get_eq_pop, Option.map_eq_some_iff, Prod.mk.injEq,
    Prod.exists]
  constructor
  · rintro ⟨_, array, hpop, rfl, rfl⟩
    exact ⟨array, hpop, rfl⟩
  · rintro ⟨array, hpop, rfl⟩
    exact ⟨request, array, hpop, rfl, rfl⟩

theorem getPendingRequest_eq_some :
    policy.getPendingRequest = some (request, after) ↔
      ∃ array, policy.queuePendingArray.pop = some (request, array) ∧
        { policy with queuePendingArray := array } = after := by
  simp only [getPendingRequest, PolicyClass.get_eq_pop, Option.map_eq_some_iff, Prod.mk.injEq,
    Prod.exists]
  constructor
  · rintro ⟨_, array, hpop, rfl, rfl⟩
    exact ⟨array, hpop, rfl⟩
  · rintro ⟨array, hpop, rfl⟩
    exact ⟨request, array, hpop, rfl, rfl⟩

theorem queued_of_addQueueRequest (hadd : policy.addQueueRequest idQueue request = some after) :
    after.newRequests.Perm (request :: policy.newRequests) ∧
      after.pendingRequests = policy.pendingRequests := by
  obtain ⟨index, -, rfl⟩ := addQueueRequest_eq_some.mp hadd
  exact ⟨policy.queueArray.stored_push_perm index request, rfl⟩

theorem queued_of_addPendingQueueRequest
    (hadd : policy.addPendingQueueRequest idQueue request = some after) :
    after.newRequests = policy.newRequests ∧
      after.pendingRequests.Perm (request :: policy.pendingRequests) := by
  obtain ⟨index, -, rfl⟩ := addPendingQueueRequest_eq_some.mp hadd
  exact ⟨rfl, policy.queuePendingArray.stored_push_perm index request⟩

theorem pendingQueue_of_addPendingQueueRequest
    (hadd : policy.addPendingQueueRequest request.getPriority request = some after)
    (position : ℕ) : after.pendingQueue position =
      policy.pendingQueue position ++ [request].filter (policy.home · = some position) := by
  obtain ⟨index, hindex, rfl⟩ := addPendingQueueRequest_eq_some.mp hadd
  have hhome : policy.home request = some index.val := by simp [home, hindex]
  rw [pendingQueue, pendingQueue, QueueArray.queueAt_push]
  by_cases hposition : index.val = position <;> simp [hhome, hposition]

theorem queued_of_getNewRequest (hget : policy.getNewRequest = some (request, after)) :
    policy.newRequests = request :: after.newRequests ∧
      after.pendingRequests = policy.pendingRequests := by
  obtain ⟨array, hpop, rfl⟩ := getNewRequest_eq_some.mp hget
  exact ⟨QueueArray.stored_of_pop hpop, rfl⟩

theorem queued_of_getPendingRequest (hget : policy.getPendingRequest = some (request, after)) :
    after.newRequests = policy.newRequests ∧
      policy.pendingRequests = request :: after.pendingRequests := by
  obtain ⟨array, hpop, rfl⟩ := getPendingRequest_eq_some.mp hget
  exact ⟨rfl, QueueArray.stored_of_pop hpop⟩

theorem getNewRequest_eq_none : policy.getNewRequest = none ↔ policy.newRequests = [] := by
  simp [getNewRequest, PolicyClass.get_eq_pop, newRequests, QueueArray.pop_eq_none]

theorem getPendingRequest_eq_none :
    policy.getPendingRequest = none ↔ policy.pendingRequests = [] := by
  simp [getPendingRequest, PolicyClass.get_eq_pop, pendingRequests, QueueArray.pop_eq_none]

end Operations

/-- The index of the first nonempty queue of an array, or `-1`. -/
def firstIndex {count : ℕ} (array : QueueArray Request count) : ℤ :=
  match array.firstNonempty with
  | none => -1
  | some index => index.val

def queueEmpty (policy : SchedulingPolicy) : ℤ := firstIndex policy.queueArray

def pendingQueueEmpty (policy : SchedulingPolicy) : ℤ := firstIndex policy.queuePendingArray

/-! ## The proportion factor -/

/-- What one queued request adds to the measured demand. A container record has
no request identifier, so measuring an `Update` or a `Pause` against one raises:
`none`. -/
def requestDemand (infos : List ExecutionInfo) (request : Request) : Option ℤ :=
  match request with
  | .start .. | .resume .. | .restart .. => some request.totalParallelism
  | .update .. | .pause .. => if infos = [] then some 0 else none

/-- Measure the requests of one queue, in order. -/
def measureQueue (infos : List ExecutionInfo) : List Request → ℤ → Option ℤ
  | [], totalResources => some totalResources
  | request :: requests, totalResources =>
      (requestDemand infos request).bind fun demand =>
        measureQueue infos requests (totalResources + demand)

/-- The priority whose requests are measured, or `-1`: the larger of the first
nonempty indices. -/
def measuredPriority (policy : SchedulingPolicy) : ℤ :=
  match policy.policyClass with
  | .fcfs => 0
  | .priority _ =>
      if policy.queueEmpty = policy.pendingQueueEmpty then policy.queueEmpty
      else if policy.pendingQueueEmpty < policy.queueEmpty then policy.queueEmpty
      else policy.pendingQueueEmpty

/-- Take every request out of one queue and put it back at its end. -/
def refill {count : ℕ} (array : QueueArray Request count) (index : Fin count) :
    QueueArray Request count :=
  (array.setQueue index []).pushAll (fun _ => index) (array.queue index)

@[simp]
theorem refill_eq_self {count : ℕ} (array : QueueArray Request count) (index : Fin count) :
    refill array index = array :=
  array.pushAll_setQueue_nil index

/-- Measure the chosen pending queue and then the chosen queue of new requests.
`none` when a measurement raises. -/
def measureQueues (policy : SchedulingPolicy) (infos : List ExecutionInfo) :
    Option (ℤ × SchedulingPolicy) :=
  if policy.measuredPriority = -1 then some (0, policy)
  else
    (pyIndex policy.policyClass.numberQueues policy.measuredPriority).bind fun index =>
      (measureQueue infos (policy.queuePendingArray.queue index) 0).bind fun pendingTotal =>
        (measureQueue infos (policy.queueArray.queue index) pendingTotal).map fun total =>
          (total, { policy with
            queueArray := refill policy.queueArray index
            queuePendingArray := refill policy.queuePendingArray index })

/-- The factor is the measured demand over the free cores, or `1` when there is
no demand. -/
def calculateFactorProp (policy : SchedulingPolicy) (resourcesAvailables : ℤ)
    (infos : List ExecutionInfo) : Option SchedulingPolicy :=
  (policy.measureQueues infos).map fun measured =>
    let newFp : ℚ := measured.1 / resourcesAvailables
    { measured.2 with factorProp := if newFp = 0 then 1 else newFp }

/-- Measuring the demand moves no request. -/
theorem calculateFactorProp_frame {policy measured : SchedulingPolicy}
    {resourcesAvailables : ℤ} {infos : List ExecutionInfo}
    (hmeasure : policy.calculateFactorProp resourcesAvailables infos = some measured) :
    ∃ factor, measured = { policy with factorProp := factor } := by
  simp only [calculateFactorProp, Option.map_eq_some_iff] at hmeasure
  obtain ⟨⟨total, refilled⟩, htotal, rfl⟩ := hmeasure
  have hrefilled : refilled = policy := by
    unfold measureQueues at htotal
    split at htotal
    · simp_all
    · simp only [refill_eq_self, Option.bind_eq_some_iff, Option.map_eq_some_iff] at htotal
      obtain ⟨index, -, pendingTotal, -, newTotal, -, heq⟩ := htotal
      exact (Prod.mk.inj heq).2.symm
  exact ⟨_, by rw [hrefilled]⟩

end SchedulingPolicy

end ContainerScheduler.Host
