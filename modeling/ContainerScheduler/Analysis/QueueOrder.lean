/-
# The order of service

The queue arrays of a policy object are compared with two stable priority queues,
one for new and one for pending requests, over any sequence of the operations the
threads call. Under priorities the index of a queue is the priority; under FCFS
every request has the same one.
-/

import ContainerScheduler.Host.Policy
import ContainerScheduler.Math.StableQueue

namespace ContainerScheduler.Analysis

open Host Math

/-! ## Operations and what they answer -/

/-- The calls on the queues of a policy object. -/
inductive QueueOp
  | addQueueRequest (idQueue : ℤ) (data : Request)
  | addPendingQueueRequest (idQueue : ℤ) (data : Request)
  | getNewRequest
  | getPendingRequest
  | queueEmpty
  | pendingQueueEmpty
  deriving DecidableEq, Repr

/-- The index that a call names is one of the `priorities` indices. -/
def QueueOp.InRange (priorities : ℕ) : QueueOp → Prop
  | addQueueRequest idQueue _ | addPendingQueueRequest idQueue _ =>
      0 ≤ idQueue ∧ idQueue < priorities
  | _ => True

/-- What a call returns. An empty list in place of a request is `none`. -/
inductive QueueAnswer
  | nothing
  | request (request : Option Request)
  | index (index : ℤ)
  deriving DecidableEq, Repr

/-- The call on a policy object; `none` stands for an index out of range. -/
def QueueOp.call (policy : SchedulingPolicy) :
    QueueOp → Option (QueueAnswer × SchedulingPolicy)
  | addQueueRequest idQueue data =>
      (policy.addQueueRequest idQueue data).map fun after => (.nothing, after)
  | addPendingQueueRequest idQueue data =>
      (policy.addPendingQueueRequest idQueue data).map fun after => (.nothing, after)
  | getNewRequest =>
      some ((policy.getNewRequest.map fun (request, after) =>
        (.request (some request), after)).getD (.request none, policy))
  | getPendingRequest =>
      some ((policy.getPendingRequest.map fun (request, after) =>
        (.request (some request), after)).getD (.request none, policy))
  | queueEmpty => some (.index policy.queueEmpty, policy)
  | pendingQueueEmpty => some (.index policy.pendingQueueEmpty, policy)

/-- The answers of a sequence of calls, and the policy object after them. -/
def callAll (policy : SchedulingPolicy) :
    List QueueOp → Option (List QueueAnswer × SchedulingPolicy)
  | [] => some ([], policy)
  | op :: ops => (op.call policy).bind fun (answer, after) =>
      (callAll after ops).map fun (answers, final) => (answer :: answers, final)

/-! ## The same operations on stable priority queues -/

/-- The stored requests, new and pending, with their priorities and arrivals. -/
structure StoredRequests where
  new : StableQueue Request
  pending : StableQueue Request

namespace StoredRequests

def empty : StoredRequests := ⟨.empty, .empty⟩

/-- The index of the next entry, or `-1`. -/
def nextIndex (queue : StableQueue Request) : ℤ :=
  (queue.next.map fun entry => (entry.priority : ℤ)).getD (-1)

variable (key : ℤ → ℕ)

/-- What a call should answer and store, when an index stands for a priority. -/
def call (stored : StoredRequests) : QueueOp → QueueAnswer × StoredRequests
  | .addQueueRequest idQueue data =>
      (.nothing, { stored with new := stored.new.insert (key idQueue) data })
  | .addPendingQueueRequest idQueue data =>
      (.nothing, { stored with pending := stored.pending.insert (key idQueue) data })
  | .getNewRequest => match stored.new.serve with
      | none => (.request none, stored)
      | some (entry, rest) => (.request (some entry.element), { stored with new := rest })
  | .getPendingRequest => match stored.pending.serve with
      | none => (.request none, stored)
      | some (entry, rest) => (.request (some entry.element), { stored with pending := rest })
  | .queueEmpty => (.index (nextIndex stored.new), stored)
  | .pendingQueueEmpty => (.index (nextIndex stored.pending), stored)

/-- The answers that a sequence of calls should get, and what is stored after it. -/
def callAll (stored : StoredRequests) : List QueueOp → List QueueAnswer × StoredRequests
  | [] => ([], stored)
  | op :: ops =>
      let (answer, after) := stored.call key op
      let (answers, final) := callAll after ops
      (answer :: answers, final)

end StoredRequests

/-! ## The simulation -/

/-- Both arrays of the policy implement the queues of stored requests. -/
structure Stores (policy : SchedulingPolicy) (stored : StoredRequests) : Prop where
  new : Implements policy.queueArray stored.new
  pending : Implements policy.queuePendingArray stored.pending

/-- The key of an index is the position of the queue it selects. -/
def KeyOf (policyClass : PolicyClass) (key : ℤ → ℕ) (idQueue : ℤ) : Prop :=
  ∃ index, policyClass.queueIndex idQueue = some index ∧ index.val = key idQueue

/-- The indices a call names have keys. -/
def QueueOp.Keyed (policyClass : PolicyClass) (key : ℤ → ℕ) : QueueOp → Prop
  | addQueueRequest idQueue _ | addPendingQueueRequest idQueue _ => KeyOf policyClass key idQueue
  | _ => True

theorem keyOf_fcfs (idQueue : ℤ) : KeyOf .fcfs (fun _ => 0) idQueue :=
  ⟨(0 : Fin 1), rfl, rfl⟩

theorem keyOf_priority {priorities : ℕ} {idQueue : ℤ} (hnonneg : 0 ≤ idQueue)
    (hlt : idQueue < priorities) : KeyOf (.priority priorities) Int.toNat idQueue := by
  have hposition : idQueue.toNat < priorities := by omega
  refine ⟨⟨idQueue.toNat, hposition⟩, ?_, rfl⟩
  by_cases hmany : 1 < priorities
  · simp [PolicyClass.queueIndex, PolicyClass.numberQueues, pyIndex, hmany, hnonneg, hposition,
      not_lt.mpr hnonneg]
  · have hzero : idQueue.toNat = 0 := by omega
    have hone : 0 < priorities := by omega
    simp [PolicyClass.queueIndex, PolicyClass.numberQueues, pyIndex, hmany, hzero, hone]

variable {policy after : SchedulingPolicy} {stored : StoredRequests}

theorem firstIndex_eq_nextIndex {count : ℕ} {array : QueueArray Request count}
    {queue : StableQueue Request} (himplements : Implements array queue) :
    SchedulingPolicy.firstIndex array = StoredRequests.nextIndex queue := by
  have hfirst := himplements.firstNonempty
  unfold SchedulingPolicy.firstIndex StoredRequests.nextIndex
  cases hnonempty : array.firstNonempty with
  | none =>
      rw [hnonempty, Option.map_none, eq_comm, Option.map_eq_none_iff] at hfirst
      simp [hfirst]
  | some index =>
      rw [hnonempty, Option.map_some, eq_comm, Option.map_eq_some_iff] at hfirst
      obtain ⟨entry, hnext, hpriority⟩ := hfirst
      simp [hnext, hpriority]

/-- **One call.** It does not raise, it answers what the stable queues answer, and
the arrays go on implementing them. -/
theorem call_simulates (hstores : Stores policy stored) {key : ℤ → ℕ} {op : QueueOp}
    (hkeyed : op.Keyed policy.policyClass key) :
    ∃ after, op.call policy = some ((stored.call key op).1, after) ∧
      Stores after (stored.call key op).2 ∧ after.policyClass = policy.policyClass := by
  cases op with
  | addQueueRequest idQueue data =>
      obtain ⟨index, hindex, hkey⟩ := hkeyed
      refine ⟨{ policy with queueArray := policy.queueArray.push index data }, ?_, ⟨?_, ?_⟩, rfl⟩
      · simp [QueueOp.call, SchedulingPolicy.addQueueRequest, hindex, StoredRequests.call]
      · simpa [StoredRequests.call, ← hkey] using hstores.new.push index data
      · exact hstores.pending
  | addPendingQueueRequest idQueue data =>
      obtain ⟨index, hindex, hkey⟩ := hkeyed
      refine ⟨{ policy with queuePendingArray := policy.queuePendingArray.push index data }, ?_,
        ⟨?_, ?_⟩, rfl⟩
      · simp [QueueOp.call, SchedulingPolicy.addPendingQueueRequest, hindex, StoredRequests.call]
      · exact hstores.new
      · simpa [StoredRequests.call, ← hkey] using hstores.pending.push index data
  | getNewRequest =>
      cases hget : policy.getNewRequest with
      | none =>
          have hnext := hstores.new.next_eq_none.mpr
            (hstores.new.entries_eq_nil.mpr (SchedulingPolicy.getNewRequest_eq_none.mp hget))
          refine ⟨policy, ?_, ?_, rfl⟩ <;>
            simp [QueueOp.call, hget, StoredRequests.call, StableQueue.serve, hnext, hstores]
      | some popped =>
          obtain ⟨array, hpop, hafter⟩ := SchedulingPolicy.getNewRequest_eq_some.mp hget
          obtain ⟨entry, hnext, helement, hrest⟩ := hstores.new.pop hpop
          refine ⟨popped.2, ?_, ?_, hafter ▸ rfl⟩
          · simp [QueueOp.call, hget, StoredRequests.call, StableQueue.serve, hnext, helement]
          · simp only [StoredRequests.call, StableQueue.serve, hnext, Option.map_some]
            exact hafter ▸ ⟨hrest, hstores.pending⟩
  | getPendingRequest =>
      cases hget : policy.getPendingRequest with
      | none =>
          have hempty := SchedulingPolicy.getPendingRequest_eq_none.mp hget
          have hnext := hstores.pending.next_eq_none.mpr (hstores.pending.entries_eq_nil.mpr hempty)
          refine ⟨policy, ?_, ?_, rfl⟩ <;>
            simp [QueueOp.call, hget, StoredRequests.call, StableQueue.serve, hnext, hstores]
      | some popped =>
          obtain ⟨array, hpop, hafter⟩ := SchedulingPolicy.getPendingRequest_eq_some.mp hget
          obtain ⟨entry, hnext, helement, hrest⟩ := hstores.pending.pop hpop
          refine ⟨popped.2, ?_, ?_, hafter ▸ rfl⟩
          · simp [QueueOp.call, hget, StoredRequests.call, StableQueue.serve, hnext, helement]
          · simp only [StoredRequests.call, StableQueue.serve, hnext, Option.map_some]
            exact hafter ▸ ⟨hstores.new, hrest⟩
  | queueEmpty =>
      refine ⟨policy, ?_, hstores, rfl⟩
      simp [QueueOp.call, StoredRequests.call, SchedulingPolicy.queueEmpty,
        firstIndex_eq_nextIndex hstores.new]
  | pendingQueueEmpty =>
      refine ⟨policy, ?_, hstores, rfl⟩
      simp [QueueOp.call, StoredRequests.call, SchedulingPolicy.pendingQueueEmpty,
        firstIndex_eq_nextIndex hstores.pending]

/-- Any sequence of calls answers what the stable queues answer. -/
theorem callAll_simulates (hstores : Stores policy stored) {key : ℤ → ℕ} {ops : List QueueOp}
    (hkeyed : ∀ op ∈ ops, op.Keyed policy.policyClass key) :
    ∃ final, callAll policy ops = some ((stored.callAll key ops).1, final) ∧
      Stores final (stored.callAll key ops).2 := by
  induction ops generalizing policy stored with
  | nil => exact ⟨policy, rfl, hstores⟩
  | cons op ops ih =>
      obtain ⟨after, hcall, hafter, hclass⟩ :=
        call_simulates hstores (hkeyed op List.mem_cons_self)
      obtain ⟨final, hrest, hfinal⟩ := ih hafter fun other hmem =>
        hclass ▸ hkeyed other (List.mem_cons_of_mem op hmem)
      exact ⟨final, by simp [callAll, hcall, hrest, StoredRequests.callAll], hfinal⟩

/-- The policy object reports each side empty exactly when nothing is stored there. -/
structure ReportsEmpty (policy : SchedulingPolicy) (stored : StoredRequests) : Prop where
  getNewRequest : policy.getNewRequest = none ↔ stored.new.entries = []
  getPendingRequest : policy.getPendingRequest = none ↔ stored.pending.entries = []
  queueEmpty : policy.queueEmpty = -1 ↔ stored.new.entries = []
  pendingQueueEmpty : policy.pendingQueueEmpty = -1 ↔ stored.pending.entries = []

theorem firstIndex_eq_neg_one {count : ℕ} {array : QueueArray Request count} :
    SchedulingPolicy.firstIndex array = -1 ↔ array.stored = [] := by
  rw [← QueueArray.firstNonempty_eq_none, SchedulingPolicy.firstIndex]
  cases array.firstNonempty with
  | none => simp
  | some index =>
      have hne : (index.val : ℤ) ≠ -1 := by omega
      exact iff_of_false hne (Option.some_ne_none _)

theorem reportsEmpty_of_stores (hstores : Stores policy stored) : ReportsEmpty policy stored where
  getNewRequest :=
    SchedulingPolicy.getNewRequest_eq_none.trans hstores.new.entries_eq_nil.symm
  getPendingRequest :=
    SchedulingPolicy.getPendingRequest_eq_none.trans hstores.pending.entries_eq_nil.symm
  queueEmpty := firstIndex_eq_neg_one.trans hstores.new.entries_eq_nil.symm
  pendingQueueEmpty := firstIndex_eq_neg_one.trans hstores.pending.entries_eq_nil.symm

theorem stores_init (policyClass : PolicyClass) (reassigmentType : ReassigmentType) :
    Stores (.init policyClass reassigmentType) .empty :=
  ⟨.empty _, .empty _⟩

/-- The calls are answered as by stable priority queues, and the policy object
afterwards reports what they store. -/
def ServesInOrder (policyClass : PolicyClass) (reassigmentType : ReassigmentType) (key : ℤ → ℕ)
    (ops : List QueueOp) : Prop :=
  ∃ final, callAll (.init policyClass reassigmentType) ops =
      some ((StoredRequests.empty.callAll key ops).1, final) ∧
    ReportsEmpty final (StoredRequests.empty.callAll key ops).2

theorem servesInOrder_of_keyed {policyClass : PolicyClass} {key : ℤ → ℕ} {ops : List QueueOp}
    (hkeyed : ∀ op ∈ ops, op.Keyed policyClass key) (reassigmentType : ReassigmentType) :
    ServesInOrder policyClass reassigmentType key ops := by
  obtain ⟨final, hanswers, hstores⟩ :=
    callAll_simulates (stores_init policyClass reassigmentType) hkeyed
  exact ⟨final, hanswers, reportsEmpty_of_stores hstores⟩

/-- **Stable service order.** From an empty policy object on, every sequence of
calls is served by index and arrival under priorities, and by arrival alone,
whatever the indices, under FCFS. -/
theorem queues_serve_in_order (reassigmentType : ReassigmentType) (ops : List QueueOp) :
    (∀ priorities : ℕ, 1 ≤ priorities → (∀ op ∈ ops, op.InRange priorities) →
      ServesInOrder (.priority priorities) reassigmentType Int.toNat ops) ∧
    ServesInOrder .fcfs reassigmentType (fun _ => 0) ops := by
  constructor
  · intro priorities _ hrange
    refine servesInOrder_of_keyed (fun op hmem => ?_) reassigmentType
    cases op with
    | addQueueRequest idQueue data | addPendingQueueRequest idQueue data =>
        obtain ⟨hnonneg, hlt⟩ := hrange _ hmem
        exact keyOf_priority hnonneg hlt
    | _ => trivial
  · refine servesInOrder_of_keyed (fun op _ => ?_) reassigmentType
    cases op with
    | addQueueRequest idQueue data | addPendingQueueRequest idQueue data =>
        exact keyOf_fcfs idQueue
    | _ => trivial

/-- Requests of both priorities, and one that arrives between two removals. -/
def mixedCalls : List QueueOp :=
  [.addQueueRequest 1 (.update "0" 1 5 1), .addQueueRequest 1 (.update "1" 1 5 1),
    .addPendingQueueRequest 0 (.update "2" 1 5 0), .queueEmpty, .getNewRequest,
    .addQueueRequest 0 (.update "3" 1 5 0), .getNewRequest, .getNewRequest, .getNewRequest,
    .getPendingRequest, .pendingQueueEmpty]

/-- Two priorities, with a request of the first one arriving between two removals. -/
theorem two_priorities_in_order :
    (∀ op ∈ mixedCalls, op.InRange 2) ∧
      ServesInOrder (.priority 2) .strict Int.toNat mixedCalls := by
  have hrange : ∀ op ∈ mixedCalls, op.InRange 2 := by
    simp [mixedCalls, QueueOp.InRange]
  exact ⟨hrange, (queues_serve_in_order .strict mixedCalls).1 2 (by decide) hrange⟩

end ContainerScheduler.Analysis
