/-
# One pass of the attention thread

The body of the loop in `attentionRequest`, between two waits: free what finished
containers left and reassign it, measure the demand under `max_prop`, try every
pending request, try every new request, reassign what is still free, and check
the occupation of the machine. Expropriation is switched off.

Pending requests that cannot be served wait in a queue of the pass and go back to
the pending queues after the last of them was tried. New requests that cannot be
served become pending at once, except those that ask for more cores than the
machine has, which are dropped.

Each loop runs until its queue is empty. The number of requests in the queue at
the start bounds its rounds, because neither loop fills the queue it reads. A
pass in which a call ends the thread, or never returns, has no result.
-/

import ContainerScheduler.Host.Reassignment

namespace ContainerScheduler.Host

/-! ## The end of a container -/

/-- Drop the first record of the name and leave its share to be freed. Whether a
record was found; without one the call raises after removing the name. -/
def removeContainer (scheduler : Scheduler) (containerName : String) : Bool × Scheduler :=
  let names := scheduler.containerNameList.erase containerName
  match scheduler.execInfoList.find? (fun info => info.containerName = containerName) with
  | none => (false, { scheduler with containerNameList := names })
  | some info => (true, { scheduler with
      qFinishContainer := scheduler.qFinishContainer ++ [(info.execParallelism, containerName)]
      execInfoList :=
        scheduler.execInfoList.eraseP (fun info => info.containerName = containerName)
      containerNameList := names })

/-- Free the share that the oldest finished container left. -/
def freeFinished (scheduler : Scheduler) : Option Scheduler :=
  match scheduler.qFinishContainer with
  | [] => none
  | (resourcesFree, _) :: finished =>
      some ({ scheduler with qFinishContainer := finished }.freeResources resourcesFree)

/-- Mark every record of the name as failed, free the share of the last one and
queue a `Restart` built from it. Without a record the call raises first. -/
def containerFailedAttention (scheduler : Scheduler) (instanceNumber containerName : String)
    (priority : ℤ) : Scheduler :=
  match (named containerName scheduler.execInfoList).getLast? with
  | none => scheduler
  | some info =>
      let failed := { scheduler with
        execInfoList := mapNamed containerName (fun info => info.setState .failed)
          scheduler.execInfoList }
      let freed := failed.freeResources info.execParallelism
      let restart := Request.restart instanceNumber containerName info.interExecParallelism
        info.intraExecParallelism info.image priority
      match freed.schedulerContainer.addQueueRequest priority restart with
      | none => freed
      | some policy => freed.withPolicy policy

/-! ## One request -/

/-- Put a request in the pending queue of its priority; `none` stands for an
index out of range. -/
def postpone (scheduler : Scheduler) (request : Request) : Option Scheduler :=
  (scheduler.schedulerContainer.addPendingQueueRequest request.getPriority request).map
    scheduler.withPolicy

/-- Whether a new request that was not served is dropped. A `Resume` never is. -/
def exceedsMachine (scheduler : Scheduler) : Request → Bool
  | .resume _ => false
  | request => scheduler.systemInfo.totalCores < request.totalParallelism

/-- Keep a new request that was not served, or drop it. -/
def keepOrDiscard (scheduler : Scheduler) (request : Request) : Option Scheduler :=
  if exceedsMachine scheduler request then some scheduler else postpone scheduler request

/-- What the pass does with a new request. A `Pause` only frees its cores. -/
def serveNew (scheduler : Scheduler) (request : Request) (portHost : ℕ) (env : RequestEnv) :
    Answer Scheduler :=
  match request with
  | .pause _ => .returned 1 (scheduleResources scheduler request scheduler.checkResources).2
  | _ =>
      match attempt scheduler request portHost env with
      | .returned 0 served =>
          match keepOrDiscard served request with
          | none => .exited served
          | some kept => .returned 0 (kept.freeResources (scheduler.reservation request))
      | answer => answer

/-- A request other than `Pause` is attempted, and kept or dropped when it was not
served. -/
theorem serveNew_eq {request : Request} (hpause : ∀ requestId, request ≠ .pause requestId)
    (scheduler : Scheduler) (portHost : ℕ) (env : RequestEnv) :
    serveNew scheduler request portHost env =
      match attempt scheduler request portHost env with
      | .returned 0 served =>
          match keepOrDiscard served request with
          | none => .exited served
          | some kept => .returned 0 (kept.freeResources (scheduler.reservation request))
      | answer => answer := by
  cases request with
  | pause requestId => exact absurd rfl (hpause requestId)
  | _ => rfl

theorem postpone_eq_some {scheduler kept : Scheduler} {request : Request} :
    postpone scheduler request = some kept ↔
      ∃ policy, scheduler.schedulerContainer.addPendingQueueRequest request.getPriority request =
        some policy ∧ scheduler.withPolicy policy = kept :=
  Option.map_eq_some_iff

/-- Keeping a request changes the pending queues at most. -/
theorem keepOrDiscard_cases {scheduler kept : Scheduler} {request : Request}
    (hkept : keepOrDiscard scheduler request = some kept) :
    (exceedsMachine scheduler request = true ∧ kept = scheduler) ∨
      (exceedsMachine scheduler request = false ∧ postpone scheduler request = some kept) := by
  unfold keepOrDiscard at hkept
  split at hkept
  next hexceeds => exact .inl ⟨hexceeds, (Option.some.inj hkept).symm⟩
  next hfits => exact .inr ⟨by simpa using hfits, hkept⟩

/-- Every launch takes the next port of the host. -/
def nextPort (portHost : ℕ) : Request → ℕ
  | .start .. | .restart .. => portHost + 1
  | _ => portHost

/-! ## The loops over the queues -/

/-- A pass under way: the scheduler, the next port, the number of requests tried,
and what became of the requests that are in no queue any more. -/
structure PassState where
  scheduler : Scheduler
  portHost : ℕ
  calls : ℕ
  attended : List Request
  discarded : List Request
  deriving DecidableEq, Repr

section Loops

variable (envs : ℕ → RequestEnv)

/-- Try the pending requests in service order. The second component collects
those that go back. -/
def pendingLoop : ℕ → PassState → List Request → Option (PassState × List Request)
  | 0, pass, qAux => some (pass, qAux)
  | rounds + 1, pass, qAux =>
      match pass.scheduler.schedulerContainer.getPendingRequest with
      | none => some (pass, qAux)
      | some (request, policy) =>
          match attend (pass.scheduler.withPolicy policy) request
              pass.portHost (envs pass.calls) with
          | .returned 0 scheduler =>
              pendingLoop rounds { pass with scheduler := scheduler, calls := pass.calls + 1 }
                (qAux ++ [request])
          | .returned _ scheduler =>
              pendingLoop rounds
                { pass with
                  scheduler := scheduler
                  portHost := nextPort pass.portHost request
                  calls := pass.calls + 1
                  attended := pass.attended ++ [request] }
                qAux
          | _ => none

/-- Put the requests of the pass back, in their order. -/
def restorePending (scheduler : Scheduler) (qAux : List Request) : Option Scheduler :=
  qAux.foldlM postpone scheduler

/-- Try the new requests in service order. -/
def newLoop : ℕ → PassState → Option PassState
  | 0, pass => some pass
  | rounds + 1, pass =>
      match pass.scheduler.schedulerContainer.getNewRequest with
      | none => some pass
      | some (request, policy) =>
          match serveNew (pass.scheduler.withPolicy policy) request
              pass.portHost (envs pass.calls) with
          | .returned 0 scheduler =>
              newLoop rounds { pass with
                scheduler := scheduler
                calls := pass.calls + 1
                discarded := if exceedsMachine pass.scheduler request then
                  pass.discarded ++ [request] else pass.discarded }
          | .returned _ scheduler =>
              newLoop rounds { pass with
                scheduler := scheduler
                portHost := nextPort pass.portHost request
                calls := pass.calls + 1
                attended := pass.attended ++ [request] }
          | _ => none

/-! ## The stages of a pass -/

/-- Free everything that finished containers left. -/
def freeAllFinished (scheduler : Scheduler) : Scheduler :=
  { scheduler with qFinishContainer := [] }.freeResources
    (scheduler.qFinishContainer.map Prod.fst).sum

/-- The stage that looks after finished containers. -/
def finishStage (scheduler : Scheduler) : Option Scheduler :=
  if scheduler.qFinishContainer = [] then some scheduler
  else (reassignFree (freeAllFinished scheduler)).toOption

/-- The stage that measures the demand, under `max_prop` and with free cores. -/
def measureStage (scheduler : Scheduler) : Option Scheduler :=
  if scheduler.schedulerContainer.reassigmentType = .maxProp ∧ 0 < scheduler.checkResources then
    (scheduler.schedulerContainer.calculateFactorProp scheduler.checkResources
      scheduler.execInfoList).map scheduler.withPolicy
  else some scheduler

/-- The stage that tries the pending requests, with free cores. -/
def pendingStage (pass : PassState) : Option PassState :=
  if 0 < pass.scheduler.checkResources then
    (pendingLoop envs pass.scheduler.schedulerContainer.queuePendingArray.stored.length pass
        []).bind fun (tried, qAux) =>
      (restorePending tried.scheduler qAux).map fun scheduler =>
        { tried with scheduler := scheduler }
  else some pass

/-- The stage that tries the new requests, with free cores. -/
def newStage (pass : PassState) : Option PassState :=
  if 0 < pass.scheduler.checkResources then
    newLoop envs pass.scheduler.schedulerContainer.queueArray.stored.length pass
  else some pass

/-- The last stage: reassign what is free, and raise when more cores are in use
than there are. -/
def closingStage (pass : PassState) : Option PassState :=
  (reassignFree pass.scheduler).toOption.bind fun scheduler =>
    if 100 < scheduler.systemInfo.systemOccupation then none
    else some { pass with scheduler := scheduler }

/-- One pass, from the state after the wait. -/
def attentionPass (portHost : ℕ) (scheduler : Scheduler) : Option PassState := do
  let finished ← finishStage scheduler
  let measured ← measureStage finished
  let tried ← pendingStage envs ⟨measured, portHost, 0, [], []⟩
  let served ← newStage envs tried
  closingStage served

end Loops

end ContainerScheduler.Host
