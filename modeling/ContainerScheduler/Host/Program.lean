/-
# The scheduler program as a machine

The steps the threads of the scheduler take on its shared state, in any order:
the generator queues a request or ends, the attention thread tries a request,
reassigns, measures or frees, and the client threads report that a container
exited or failed. What Docker and the sockets answer is part of the label.

An error of the attention thread ends that thread and no other. The thread that
pauses and resumes containers is never started, so the generator is the only
source of requests.
-/

import ContainerScheduler.Host.AttentionPass
import ContainerScheduler.Math.Transition

namespace ContainerScheduler.Host

open Math

/-- The shared state and how far the threads that change it have come. -/
structure World where
  scheduler : Scheduler
  portHost : ℕ
  attentionEnded : Bool
  creationRequestsTerminate : Bool
  deriving DecidableEq, Repr

/-- What some thread does next. -/
inductive Action
  | enqueue (request : Request)
  | terminate
  | attendNew (env : RequestEnv)
  | attendPending (env : RequestEnv)
  | reassign
  | measure
  | free
  | exit (containerName : String)
  | fail (instanceNumber containerName : String) (priority : ℤ)
  | disconnect (containerName : String)
  deriving DecidableEq, Repr

namespace World

/-- The world once the attention thread is done with a request. A call that does
not return is no step. -/
def afterAnswer (world : World) (portHost : ℕ) : Answer Scheduler → Option World
  | .returned _ scheduler => some { world with scheduler := scheduler, portHost := portHost }
  | .exited scheduler => some { world with scheduler := scheduler, attentionEnded := true }
  | .waiting => none

/-- Try the next new request. -/
def attendNew (world : World) (env : RequestEnv) : Option World :=
  world.scheduler.schedulerContainer.getNewRequest.bind fun (request, policy) =>
    let answer := serveNew (world.scheduler.withPolicy policy) request world.portHost env
    match answer with
    | .returned 0 _ => world.afterAnswer world.portHost answer
    | _ => world.afterAnswer (nextPort world.portHost request) answer

/-- Try the next pending request, and put it back when it is not served. -/
def attendPending (world : World) (env : RequestEnv) : Option World :=
  world.scheduler.schedulerContainer.getPendingRequest.bind fun (request, policy) =>
    match attend (world.scheduler.withPolicy policy) request world.portHost env with
    | .returned 0 scheduler =>
        match postpone scheduler request with
        | none => world.afterAnswer world.portHost (.exited scheduler)
        | some kept => world.afterAnswer world.portHost (.returned 0 kept)
    | answer => world.afterAnswer (nextPort world.portHost request) answer

/-- Hand out the free cores. -/
def reassign (world : World) : World :=
  match reassignFree world.scheduler with
  | .ok scheduler => { world with scheduler := scheduler }
  | .error scheduler => { world with scheduler := scheduler, attentionEnded := true }

/-- Measure the demand; a measurement that raises ends the attention thread. -/
def measure (world : World) : World :=
  match measureStage world.scheduler with
  | some scheduler => { world with scheduler := scheduler }
  | none => { world with attentionEnded := true }

/-- Queue a request of the generator, which builds only `Start` and `Update`. -/
def enqueue (world : World) (request : Request) : Option World :=
  match request with
  | .start .. | .update .. =>
      (world.scheduler.schedulerContainer.addQueueRequest request.getPriority request).map
        fun policy => { world with scheduler := world.scheduler.withPolicy policy }
  | _ => none

/-- The step of a label. The generator stops for good when it ends, and so does
the attention thread. -/
def step (world : World) : Action → Option World
  | .enqueue request => if world.creationRequestsTerminate then none else world.enqueue request
  | .terminate => some { world with creationRequestsTerminate := true }
  | .attendNew env => if world.attentionEnded then none else world.attendNew env
  | .attendPending env => if world.attentionEnded then none else world.attendPending env
  | .reassign => if world.attentionEnded then none else some world.reassign
  | .measure => if world.attentionEnded then none else some world.measure
  | .free =>
      if world.attentionEnded then none
      else (freeFinished world.scheduler).map fun scheduler => { world with scheduler := scheduler }
  | .exit containerName =>
      some { world with scheduler := (removeContainer world.scheduler containerName).2 }
  | .fail instanceNumber containerName priority =>
      some { world with scheduler :=
        containerFailedAttention world.scheduler instanceNumber containerName priority }
  | .disconnect containerName =>
      some { world with scheduler := { world.scheduler with
        execInfoList := mapNamed containerName ExecutionInfo.disconnect
          world.scheduler.execInfoList } }

end World

/-- The program on a machine with a number of cores: no container, no request,
and the first port of the host. -/
def program (cores maxResourcesPerCont : ℤ) (policyClass : PolicyClass)
    (reassigmentType : ReassigmentType) : Machine World Action where
  init := ⟨.init cores maxResourcesPerCont (.init policyClass reassigmentType), 8787, false, false⟩
  step := World.step

end ContainerScheduler.Host
