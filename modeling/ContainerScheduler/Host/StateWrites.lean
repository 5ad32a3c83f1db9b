/-
# Who writes the state of a container

`pause_container`, `resume_container`, `update_info` and the failure of a container
write the state string of a record, and so does a `max_prop` reassignment. The first
four also decide whether a container counts as paused or as failed. Here each step
of the program is accompanied by the marks that these operations leave on the
records, which no function of the program reads.

The steps are those of the program and the queueing of any request: the source has
a thread that pauses and resumes containers, although nothing starts it.
-/

import ContainerScheduler.Host.Program

namespace ContainerScheduler.Host

open Math

/-! ## Operations and marks -/

/-- The operations that pause, resume, restart and fail a container. -/
inductive StateWrite
  | pauseContainer
  | resumeContainer
  | updateInfo
  | containerFailed
  deriving DecidableEq, Repr

/-- The state the operation writes. -/
def StateWrite.state : StateWrite → ContainerState
  | pauseContainer => .pause
  | resumeContainer | updateInfo => .start
  | containerFailed => .failed

/-- Paused and not resumed since; failed and not restarted since. -/
structure Marks where
  paused : Bool := false
  failed : Bool := false
  deriving DecidableEq, Repr

def Marks.after (marks : Marks) : StateWrite → Marks
  | .pauseContainer => { marks with paused := true }
  | .resumeContainer => { marks with paused := false }
  | .updateInfo => { marks with failed := false }
  | .containerFailed => { marks with failed := true }

/-! ## What an attendance writes -/

/-- The `Resume` branch of `schedule_request` resumes the record. -/
def resumes (scheduler : Scheduler) (request : Request) (requestId : String)
    (info : ExecutionInfo) : Bool :=
  scheduler.reservation request ≠ 0 ∧
    scheduler.execInfoList.any (fun other => other.containerName = instanceName requestId) ∧
    info.containerNumber = requestId ∧
    (scheduler.share (scheduler.reservation request) info.interExecParallelism
      info.intraExecParallelism).isSome

/-- What `schedule_resources` writes. -/
def pauseWrites (request : Request) (info : ExecutionInfo) : List StateWrite :=
  match request with
  | .pause _ => if request.reservesFrom info then [.pauseContainer] else []
  | _ => []

/-- What `schedule_request` writes, when it launches a container or does not. A
`Pause` that gets there is served like a `Resume`. -/
def serveWrites (scheduler : Scheduler) (request : Request) (launched : Bool)
    (info : ExecutionInfo) : List StateWrite :=
  match request with
  | .start .. | .update .. => []
  | .restart _ containerName .. =>
      if launched ∧ info.containerName = containerName then [.updateInfo] else []
  | .resume requestId | .pause requestId =>
      if resumes scheduler request requestId info then [.resumeContainer] else []

/-- What the attendance of a pending request writes. -/
def attendWrites (scheduler : Scheduler) (request : Request) (launched : Bool)
    (info : ExecutionInfo) : List StateWrite :=
  pauseWrites request info ++ serveWrites scheduler request launched info

/-- What the attendance of a new request writes. A new `Pause` is not served. -/
def newWrites (scheduler : Scheduler) (request : Request) (launched : Bool)
    (info : ExecutionInfo) : List StateWrite :=
  match request with
  | .pause _ => pauseWrites request info
  | _ => serveWrites scheduler request launched info

/-- Whether a call returned that it served the request. -/
def Answer.served {σ : Type} : Answer σ → Bool
  | .returned 0 _ | .exited _ | .waiting => false
  | .returned _ _ => true

/-! ## The program with its marks -/

/-- The program and the marks of its records, in list order. -/
structure Tracked where
  world : World
  marks : List Marks
  deriving DecidableEq, Repr

/-- A step of the program, or any request that is queued. -/
inductive TrackedStep
  | program (action : Action)
  | queue (request : Request)
  deriving DecidableEq, Repr

/-- Record the writes on the listed records. -/
def markAll (writes : ExecutionInfo → List StateWrite) (infos : List ExecutionInfo)
    (marks : List Marks) : List Marks :=
  List.zipWith (fun info marks => (writes info).foldl Marks.after marks) infos marks

/-- The marks of a record that a call has added: none. -/
def freshMarks (request : Request) (launched : Bool) : List Marks :=
  match request, launched with
  | .start .., true => [{}]
  | _, _ => []

/-- The marks after a step of the program. -/
def Tracked.marksAfter (tracked : Tracked) : Action → List Marks
  | .attendNew env =>
      match tracked.world.scheduler.schedulerContainer.getNewRequest with
      | none => tracked.marks
      | some (request, policy) =>
          let given := tracked.world.scheduler.withPolicy policy
          let launched := (serveNew given request tracked.world.portHost env).served
          markAll (newWrites given request launched) given.execInfoList tracked.marks ++
            freshMarks request launched
  | .attendPending env =>
      match tracked.world.scheduler.schedulerContainer.getPendingRequest with
      | none => tracked.marks
      | some (request, policy) =>
          let given := tracked.world.scheduler.withPolicy policy
          let launched := (attend given request tracked.world.portHost env).served
          markAll (attendWrites given request launched) given.execInfoList tracked.marks ++
            freshMarks request launched
  | .exit containerName =>
      tracked.marks.eraseIdx (tracked.world.scheduler.execInfoList.findIdx
        fun info => info.containerName = containerName)
  | .fail _ containerName _ =>
      markAll (fun info => if info.containerName = containerName then [.containerFailed] else [])
        tracked.world.scheduler.execInfoList tracked.marks
  | .enqueue _ | .terminate | .reassign | .measure | .free | .disconnect _ => tracked.marks

/-- Queue a request of any class. -/
def World.queueRequest (world : World) (request : Request) : Option World :=
  (world.scheduler.schedulerContainer.addQueueRequest request.getPriority request).map
    fun policy => { world with scheduler := world.scheduler.withPolicy policy }

def Tracked.step (tracked : Tracked) : TrackedStep → Option Tracked
  | .program action =>
      (tracked.world.step action).map fun world => ⟨world, tracked.marksAfter action⟩
  | .queue request =>
      (tracked.world.queueRequest request).map fun world => { tracked with world := world }

/-- The program with marks, from its initial state on. -/
def trackedProgram (cores maxResourcesPerCont : ℤ) (policyClass : PolicyClass)
    (reassigmentType : ReassigmentType) : Machine Tracked TrackedStep where
  init := ⟨(program cores maxResourcesPerCont policyClass reassigmentType).init, []⟩
  step := Tracked.step

end ContainerScheduler.Host
