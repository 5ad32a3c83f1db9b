/-
# Attending one request

A request is attended in three moves: `scheduleResources` reserves cores for it,
`scheduleRequest` starts, restarts, resumes or updates its container out of the
reservation and gives back what it did not use, and the caller returns the whole
reservation when nothing could be done.

What Docker, the listening socket and the memory check answer is an environment.
A call either returns a state (`0` or `1`) or ends its thread through `sys.exit`,
and both leave a scheduler behind; `waiting` is an accept loop that has not come
to its end. The thread that attends requests runs with resource control on.
-/

import ContainerScheduler.Host.Policy

namespace ContainerScheduler.Host

open Math

/-! ## The scheduler's shared state -/

/-- The global variables of the scheduler program. -/
structure Scheduler where
  systemInfo : SystemInfo
  schedulerContainer : SchedulingPolicy
  maxResourcesPerCont : ℤ
  execInfoList : List ExecutionInfo
  containerNameList : List String
  qFinishContainer : List (ℤ × String)
  deriving DecidableEq, Repr

namespace Scheduler

/-- The globals before any request: no container, and no core in use. -/
def init (cores maxResourcesPerCont : ℤ) (policy : SchedulingPolicy) : Scheduler where
  systemInfo := ⟨cores, 0⟩
  schedulerContainer := policy
  maxResourcesPerCont := maxResourcesPerCont
  execInfoList := []
  containerNameList := []
  qFinishContainer := []

def freeResources (scheduler : Scheduler) (parallelism : ℤ) : Scheduler :=
  { scheduler with systemInfo := scheduler.systemInfo.freeResources parallelism }

def applyResources (scheduler : Scheduler) (parallelism : ℤ) : Scheduler :=
  { scheduler with systemInfo := scheduler.systemInfo.applyResources parallelism }

def checkResources (scheduler : Scheduler) : ℤ := scheduler.systemInfo.checkResources

/-- The same scheduler with an amount added to the cores in use. -/
def charge (scheduler : Scheduler) (amount : ℤ) : Scheduler :=
  { scheduler with systemInfo :=
      { scheduler.systemInfo with coresUsed := scheduler.systemInfo.coresUsed + amount } }

/-- The same scheduler with another policy object. -/
def withPolicy (scheduler : Scheduler) (policy : SchedulingPolicy) : Scheduler :=
  { scheduler with schedulerContainer := policy }

@[simp]
theorem withPolicy_schedulerContainer (scheduler : Scheduler) (policy : SchedulingPolicy) :
    (scheduler.withPolicy policy).schedulerContainer = policy := rfl

@[simp]
theorem withPolicy_execInfoList (scheduler : Scheduler) (policy : SchedulingPolicy) :
    (scheduler.withPolicy policy).execInfoList = scheduler.execInfoList := rfl

@[simp]
theorem withPolicy_systemInfo (scheduler : Scheduler) (policy : SchedulingPolicy) :
    (scheduler.withPolicy policy).systemInfo = scheduler.systemInfo := rfl

@[simp]
theorem withPolicy_qFinishContainer (scheduler : Scheduler) (policy : SchedulingPolicy) :
    (scheduler.withPolicy policy).qFinishContainer = scheduler.qFinishContainer := rfl

/-- The policy's share for a pair of amounts. -/
def share (scheduler : Scheduler) (resourcesAvailables inter intra : ℤ) : Option (ℤ × ℤ) :=
  scheduleParallelism scheduler.schedulerContainer.reassigmentType
    scheduler.schedulerContainer.factorProp scheduler.maxResourcesPerCont
    resourcesAvailables inter intra

section Charging

variable (scheduler : Scheduler) (amount other : ℤ)

@[simp]
theorem charge_execInfoList :
    (scheduler.charge amount).execInfoList = scheduler.execInfoList := rfl

@[simp]
theorem charge_containerNameList :
    (scheduler.charge amount).containerNameList = scheduler.containerNameList := rfl

@[simp]
theorem charge_qFinishContainer :
    (scheduler.charge amount).qFinishContainer = scheduler.qFinishContainer := rfl

@[simp]
theorem charge_schedulerContainer :
    (scheduler.charge amount).schedulerContainer = scheduler.schedulerContainer := rfl

@[simp]
theorem charge_coresUsed : (scheduler.charge amount).systemInfo.coresUsed =
    scheduler.systemInfo.coresUsed + amount := rfl

@[simp]
theorem charge_cores :
    (scheduler.charge amount).systemInfo.cores = scheduler.systemInfo.cores := rfl

@[simp]
theorem share_charge : (scheduler.charge amount).share = scheduler.share := rfl

@[simp]
theorem charge_charge : (scheduler.charge amount).charge other =
    scheduler.charge (amount + other) := by
  simp [charge, add_assoc]

@[simp]
theorem charge_zero : scheduler.charge 0 = scheduler := by
  simp [charge]

theorem freeResources_eq_charge : scheduler.freeResources amount = scheduler.charge (-amount) := by
  simp [freeResources, charge, SystemInfo.freeResources, sub_eq_add_neg]

theorem applyResources_eq_charge (hfits : amount ≤ scheduler.checkResources) :
    scheduler.applyResources amount = scheduler.charge amount := by
  have hcharged : (scheduler.systemInfo.applyResources amount).coresUsed =
      scheduler.systemInfo.coresUsed + amount := SystemInfo.applyResources_coresUsed hfits
  have hcores := scheduler.systemInfo.applyResources_cores amount
  simp only [applyResources, charge]
  congr 1
  cases happlied : scheduler.systemInfo.applyResources amount
  simp_all

end Charging

end Scheduler

/-! ## The environment -/

/-- What one `accept` call does: a connection, a time-out, or another exception,
which is printed and not counted as an attempt. -/
inductive AcceptOutcome
  | connected (socket : ClientSocket)
  | timeout
  | error
  deriving DecidableEq, Repr

/-- What the surroundings of one `schedule_request` call answer. -/
structure RequestEnv where
  memoryBelowLimit : Bool
  dockerStderr : Bool
  accepts : List AcceptOutcome
  deriving DecidableEq, Repr

/-- How a call ends. -/
inductive Answer (σ : Type)
  | returned (state : ℕ) (scheduler : σ)
  | exited (scheduler : σ)
  | waiting
  deriving DecidableEq, Repr

/-- Every state that an answer leaves behind has a property. -/
def Answer.All {σ : Type} (P : σ → Prop) : Answer σ → Prop
  | .returned _ scheduler | .exited scheduler => P scheduler
  | .waiting => True

theorem Answer.All.mono {σ : Type} {P Q : σ → Prop} {answer : Answer σ} (hall : answer.All P)
    (himp : ∀ state, P state → Q state) : answer.All Q := by
  cases answer with
  | waiting => trivial
  | _ => exact himp _ hall

/-- The accept loop: `remaining` time-outs are left. `none` when the listed
outcomes end before the loop does; otherwise the connection, if there is one. -/
def acceptLoop : ℕ → List AcceptOutcome → Option (Option ClientSocket)
  | 0, _ => some none
  | _ + 1, [] => none
  | _ + 1, .connected socket :: _ => some (some socket)
  | remaining + 1, .timeout :: outcomes => acceptLoop remaining outcomes
  | remaining + 1, .error :: outcomes => acceptLoop (remaining + 1) outcomes

/-- The number of attempts a started container is given. -/
def acceptAttempts : ℕ := 5

/-! ## Reserving cores -/

namespace Request

/-- The guard of the loops in `schedule_resources`: whose record decides the
amount. A `Start` looks at no record. -/
def reservesFrom (request : Request) (info : ExecutionInfo) : Bool :=
  match request with
  | start .. => false
  | update requestId .. => info.containerName = instanceName requestId ∧ info.state = .start
  | restart _ containerName .. => info.containerName = containerName
  | resume requestId => info.containerNumber = requestId ∧ info.state ≠ .start
  | pause requestId => info.containerNumber = requestId ∧ info.state ≠ .pause

/-- The amount one matching record stands for. -/
def reservedFrom (request : Request) (info : ExecutionInfo) : ℤ :=
  match request with
  | start .. => request.totalParallelism
  | update .. => request.totalParallelism - info.execParallelism
  | restart .. | resume _ => info.execParallelism
  | pause _ => -info.execParallelism

/-- The amount a request asks to reserve: the last matching record decides. -/
def requestedResources (request : Request) (infos : List ExecutionInfo) : ℤ :=
  match request with
  | start .. => request.totalParallelism
  | _ => infos.foldl (fun requested info =>
      if request.reservesFrom info then request.reservedFrom info else requested) 0

end Request

/-- Charge the amount that is to be reserved, and what the caller hears of it. -/
def reservedAmount (reassigmentType : ReassigmentType) (requestedResources
    resourcesAvailables : ℤ) : ℤ :=
  if 0 < requestedResources ∧ requestedResources ≤ resourcesAvailables then
    if reassigmentType = .maxProp then resourcesAvailables else requestedResources
  else if 0 < requestedResources then resourcesAvailables
  else requestedResources

/-- A `Pause` pauses its containers while its amount is computed. -/
def Scheduler.pausedBy (scheduler : Scheduler) (request : Request) : Scheduler :=
  match request with
  | .pause _ => { scheduler with
      execInfoList := scheduler.execInfoList.map fun info =>
        if request.reservesFrom info then info.pauseContainer else info }
  | _ => scheduler

/-- Reserve cores for a request out of the free ones. A request that lowers a
share, or pauses a container, frees them here; a pause also marks the container. -/
def scheduleResources (scheduler : Scheduler) (request : Request) (resourcesAvailables : ℤ) :
    ℤ × Scheduler :=
  let requested := request.requestedResources scheduler.execInfoList
  let amount := reservedAmount scheduler.schedulerContainer.reassigmentType requested
    resourcesAvailables
  let paused := scheduler.pausedBy request
  if 0 < requested then (amount, paused.applyResources amount)
  else (amount, paused.freeResources (-requested))

theorem reservedAmount_le {reassigmentType : ReassigmentType} {requested available : ℤ}
    (hpositive : 0 < requested) :
    reservedAmount reassigmentType requested available ≤ available := by
  unfold reservedAmount
  split
  · split <;> omega
  · simp

theorem reservedAmount_of_nonpos {reassigmentType : ReassigmentType} {requested : ℤ}
    (hnonpos : requested ≤ 0) (available : ℤ) :
    reservedAmount reassigmentType requested available = requested := by
  have hnot : ¬ 0 < requested := by omega
  simp [reservedAmount, hnot]

namespace Scheduler

/-- The amount the attention thread reserves for a request. -/
def reservation (scheduler : Scheduler) (request : Request) : ℤ :=
  reservedAmount scheduler.schedulerContainer.reassigmentType
    (request.requestedResources scheduler.execInfoList) scheduler.checkResources

end Scheduler

/-- Out of the free cores, exactly the returned amount is charged. -/
theorem scheduleResources_eq (scheduler : Scheduler) (request : Request) :
    scheduleResources scheduler request scheduler.checkResources =
      (scheduler.reservation request,
        (scheduler.pausedBy request).charge (scheduler.reservation request)) := by
  have hcheck : (scheduler.pausedBy request).checkResources = scheduler.checkResources := by
    cases request <;> rfl
  unfold scheduleResources
  by_cases hpositive : 0 < request.requestedResources scheduler.execInfoList
  · have hfits : scheduler.reservation request ≤ (scheduler.pausedBy request).checkResources :=
      hcheck ▸ reservedAmount_le hpositive
    rw [← Scheduler.applyResources_eq_charge _ _ hfits]
    simp only [hpositive, if_true]
    rfl
  · have hamount : scheduler.reservation request =
        request.requestedResources scheduler.execInfoList :=
      reservedAmount_of_nonpos (by omega) _
    have hcharge : (scheduler.pausedBy request).charge (scheduler.reservation request) =
        (scheduler.pausedBy request).freeResources
          (-request.requestedResources scheduler.execInfoList) := by
      rw [Scheduler.freeResources_eq_charge, hamount, neg_neg]
    rw [hcharge]
    simp only [hpositive, if_false]
    rfl

/-! ## Updating a running container -/

/-- What an update sends to one running container: the two values passed to
`update_parallelism` and the change it is charged for. `none` when the policy
refuses. Under a negative reservation the new amounts are sent as they are. -/
def updateOffer (share : ℤ → ℤ → ℤ → Option (ℤ × ℤ)) (info : ExecutionInfo)
    (newInter newIntra resourcesAvailables : ℤ) : Option (ℤ × ℤ × ℤ) :=
  if resourcesAvailables < 0 then
    some (newInter, newIntra, newInter + newIntra - info.execParallelism)
  else
    (share resourcesAvailables (newInter - info.interExecParallelism)
        (newIntra - info.intraExecParallelism)).map fun parallelismList =>
      let inter := info.interExecParallelism + parallelismList.1
      let intra := info.intraExecParallelism + parallelismList.2
      let applied := parallelismList.1 + parallelismList.2
      if parallelismList.1 ≠ 0 ∧ parallelismList.2 ≠ 0 then (inter, intra, applied)
      else if parallelismList.1 ≠ 0 then (inter, 0, applied)
      else (0, intra, applied)

/-- The loop of `updateExecutionInstance` after some containers: whether a send
raised, the flag and the amount so far, and the list. -/
structure UpdateTrace where
  exited : Bool
  ok : Bool
  parallelismApply : ℤ
  execInfoList : List ExecutionInfo
  deriving DecidableEq, Repr

/-- Keep one more container at the front of the list. -/
def UpdateTrace.after (info : ExecutionInfo) (trace : UpdateTrace) : UpdateTrace :=
  { trace with execInfoList := info :: trace.execInfoList }

section UpdateLoop

variable (share : ℤ → ℤ → ℤ → Option (ℤ × ℤ)) (containerName : String)
  (newInter newIntra resourcesAvailables : ℤ)

/-- Update every listed container of the name, in list order. -/
def updateExecutionLoop : Bool → ℤ → List ExecutionInfo → UpdateTrace
  | ok, parallelismApply, [] => ⟨false, ok, parallelismApply, []⟩
  | ok, parallelismApply, info :: infos =>
      if info.containerName = containerName then
        if info.state ≠ .start then
          (updateExecutionLoop false parallelismApply infos).after info
        else
          match updateOffer share info newInter newIntra resourcesAvailables with
          | none => (updateExecutionLoop false parallelismApply infos).after info
          | some (inter, intra, applied) =>
              match info.updateParallelism inter intra with
              | none => ⟨true, ok, parallelismApply, info :: infos⟩
              | some updated => (updateExecutionLoop true applied infos).after updated
      else (updateExecutionLoop ok parallelismApply infos).after info

def updateExecutionInstance (infos : List ExecutionInfo) : UpdateTrace :=
  updateExecutionLoop share containerName newInter newIntra resourcesAvailables false 0 infos

variable {share containerName newInter newIntra resourcesAvailables}

/-- A name that no container bears leaves the loop as it started. -/
theorem updateExecutionLoop_of_unlisted {ok : Bool} {applied : ℤ} {infos : List ExecutionInfo}
    (hunlisted : ∀ info ∈ infos, info.containerName ≠ containerName) :
    updateExecutionLoop share containerName newInter newIntra resourcesAvailables ok applied
      infos = ⟨false, ok, applied, infos⟩ := by
  induction infos with
  | nil => rfl
  | cons info infos ih =>
      have hrest := ih fun other hmem => hunlisted other (List.mem_cons_of_mem info hmem)
      simp [updateExecutionLoop, hunlisted info List.mem_cons_self, hrest, UpdateTrace.after]

end UpdateLoop

/-! ## Serving the request -/

/-- Give back what the share left of the reservation. -/
def freeExceeded (scheduler : Scheduler) (parallelismApply resourcesAvailables : ℤ) :
    Scheduler :=
  if parallelismApply ≠ 0 ∧ parallelismApply < resourcesAvailables then
    scheduler.freeResources (resourcesAvailables - parallelismApply)
  else scheduler

@[simp]
theorem freeExceeded_execInfoList (scheduler : Scheduler) (applied available : ℤ) :
    (freeExceeded scheduler applied available).execInfoList = scheduler.execInfoList := by
  unfold freeExceeded
  split <;> rfl

/-- The name of the container that a `Start` or a `Restart` runs. -/
def Request.launchName : Request → String
  | .restart _ containerName .. => containerName
  | request => instanceName request.getRequestId

/-- Record a container that connected: a new one at the end of the list, or the
restarted one in place. -/
def registerContainer (scheduler : Scheduler) (request : Request) (inter intra : ℤ)
    (portHost : ℕ) (socket : ClientSocket) : Scheduler :=
  match request with
  | .start requestId image interUser intraUser priority =>
      { scheduler with
        execInfoList := scheduler.execInfoList ++ [{
          containerName := instanceName requestId
          containerNumber := requestId
          containerPort := portHost
          interUserParallelism := interUser
          intraUserParallelism := intraUser
          interExecParallelism := inter
          intraExecParallelism := intra
          clientsocket := socket
          image := image
          priority := priority }]
        containerNameList := scheduler.containerNameList ++ [instanceName requestId] }
  | request =>
      { scheduler with
        execInfoList := mapNamed request.launchName
          (fun info => info.updateInfo inter intra portHost socket) scheduler.execInfoList }

/-- Start or restart a container: ask the policy for a share, check the memory,
run Docker and wait for the client to connect. -/
def launchContainer (scheduler : Scheduler) (request : Request) (portHost : ℕ)
    (env : RequestEnv) (resourcesAvailables : ℤ) : Answer Scheduler :=
  match scheduler.share resourcesAvailables request.getInterParallelism
      request.getIntraParallelism with
  | none => .returned 0 scheduler
  | some (inter, intra) =>
      if env.memoryBelowLimit then
        if env.dockerStderr then .exited scheduler
        else
          match acceptLoop acceptAttempts env.accepts with
          | none => .waiting
          | some none => .returned 0 (freeExceeded scheduler (inter + intra) resourcesAvailables)
          | some (some socket) =>
              .returned 1 (freeExceeded
                (registerContainer scheduler request inter intra portHost socket)
                (inter + intra) resourcesAvailables)
      else .returned 0 scheduler

/-- The loop that resumes every container of a number: the amount of the last
share, the state, and the list. -/
def resumeLoop (share : ℤ → ℤ → ℤ → Option (ℤ × ℤ)) (requestId : String)
    (resourcesAvailables : ℤ) : ℤ → ℕ → List ExecutionInfo → ℤ × ℕ × List ExecutionInfo
  | parallelismApply, state, [] => (parallelismApply, state, [])
  | parallelismApply, state, info :: infos =>
      let (info, parallelismApply, state) :=
        if info.containerNumber = requestId then
          match share resourcesAvailables info.interExecParallelism
              info.intraExecParallelism with
          | none => (info, parallelismApply, state)
          | some (inter, intra) =>
              ((info.setExecParallelism inter intra).resumeContainer, inter + intra, 1)
        else (info, parallelismApply, state)
      let (applied, final, rest) :=
        resumeLoop share requestId resourcesAvailables parallelismApply state infos
      (applied, final, info :: rest)

/-- Update the listed containers of a name. -/
def serveUpdate (scheduler : Scheduler) (containerName : String)
    (newInter newIntra resourcesAvailables : ℤ) : Answer Scheduler :=
  let trace := updateExecutionInstance scheduler.share containerName newInter newIntra
    resourcesAvailables scheduler.execInfoList
  let updated := { scheduler with execInfoList := trace.execInfoList }
  if trace.exited then .exited updated
  else .returned (if trace.ok then 1 else 0)
    (freeExceeded updated trace.parallelismApply resourcesAvailables)

/-- Resume the listed containers of a number. -/
def serveResume (scheduler : Scheduler) (requestId : String) (resourcesAvailables : ℤ) :
    Answer Scheduler :=
  let (applied, state, infos) :=
    resumeLoop scheduler.share requestId resourcesAvailables 0 0 scheduler.execInfoList
  .returned state
    (freeExceeded { scheduler with execInfoList := infos } applied resourcesAvailables)

/-- Update or resume, if some listed container has the name of the request. -/
def serveListed (scheduler : Scheduler) (request : Request) (resourcesAvailables : ℤ) :
    Answer Scheduler :=
  let containerName := instanceName request.getRequestId
  if scheduler.execInfoList.any (fun info => info.containerName = containerName) then
    match request with
    | .update _ newInter newIntra _ =>
        serveUpdate scheduler containerName newInter newIntra resourcesAvailables
    | _ => serveResume scheduler request.getRequestId resourcesAvailables
  else .returned 0 scheduler

/-- Serve a request out of the cores reserved for it. -/
def scheduleRequest (scheduler : Scheduler) (request : Request) (portHost : ℕ)
    (env : RequestEnv) (resourcesAvailables : ℤ) : Answer Scheduler :=
  match request with
  | .start .. | .restart .. =>
      launchContainer scheduler request portHost env resourcesAvailables
  | _ => serveListed scheduler request resourcesAvailables

/-- Reserve out of the free cores and serve the request, unless nothing was
reserved. -/
def attempt (scheduler : Scheduler) (request : Request) (portHost : ℕ) (env : RequestEnv) :
    Answer Scheduler :=
  let (requestedResources, reserved) :=
    scheduleResources scheduler request scheduler.checkResources
  if requestedResources = 0 then .returned 0 reserved
  else scheduleRequest reserved request portHost env requestedResources

/-- What the attention thread does with one request: an attempt, and the release
of its whole reservation when the request was not served. -/
def attend (scheduler : Scheduler) (request : Request) (portHost : ℕ) (env : RequestEnv) :
    Answer Scheduler :=
  match attempt scheduler request portHost env with
  | .returned 0 served => .returned 0 (served.freeResources (scheduler.reservation request))
  | answer => answer

theorem attempt_of_reservation_eq_zero {scheduler : Scheduler} {request : Request}
    (hzero : scheduler.reservation request = 0) (port : ℕ) (env : RequestEnv) :
    attempt scheduler request port env = .returned 0 (scheduler.pausedBy request) := by
  rw [attempt, scheduleResources_eq]
  simp [hzero]

/-- A request that reserves something is served out of it. -/
theorem attempt_of_reservation_ne_zero {scheduler : Scheduler} {request : Request}
    (hreserved : scheduler.reservation request ≠ 0) (port : ℕ) (env : RequestEnv) :
    attempt scheduler request port env =
      scheduleRequest ((scheduler.pausedBy request).charge (scheduler.reservation request))
        request port env (scheduler.reservation request) := by
  rw [attempt, scheduleResources_eq]
  simp [hreserved]

theorem pausedBy_eq_self {scheduler : Scheduler} {request : Request}
    (hpause : ∀ requestId, request ≠ .pause requestId) :
    scheduler.pausedBy request = scheduler := by
  cases request with
  | pause requestId => exact absurd rfl (hpause requestId)
  | _ => rfl

theorem attend_eq_refused {scheduler after : Scheduler} {request : Request} {port : ℕ}
    {env : RequestEnv} (hrefused : attend scheduler request port env = .returned 0 after) :
    (scheduler.reservation request = 0 ∧ after = scheduler.pausedBy request) ∨
      (scheduler.reservation request ≠ 0 ∧ ∃ served,
        scheduleRequest ((scheduler.pausedBy request).charge (scheduler.reservation request))
          request port env (scheduler.reservation request) = .returned 0 served ∧
        after = served.freeResources (scheduler.reservation request)) := by
  unfold attend at hrefused
  by_cases hzero : scheduler.reservation request = 0
  · rw [attempt_of_reservation_eq_zero hzero] at hrefused
    obtain ⟨-, rfl⟩ := Answer.returned.inj hrefused
    exact .inl ⟨hzero, by simp [hzero, Scheduler.freeResources_eq_charge]⟩
  · rw [attempt_of_reservation_ne_zero hzero] at hrefused
    refine .inr ⟨hzero, ?_⟩
    split at hrefused
    next served hserved => exact ⟨served, hserved, (Answer.returned.inj hrefused).2.symm⟩
    next answer hnot => exact absurd hrefused (hnot after)

end ContainerScheduler.Host
