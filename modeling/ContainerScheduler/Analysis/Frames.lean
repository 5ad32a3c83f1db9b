/-
# What attending and reassigning leave alone

Attending a request changes the cores in use and the records of the containers.
It never looks at the queues, and the only record it adds is that of a `Start`
whose container connected. Reassigning changes shares and states, and neither names
nor sockets.
-/

import ContainerScheduler.Host.Program

namespace ContainerScheduler.Analysis

open Host

/-! ## The setting of a call -/

/-- The machine, the policy with its queues and the finished containers are the
same. -/
structure SameSetting (before after : Scheduler) : Prop where
  cores : after.systemInfo.cores = before.systemInfo.cores
  schedulerContainer : after.schedulerContainer = before.schedulerContainer
  maxResourcesPerCont : after.maxResourcesPerCont = before.maxResourcesPerCont
  qFinishContainer : after.qFinishContainer = before.qFinishContainer

namespace SameSetting

theorem refl (scheduler : Scheduler) : SameSetting scheduler scheduler := ⟨rfl, rfl, rfl, rfl⟩

theorem trans {first second third : Scheduler} (hfirst : SameSetting first second)
    (hsecond : SameSetting second third) : SameSetting first third :=
  ⟨hsecond.cores.trans hfirst.cores,
    hsecond.schedulerContainer.trans hfirst.schedulerContainer,
    hsecond.maxResourcesPerCont.trans hfirst.maxResourcesPerCont,
    hsecond.qFinishContainer.trans hfirst.qFinishContainer⟩

end SameSetting

variable {scheduler : Scheduler} {request : Request} {port : ℕ} {env : RequestEnv}

theorem sameSetting_charge (scheduler : Scheduler) (amount : ℤ) :
    SameSetting scheduler (scheduler.charge amount) := ⟨rfl, rfl, rfl, rfl⟩

theorem sameSetting_freeResources (scheduler : Scheduler) (amount : ℤ) :
    SameSetting scheduler (scheduler.freeResources amount) := ⟨rfl, rfl, rfl, rfl⟩

theorem sameSetting_withList (scheduler : Scheduler) (infos : List ExecutionInfo) :
    SameSetting scheduler { scheduler with execInfoList := infos } := ⟨rfl, rfl, rfl, rfl⟩

theorem sameSetting_freeExceeded (scheduler : Scheduler) (applied available : ℤ) :
    SameSetting scheduler (freeExceeded scheduler applied available) := by
  unfold freeExceeded
  split
  · exact sameSetting_freeResources _ _
  · exact .refl _

theorem sameSetting_pausedBy (scheduler : Scheduler) (request : Request) :
    SameSetting scheduler (scheduler.pausedBy request) := by
  cases request <;> exact ⟨rfl, rfl, rfl, rfl⟩

theorem sameSetting_registerContainer (scheduler : Scheduler) (request : Request)
    (inter intra : ℤ) (port : ℕ) (socket : ClientSocket) :
    SameSetting scheduler (registerContainer scheduler request inter intra port socket) := by
  cases request <;> exact ⟨rfl, rfl, rfl, rfl⟩

theorem launchContainer_sameSetting (scheduler : Scheduler) (request : Request) (port : ℕ)
    (env : RequestEnv) (available : ℤ) :
    (launchContainer scheduler request port env available).All (SameSetting scheduler) := by
  unfold launchContainer
  split
  · exact .refl _
  · split
    · split
      · exact .refl _
      · split
        · trivial
        · exact sameSetting_freeExceeded _ _ _
        · exact (sameSetting_registerContainer _ _ _ _ _ _).trans (sameSetting_freeExceeded _ _ _)
    · exact .refl _

theorem serveListed_sameSetting (scheduler : Scheduler) (request : Request) (available : ℤ) :
    (serveListed scheduler request available).All (SameSetting scheduler) := by
  have hresume : ∀ requestId,
      (serveResume scheduler requestId available).All (SameSetting scheduler) := fun requestId =>
    (sameSetting_withList _ _).trans (sameSetting_freeExceeded _ _ _)
  cases request with
  | update requestId newInter newIntra priority =>
      simp only [serveListed]
      split
      · simp only [serveUpdate]
        split
        · exact sameSetting_withList _ _
        · exact (sameSetting_withList _ _).trans (sameSetting_freeExceeded _ _ _)
      · exact .refl _
  | _ =>
      simp only [serveListed]
      split
      · exact hresume _
      · exact .refl _

theorem scheduleRequest_sameSetting (scheduler : Scheduler) (request : Request) (port : ℕ)
    (env : RequestEnv) (available : ℤ) :
    (scheduleRequest scheduler request port env available).All (SameSetting scheduler) := by
  cases request with
  | start requestId image inter intra priority => exact launchContainer_sameSetting _ _ _ _ _
  | restart requestId name inter intra image priority => exact launchContainer_sameSetting _ _ _ _ _
  | _ => exact serveListed_sameSetting _ _ _

/-- Attending a request touches no queue. -/
theorem attempt_sameSetting (scheduler : Scheduler) (request : Request) (port : ℕ)
    (env : RequestEnv) : (attempt scheduler request port env).All (SameSetting scheduler) := by
  by_cases hzero : scheduler.reservation request = 0
  · rw [attempt_of_reservation_eq_zero hzero]
    exact sameSetting_pausedBy _ _
  · rw [attempt_of_reservation_ne_zero hzero]
    exact Answer.All.mono (scheduleRequest_sameSetting _ _ _ _ _) fun _ hsame =>
      ((sameSetting_pausedBy _ _).trans (sameSetting_charge _ _)).trans hsame

theorem attend_sameSetting (scheduler : Scheduler) (request : Request) (port : ℕ)
    (env : RequestEnv) : (attend scheduler request port env).All (SameSetting scheduler) := by
  have hattempt := attempt_sameSetting scheduler request port env
  unfold attend
  split
  next served hserved =>
      rw [hserved] at hattempt
      exact SameSetting.trans hattempt (sameSetting_freeResources _ _)
  · exact hattempt

theorem reassignFree_sameSetting {reassigned : Scheduler}
    (hdone : reassignFree scheduler = .ok reassigned ∨
      reassignFree scheduler = .error reassigned) : SameSetting scheduler reassigned := by
  obtain ⟨-, hend⟩ | ⟨-, -, hend⟩ | ⟨-, -, hend⟩ := reassignFree_cases scheduler
  · rw [hend] at hdone
    obtain hdone | hdone := hdone <;> cases hdone
    exact .refl _
  all_goals
    rw [hend] at hdone
    obtain hdone | hdone := hdone <;> cases hdone
    exact ⟨rfl, rfl, rfl, rfl⟩

/-! ## Clients of the listed containers -/

/-- A listed container and the container that opened the socket stored for it. -/
def client (info : ExecutionInfo) : String × String := (info.containerName, info.clientsocket.peer)

/-- The listed containers with their clients, in list order. -/
def clients (infos : List ExecutionInfo) : List (String × String) := infos.map client

/-- The names of the listed containers, in list order. -/
def containerNames (infos : List ExecutionInfo) : List String :=
  infos.map ExecutionInfo.containerName

@[simp]
theorem clients_cons (info : ExecutionInfo) (infos : List ExecutionInfo) :
    clients (info :: infos) = client info :: clients infos := rfl

theorem containerNames_eq (infos : List ExecutionInfo) :
    containerNames infos = (clients infos).map Prod.fst := by
  simp [containerNames, clients, client]

theorem mem_containerNames {name : String} {infos : List ExecutionInfo} :
    name ∈ containerNames infos ↔ ∃ info ∈ infos, info.containerName = name :=
  List.mem_map

@[simp]
theorem client_recordUpdate (info : ExecutionInfo) (inter intra : ℤ) :
    client (info.recordUpdate inter intra) = client info := rfl

@[simp]
theorem client_setState (info : ExecutionInfo) (state : ContainerState) :
    client (info.setState state) = client info := rfl

theorem clients_mapNamed (name : String) {change : ExecutionInfo → ExecutionInfo}
    (hchange : ∀ info, client (change info) = client info) (infos : List ExecutionInfo) :
    clients (mapNamed name change infos) = clients infos := by
  simp only [clients, mapNamed, List.map_map]
  refine List.map_congr_left fun info _ => ?_
  simp only [Function.comp_apply]
  split
  · exact hchange info
  · rfl

theorem clients_updateExecutionLoop {share : ℤ → ℤ → ℤ → Option (ℤ × ℤ)} {name : String}
    {newInter newIntra available : ℤ} (ok : Bool) (applied : ℤ) (infos : List ExecutionInfo) :
    clients (updateExecutionLoop share name newInter newIntra available ok applied
      infos).execInfoList = clients infos := by
  induction infos generalizing ok applied with
  | nil => rfl
  | cons info infos ih =>
      rw [updateExecutionLoop]
      split
      · split
        · simp [UpdateTrace.after, ih]
        · split
          · simp [UpdateTrace.after, ih]
          · split
            · rfl
            next updated hupdated =>
                obtain ⟨-, rfl⟩ := ExecutionInfo.updateParallelism_eq_some.mp hupdated
                simp [UpdateTrace.after, ih]
      · simp [UpdateTrace.after, ih]

theorem clients_resumeLoop {share : ℤ → ℤ → ℤ → Option (ℤ × ℤ)} {requestId : String}
    {available : ℤ} (applied : ℤ) (state : ℕ) (infos : List ExecutionInfo) :
    clients (resumeLoop share requestId available applied state infos).2.2 = clients infos := by
  induction infos generalizing applied state with
  | nil => rfl
  | cons info infos ih =>
      rw [resumeLoop]
      by_cases hnumber : info.containerNumber = requestId
      · cases hshare : share available info.interExecParallelism info.intraExecParallelism <;>
          simp [hnumber, ih, client, ExecutionInfo.resumeContainer, ExecutionInfo.setState,
            ExecutionInfo.setExecParallelism]
      · simp [hnumber, ih]

/-- The clients once a container has connected: a new one at the end, or the
restarted one with its new socket. -/
def registered (request : Request) (peer : String) (listed : List (String × String)) :
    List (String × String) :=
  match request with
  | .start requestId .. => listed ++ [(instanceName requestId, peer)]
  | request => listed.map fun other =>
      if other.1 = request.launchName then (other.1, peer) else other

/-- The clients after a request was attended: those before, unless its container
was accepted. -/
def ClientsAfter (before : Scheduler) (request : Request) (env : RequestEnv)
    (after : Scheduler) : Prop :=
  clients after.execInfoList = clients before.execInfoList ∨
    ∃ socket, acceptLoop acceptAttempts env.accepts = some (some socket) ∧
      clients after.execInfoList = registered request socket.peer (clients before.execInfoList)

theorem ClientsAfter.of_eq {before after : Scheduler}
    (heq : clients after.execInfoList = clients before.execInfoList) :
    ClientsAfter before request env after := .inl heq

theorem clients_registerContainer (scheduler : Scheduler) (request : Request) (inter intra : ℤ)
    (port : ℕ) (socket : ClientSocket) :
    clients (registerContainer scheduler request inter intra port socket).execInfoList =
      registered request socket.peer (clients scheduler.execInfoList) := by
  have hrestart : clients (mapNamed request.launchName
      (fun info => info.updateInfo inter intra port socket) scheduler.execInfoList) =
      (clients scheduler.execInfoList).map fun other =>
        if other.1 = request.launchName then (other.1, socket.peer) else other := by
    simp only [clients, mapNamed, List.map_map]
    refine List.map_congr_left fun info _ => ?_
    by_cases hname : info.containerName = request.launchName <;>
      simp [client, hname, ExecutionInfo.updateInfo]
  cases request with
  | start requestId image interUser intraUser priority =>
      simp [registerContainer, registered, clients, client]
  | _ => exact hrestart

theorem launchContainer_clients (scheduler : Scheduler) (request : Request) (port : ℕ)
    (env : RequestEnv) (available : ℤ) :
    (launchContainer scheduler request port env available).All
      (ClientsAfter scheduler request env) := by
  unfold launchContainer
  split
  · exact .of_eq rfl
  · split
    · split
      · exact .of_eq rfl
      · split
        · trivial
        · exact .of_eq (by rw [freeExceeded_execInfoList])
        next socket hsocket =>
            refine .inr ⟨socket, hsocket, ?_⟩
            rw [freeExceeded_execInfoList]
            exact clients_registerContainer scheduler request _ _ port socket
    · exact .of_eq rfl

theorem serveListed_clients (scheduler : Scheduler) (request : Request) (env : RequestEnv)
    (available : ℤ) :
    (serveListed scheduler request available).All (ClientsAfter scheduler request env) := by
  have hresume : ∀ requestId,
      (serveResume scheduler requestId available).All (ClientsAfter scheduler request env) :=
    fun requestId => .of_eq (by
      rw [freeExceeded_execInfoList]
      exact clients_resumeLoop _ _ _)
  cases request with
  | update requestId newInter newIntra priority =>
      simp only [serveListed]
      split
      · simp only [serveUpdate]
        split
        · exact .of_eq (clients_updateExecutionLoop _ _ _)
        · exact .of_eq (by
            rw [freeExceeded_execInfoList]
            exact clients_updateExecutionLoop _ _ _)
      · exact .of_eq rfl
  | _ =>
      simp only [serveListed]
      split
      · exact hresume _
      · exact .of_eq rfl

theorem clients_pausedBy (scheduler : Scheduler) (request : Request) :
    clients (scheduler.pausedBy request).execInfoList = clients scheduler.execInfoList := by
  cases request with
  | pause requestId =>
      simp only [Scheduler.pausedBy, clients, List.map_map]
      refine List.map_congr_left fun info _ => ?_
      simp only [Function.comp_apply]
      split <;> rfl
  | _ => rfl

/-- Attending a request keeps the clients, unless a container is accepted. -/
theorem attempt_clients (scheduler : Scheduler) (request : Request) (port : ℕ)
    (env : RequestEnv) :
    (attempt scheduler request port env).All (ClientsAfter scheduler request env) := by
  by_cases hzero : scheduler.reservation request = 0
  · rw [attempt_of_reservation_eq_zero hzero]
    exact .of_eq (clients_pausedBy _ _)
  · rw [attempt_of_reservation_ne_zero hzero]
    have hserved : (scheduleRequest
        ((scheduler.pausedBy request).charge (scheduler.reservation request)) request port env
        (scheduler.reservation request)).All
        (ClientsAfter ((scheduler.pausedBy request).charge (scheduler.reservation request))
          request env) := by
      cases request with
      | start requestId image inter intra priority => exact launchContainer_clients _ _ _ _ _
      | restart requestId name inter intra image priority =>
          exact launchContainer_clients _ _ _ _ _
      | _ => exact serveListed_clients _ _ _ _
    refine Answer.All.mono hserved fun after hafter => ?_
    simpa only [ClientsAfter, Scheduler.charge_execInfoList, clients_pausedBy] using hafter

/-- Reassigning keeps the clients. -/
theorem clients_reassignLoop {topUp : ℤ → ExecutionInfo → Option TopUp}
    {finish : ExecutionInfo → ExecutionInfo}
    (hfinish : ∀ info, client (finish info) = client info)
    (available : ℤ) (infos : List ExecutionInfo) :
    clients (reassignLoop topUp finish available infos).execInfoList = clients infos := by
  induction infos generalizing available with
  | nil => rfl
  | cons info infos ih =>
      have hvisit : ∀ remaining visited, visit topUp finish available info =
          some (remaining, visited) → client visited = client info := by
        intro remaining visited hvisited
        unfold visit at hvisited
        split at hvisited
        · cases hvisited
          rfl
        · obtain ⟨updated, hupdated, heq⟩ := Option.map_eq_some_iff.mp hvisited
          obtain ⟨-, rfl⟩ := ExecutionInfo.updateParallelism_eq_some.mp hupdated
          cases heq
          exact hfinish _
      rw [reassignLoop]
      split
      · split
        · rfl
        next remaining visited hvisited =>
            split
            · simp [hvisit _ _ hvisited]
            · simp [ReassignTrace.after, ih, hvisit _ _ hvisited]
      · simp [ReassignTrace.after, ih]

theorem clients_reassigment (scheduler : Scheduler) (available : ℤ) :
    clients (reassigment scheduler available).execInfoList = clients scheduler.execInfoList := by
  unfold reassigment
  split
  · unfold maxpropReassigment
    split
    next hnil => rw [hnil]
    · split
      · rfl
      · refine clients_reassignLoop ?_ _ _
        exact fun _ => rfl
  · unfold strictReassigment
    split
    · rfl
    · exact clients_reassignLoop (fun _ => rfl) _ _

end ContainerScheduler.Analysis
