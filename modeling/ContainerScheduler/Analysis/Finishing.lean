/-
# Whether the scheduler can finish

The attention thread ends when nothing is queued any more. When every container
has gone, a pending `Start` has the whole machine to itself, but a pending
`Update` or `Restart` has nothing left to act on.

So two things keep a request from being stuck: a `Start` asks for an amount that
the assignment policy serves out of a free machine, and no container exits while
a queued request still names it.
-/

import ContainerScheduler.Analysis.ClientSteps

namespace ContainerScheduler.Analysis

open Host Math

/-! ## Attending with all cores free -/

/-- Docker, the sockets and the memory check succeed. -/
structure Succeeds (env : RequestEnv) : Prop where
  memory : env.memoryBelowLimit = true
  docker : env.dockerStderr = false
  connects : ∃ socket, acceptLoop acceptAttempts env.accepts = some (some socket)

/-- The scheduler once every core is free. -/
def allFree (scheduler : Scheduler) : Scheduler :=
  { scheduler with systemInfo := { scheduler.systemInfo with coresUsed := 0 } }

/-- A pass with all cores free attends the request. -/
def AttendedWhenFree (scheduler : Scheduler) (request : Request) : Prop :=
  ∀ port env, Succeeds env →
    ∃ after, attend (allFree scheduler) request port env = .returned 1 after

@[simp]
theorem checkResources_allFree (scheduler : Scheduler) :
    (allFree scheduler).checkResources = scheduler.systemInfo.cores := by
  simp [allFree, Scheduler.checkResources, SystemInfo.checkResources]

section Launch

variable {scheduler : Scheduler} {requestId image : String} {inter intra priority : ℤ}
  {port : ℕ} {env : RequestEnv}

/-- When nothing goes wrong, a `Start` is attended exactly when something is
reserved for it and it gets a share out of that. -/
theorem attend_start_iff (henv : Succeeds env) :
    (∃ after, attend scheduler (.start requestId image inter intra priority) port env =
        .returned 1 after) ↔
      scheduler.reservation (.start requestId image inter intra priority) ≠ 0 ∧
        (scheduler.share (scheduler.reservation (.start requestId image inter intra priority))
          inter intra).isSome := by
  obtain ⟨socket, hsocket⟩ := henv.connects
  by_cases hzero : scheduler.reservation (.start requestId image inter intra priority) = 0
  · simp [attend, attempt_of_reservation_eq_zero hzero, hzero]
  · cases hshare : scheduler.share
        (scheduler.reservation (.start requestId image inter intra priority)) inter intra <;>
      simp [attend, attempt_of_reservation_ne_zero hzero, scheduleRequest, launchContainer,
        Request.getInterParallelism, Request.getIntraParallelism, Scheduler.pausedBy, hshare,
        henv.memory, henv.docker, hsocket, hzero]

/-- The amounts that the assignment policy serves out of a free machine. -/
def ServedAmount (reassigmentType : ReassigmentType) (cores total : ℤ) : Prop :=
  match reassigmentType with
  | .strict => total ≠ 0
  | .maxProp => 0 < total ∧ 2 ≤ cores
  | .alwaysAttend => 2 ≤ total

instance (reassigmentType : ReassigmentType) (cores total : ℤ) :
    Decidable (ServedAmount reassigmentType cores total) := by
  unfold ServedAmount
  cases reassigmentType <;> infer_instance

theorem maxPropParallelism_isSome {factorProp : ℚ} {maxResources available intra : ℤ}
    (havailable : 2 ≤ available) :
    (maxPropParallelism factorProp maxResources available intra).isSome := by
  unfold maxPropParallelism
  obtain heq | hlt := havailable.eq_or_lt
  · simp [← heq]
  · simp [hlt]

theorem reservedAmount_of_fits {reassigmentType : ReassigmentType} {total available : ℤ}
    (htype : reassigmentType ≠ .maxProp) (hfits : total ≤ available) :
    reservedAmount reassigmentType total available = total := by
  unfold reservedAmount
  by_cases hpositive : 0 < total <;> simp [hpositive, hfits, htype]

/-- A `Start` of such an amount that fits the machine is attended. -/
theorem start_attendedWhenFree
    (hserved : ServedAmount scheduler.schedulerContainer.reassigmentType
      scheduler.systemInfo.cores (inter + intra))
    (hfits : inter + intra ≤ scheduler.systemInfo.cores) :
    AttendedWhenFree scheduler (.start requestId image inter intra priority) := by
  intro port env henv
  have htotal : (Request.start requestId image inter intra priority).requestedResources
      (allFree scheduler).execInfoList = inter + intra := rfl
  have hreservation : (allFree scheduler).reservation
      (.start requestId image inter intra priority) =
        reservedAmount scheduler.schedulerContainer.reassigmentType (inter + intra)
          scheduler.systemInfo.cores := by
    rw [Scheduler.reservation, htotal, checkResources_allFree]
    rfl
  have hshareEq : (allFree scheduler).share =
      scheduleParallelism scheduler.schedulerContainer.reassigmentType
        scheduler.schedulerContainer.factorProp scheduler.maxResourcesPerCont := rfl
  suffices hgoal : reservedAmount scheduler.schedulerContainer.reassigmentType (inter + intra)
      scheduler.systemInfo.cores ≠ 0 ∧
      ((allFree scheduler).share (reservedAmount scheduler.schedulerContainer.reassigmentType
        (inter + intra) scheduler.systemInfo.cores) inter intra).isSome by
    rw [← hreservation] at hgoal
    exact (attend_start_iff henv).mpr hgoal
  rw [hshareEq]
  cases htype : scheduler.schedulerContainer.reassigmentType with
  | strict =>
      simp only [ServedAmount, htype] at hserved
      rw [reservedAmount_of_fits (by decide) hfits]
      refine ⟨hserved, ?_⟩
      simp only [scheduleParallelism, strictParallelism, le_refl, if_true]
      split <;> rfl
  | maxProp =>
      simp only [ServedAmount, htype] at hserved
      obtain ⟨hpositive, hcores⟩ := hserved
      have hreserved : reservedAmount .maxProp (inter + intra) scheduler.systemInfo.cores =
          scheduler.systemInfo.cores := by
        simp [reservedAmount, hpositive, hfits]
      rw [hreserved]
      exact ⟨by omega, maxPropParallelism_isSome hcores⟩
  | alwaysAttend =>
      simp only [ServedAmount, htype] at hserved
      rw [reservedAmount_of_fits (by decide) hfits]
      refine ⟨by omega, ?_⟩
      simp [scheduleParallelism, alwaysAttendParallelism, hserved]

end Launch

/-! ## Requests that are not stuck -/

/-- The container that an `Update` or a `Restart` names. -/
def target : Request → Option String
  | .update requestId .. => some (instanceName requestId)
  | .restart _ containerName .. => some containerName
  | _ => none

/-- A `Start` asks for an amount that is served out of a free machine, and an
`Update` or a `Restart` names a listed container. -/
def NotStuck (scheduler : Scheduler) (request : Request) : Prop :=
  match request with
  | .start _ _ inter intra _ =>
      ServedAmount scheduler.schedulerContainer.reassigmentType scheduler.systemInfo.cores
        (inter + intra)
  | request => ∃ name ∈ target request, name ∈ containerNames scheduler.execInfoList

instance (scheduler : Scheduler) : ∀ request, Decidable (NotStuck scheduler request)
  | .start _ _ inter intra _ =>
      inferInstanceAs (Decidable (ServedAmount scheduler.schedulerContainer.reassigmentType
        scheduler.systemInfo.cores (inter + intra)))
  | .update requestId .. => inferInstanceAs (Decidable (∃ name ∈ some (instanceName requestId),
      name ∈ containerNames scheduler.execInfoList))
  | .restart _ containerName .. => inferInstanceAs (Decidable (∃ name ∈ some containerName,
      name ∈ containerNames scheduler.execInfoList))
  | .resume _ | .pause _ => inferInstanceAs (Decidable (∃ name ∈ (none : Option String),
      name ∈ containerNames scheduler.execInfoList))

/-- The condition on a step: what is queued is not stuck, unless it asks for more
than the machine has and will be discarded; and no container exits that a queued
request names. -/
def FinishStepOk (world : World) : Action → Prop
  | .enqueue request =>
      exceedsMachine world.scheduler request = false → NotStuck world.scheduler request
  | .exit name =>
      (∀ request ∈ newOf world, exceedsMachine world.scheduler request = false →
        target request ≠ some name) ∧ ∀ request ∈ pendingOf world, target request ≠ some name
  | _ => True

instance (world : World) (action : Action) : Decidable (FinishStepOk world action) := by
  unfold FinishStepOk
  cases action <;> infer_instance

/-- Every queued request that will not be discarded is not stuck. -/
structure NoneStuck (world : World) : Prop where
  new : ∀ request ∈ newOf world, exceedsMachine world.scheduler request = false →
    NotStuck world.scheduler request
  pending : ∀ request ∈ pendingOf world,
    exceedsMachine world.scheduler request = false ∧ NotStuck world.scheduler request

section Steps

variable {world after : World} {action : Action} {request : Request}

theorem exceedsMachine_of_step (hstep : world.step action = some after) (request : Request) :
    exceedsMachine after.scheduler request = exceedsMachine world.scheduler request := by
  unfold exceedsMachine SystemInfo.totalCores
  rw [(sameProgram_of_step hstep).cores]

/-- Only an exit takes a name off the list. -/
theorem name_of_step {name : String} (hstep : world.step action = some after)
    (hname : name ∈ containerNames world.scheduler.execInfoList)
    (hexit : action ≠ .exit name) : name ∈ containerNames after.scheduler.execInfoList := by
  rw [containerNames_eq] at hname ⊢
  obtain ⟨other, hmem, rfl⟩ := List.mem_map.mp hname
  obtain hsame | ⟨gone, rfl, herased⟩ | ⟨_, request, socket, -, -, hregistered⟩ :=
    clients_of_step hstep
  · rw [clientsOf, clientsOf] at hsame
    rw [hsame]
    exact hname
  · have hne : other.1 ≠ gone := fun heq => hexit (by rw [heq])
    rw [clientsOf, clientsOf] at herased
    rw [herased]
    exact List.mem_map_of_mem ((List.mem_eraseP_of_neg (by simpa using hne)).mpr hmem)
  · rw [clientsOf, clientsOf] at hregistered
    rw [hregistered]
    cases request with
    | start requestId image inter intra priority =>
        exact List.mem_map_of_mem (List.mem_append_left _ hmem)
    | _ =>
        refine List.mem_map.mpr ⟨_, List.mem_map_of_mem hmem, ?_⟩
        split <;> rfl

/-- A request stays as it is unless the container it names exits. -/
theorem notStuck_of_step (hstep : world.step action = some after)
    (hexit : ∀ name, action = .exit name → target request ≠ some name)
    (hnotStuck : NotStuck world.scheduler request) : NotStuck after.scheduler request := by
  have hsame := sameProgram_of_step hstep
  have htarget : (∃ name ∈ target request, name ∈ containerNames world.scheduler.execInfoList) →
      ∃ name ∈ target request, name ∈ containerNames after.scheduler.execInfoList := by
    rintro ⟨name, hname, hlisted⟩
    exact ⟨name, hname, name_of_step hstep hlisted fun haction => hexit name haction hname⟩
  cases request with
  | start requestId image inter intra priority =>
      simp only [NotStuck, hsame.reassigmentType, hsame.cores]
      exact hnotStuck
  | _ => exact htarget hnotStuck

theorem noneStuck_of_step (hinv : NoneStuck world) (hok : FinishStepOk world action)
    (hstep : world.step action = some after) : NoneStuck after := by
  have hnewExit : ∀ request ∈ newOf world, exceedsMachine world.scheduler request = false →
      ∀ name, action = .exit name → target request ≠ some name := by
    rintro request hmem hfits name rfl
    exact hok.1 request hmem hfits
  have hpendingExit : ∀ request ∈ pendingOf world, ∀ name, action = .exit name →
      target request ≠ some name := by
    rintro request hmem name rfl
    exact hok.2 request hmem
  constructor
  · intro request hmem hfits
    rw [exceedsMachine_of_step hstep] at hfits
    obtain hold |
        ⟨⟨haction, -⟩ | ⟨number, name, priority, haction, info, hlisted, hname, rfl⟩, -⟩ :=
      new_of_step hstep hmem
    · exact notStuck_of_step hstep (hnewExit request hold hfits) (hinv.new request hold hfits)
    · subst haction
      refine notStuck_of_step hstep (fun name hexit => ?_) (hok hfits)
      cases hexit
    · subst haction
      refine notStuck_of_step hstep (fun name hexit => ?_) ?_
      · cases hexit
      · exact ⟨name, rfl, mem_containerNames.mpr ⟨info, hlisted, hname⟩⟩
  · intro request hmem
    rw [exceedsMachine_of_step hstep]
    obtain hold | ⟨hold, hfits⟩ := pending_of_step hstep hmem
    · obtain ⟨hfits, hnotStuck⟩ := hinv.pending request hold
      exact ⟨hfits, notStuck_of_step hstep (hpendingExit request hold) hnotStuck⟩
    · exact ⟨hfits, notStuck_of_step hstep (hnewExit request hold hfits)
        (hinv.new request hold hfits)⟩

end Steps

/-! ## Whole runs -/

/-- The generator has ended, no request is new, and every container has exited and
was removed. -/
def AllGone (world : World) : Prop :=
  world.creationRequestsTerminate = true ∧ newOf world = [] ∧
    world.scheduler.execInfoList = [] ∧ world.scheduler.containerNameList = []

instance (world : World) : Decidable (AllGone world) := by
  unfold AllGone
  infer_instance

section Runs

variable {cores maxResourcesPerCont : ℤ} {policyClass : PolicyClass}
  {reassigmentType : ReassigmentType}

theorem noneStuck_of_reaches {world : World}
    (hreached : (program cores maxResourcesPerCont policyClass reassigmentType).Reaches
      FinishStepOk world) : NoneStuck world := by
  refine hreached.invariant (P := NoneStuck) ?_ ?_
  · constructor <;> simp [newOf, pendingOf, program, Scheduler.init, SchedulingPolicy.init,
      SchedulingPolicy.newRequests, SchedulingPolicy.pendingRequests]
  · exact fun source action target _ hsource hok hstep => noneStuck_of_step hsource hok hstep

/-- **The scheduler can finish.** Once everything has gone, a pass with all cores
free attends every request that is still pending. -/
theorem pending_attended_of_reaches {world : World}
    (hreached : (program cores maxResourcesPerCont policyClass reassigmentType).Reaches
      FinishStepOk world) (hgone : AllGone world) :
    ∀ request ∈ pendingOf world, AttendedWhenFree world.scheduler request := by
  intro request hmem
  obtain ⟨-, -, hnone, -⟩ := hgone
  obtain ⟨hfits, hnotStuck⟩ := (noneStuck_of_reaches hreached).pending request hmem
  have hunlisted : ¬ ∃ name ∈ target request,
      name ∈ containerNames world.scheduler.execInfoList := by
    simp [hnone, containerNames]
  cases request with
  | start requestId image inter intra priority =>
      exact start_attendedWhenFree hnotStuck (not_lt.mp (of_decide_eq_false hfits))
  | _ => exact absurd hnotStuck hunlisted

/-- A launch waits for two containers to exit, and can then be served. -/
theorem waiting_start_attended : ∃ world : World,
    pendingOf world = [.start "2" "tf" 1 5 0] ∧ AllGone world ∧
      ∀ request ∈ pendingOf world, AttendedWhenFree world.scheduler request := by
  have hrun : ∃ world, (program 8 16 .fcfs .strict).Reaches FinishStepOk world ∧
      decide (pendingOf world = [.start "2" "tf" 1 5 0] ∧ AllGone world) = true :=
    Machine.exists_reaches
      [.enqueue (.start "0" "tf" 1 3 0),
        .attendNew ⟨true, false, [.connected ⟨"instance0", false⟩]⟩,
        .enqueue (.start "1" "tf" 1 2 0),
        .attendNew ⟨true, false, [.connected ⟨"instance1", false⟩]⟩,
        .enqueue (.start "2" "tf" 1 5 0), .attendNew ⟨true, false, []⟩,
        .terminate, .exit "instance0", .free, .exit "instance1", .free]
      (by decide +kernel) (by decide +kernel)
  obtain ⟨world, hreached, hworld⟩ := hrun
  obtain ⟨hpending, hgone⟩ := of_decide_eq_true hworld
  exact ⟨world, hpending, hgone, pending_attended_of_reaches hreached hgone⟩

/-- A deferred update is overtaken by the exit of its container. -/
theorem overtaken_update_stuck :
    ¬ ∀ (cores maxResourcesPerCont : ℤ) (policyClass : PolicyClass)
      (reassigmentType : ReassigmentType) (world : World),
      (program cores maxResourcesPerCont policyClass reassigmentType).Reaches
        Machine.Unguarded world → AllGone world →
      ∀ request ∈ pendingOf world, AttendedWhenFree world.scheduler request := by
  intro hclaim
  have hrun : ∃ world, (program 8 16 .fcfs .strict).Reaches Machine.Unguarded world ∧
      decide (AllGone world ∧ pendingOf world = [.update "0" 1 5 0] ∧
        attend (allFree world.scheduler) (.update "0" 1 5 0) 8787
          ⟨true, false, [.connected ⟨"instance0", false⟩]⟩ =
            .returned 0 (allFree world.scheduler)) = true :=
    Machine.exists_reaches_unguarded
      [.enqueue (.start "0" "tf" 1 3 0),
        .attendNew ⟨true, false, [.connected ⟨"instance0", false⟩]⟩,
        .enqueue (.start "1" "tf" 1 2 0),
        .attendNew ⟨true, false, [.connected ⟨"instance1", false⟩]⟩,
        .enqueue (.update "0" 1 5 0), .attendNew ⟨true, false, []⟩,
        .terminate, .exit "instance0", .free, .exit "instance1", .free]
      (by decide +kernel)
  obtain ⟨world, hreached, hworld⟩ := hrun
  obtain ⟨hgone, hpending, hrefused⟩ := of_decide_eq_true hworld
  have hattended := hclaim _ _ _ _ world hreached hgone (.update "0" 1 5 0) (by simp [hpending])
  obtain ⟨after, hafter⟩ := hattended 8787 ⟨true, false, [.connected ⟨"instance0", false⟩]⟩
    ⟨rfl, rfl, _, rfl⟩
  rw [hrefused] at hafter
  cases hafter

end Runs

end ContainerScheduler.Analysis
