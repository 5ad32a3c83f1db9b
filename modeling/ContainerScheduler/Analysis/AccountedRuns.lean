/-
# The books over whole runs

Every step that meets its condition keeps the books in order, so they are in
order in every state that a run of such steps reaches, under each assignment
policy and in any order of steps.
-/

import ContainerScheduler.Analysis.ReassignAccounting

namespace ContainerScheduler.Analysis

open Host Math

/-- Of the containers of one name there is at most one, and it holds its share. -/
def SoleActive : List ExecutionInfo → Prop
  | [] => True
  | [info] => info.Active
  | _ => False

instance : ∀ infos, Decidable (SoleActive infos)
  | [] => inferInstanceAs (Decidable True)
  | [info] => inferInstanceAs (Decidable info.Active)
  | _ :: _ :: _ => inferInstanceAs (Decidable False)

/-- The condition under which a step keeps the books in order, on the state
before it and on what the environment answers. -/
def StepOk (world : World) : Action → Prop
  | .attendNew env =>
      ∀ popped ∈ world.scheduler.schedulerContainer.getNewRequest,
        AttendanceOk world.scheduler popped.1 env
  | .attendPending env =>
      ∀ popped ∈ world.scheduler.schedulerContainer.getPendingRequest,
        AttendanceOk world.scheduler popped.1 env
  | .reassign => ReassignOk world.scheduler
  -- the container that exits holds the share that is left to be freed
  | .exit containerName =>
      ∀ info ∈ world.scheduler.execInfoList.find?
        (fun info => info.containerName = containerName), info.Active
  -- so does the container that fails, the only one of its name
  | .fail _ containerName _ =>
      SoleActive (named containerName world.scheduler.execInfoList)
  | .enqueue _ | .terminate | .measure | .free | .disconnect _ => True

instance (world : World) : ∀ action, Decidable (StepOk world action)
  | .attendNew env =>
      inferInstanceAs (Decidable (∀ popped ∈ world.scheduler.schedulerContainer.getNewRequest,
        AttendanceOk world.scheduler popped.1 env))
  | .attendPending env =>
      inferInstanceAs (Decidable (∀ popped ∈ world.scheduler.schedulerContainer.getPendingRequest,
        AttendanceOk world.scheduler popped.1 env))
  | .reassign => inferInstanceAs (Decidable (ReassignOk world.scheduler))
  | .exit containerName =>
      inferInstanceAs (Decidable (∀ info ∈ world.scheduler.execInfoList.find?
        (fun info => info.containerName = containerName), info.Active))
  | .fail _ containerName _ =>
      inferInstanceAs (Decidable (SoleActive (named containerName world.scheduler.execInfoList)))
  | .enqueue _ | .terminate | .measure | .free | .disconnect _ =>
      inferInstanceAs (Decidable True)

/-! ## Steps that attend a request -/

/-- The queues and the factor matter for an attendance only through the share. -/
theorem attendanceOk_withPolicy {scheduler : Scheduler} {policy : SchedulingPolicy}
    {request : Request} {env : RequestEnv}
    (htype : policy.reassigmentType = scheduler.schedulerContainer.reassigmentType)
    (hfactor : policy.factorProp = scheduler.schedulerContainer.factorProp) :
    AttendanceOk (scheduler.withPolicy policy) request env ↔
      AttendanceOk scheduler request env := by
  have hreservation : (scheduler.withPolicy policy).reservation request =
      scheduler.reservation request := by
    simp [Scheduler.reservation, htype, Scheduler.checkResources]
  have hshare : (scheduler.withPolicy policy).share = scheduler.share := by
    funext available inter intra
    simp [Scheduler.share, htype, hfactor, Scheduler.withPolicy]
  simp only [AttendanceOk, hreservation, LaunchOk, UpdateOk, hshare,
    Scheduler.withPolicy_execInfoList]

/-- A request whose priority has a queue can be postponed, at no cost. -/
theorem exists_postpone {scheduler served : Scheduler} {request : Request}
    (hplaced : Placed scheduler request) (hsame : SameSetting scheduler served) :
    ∃ kept, postpone served request = some kept ∧ imbalance kept = imbalance served := by
  rw [Placed, ← hsame.schedulerContainer] at hplaced
  obtain ⟨index, hindex⟩ := hplaced
  exact ⟨_, postpone_eq_some.mpr
    ⟨_, SchedulingPolicy.addPendingQueueRequest_eq_some.mpr ⟨index, hindex, rfl⟩, rfl⟩, rfl⟩

section Attendance

variable {scheduler : Scheduler} {request : Request} {env : RequestEnv}

/-- The release after a refusal puts the books in order, and so does the share of
a served request. -/
theorem attend_accounted (haccounted : Accounted scheduler) (hcharges : ChargesCores request)
    (hok : AttendanceOk scheduler request env) (port : ℕ) :
    (attend scheduler request port env).All Accounted := by
  have hbalanced := attempt_balanced hcharges hok port
  rw [accounted_iff] at haccounted
  unfold attend
  cases hanswer : attempt scheduler request port env with
  | waiting => trivial
  | exited served =>
      rw [hanswer] at hbalanced
      exact hbalanced.elim
  | returned state served =>
      rw [hanswer] at hbalanced
      cases state with
      | zero =>
          simp only [Balanced, imbalance_charge, haccounted] at hbalanced
          simp only [Answer.All, accounted_iff, imbalance_freeResources]
          omega
      | succ state =>
          simp only [Balanced, imbalance_charge, haccounted] at hbalanced
          simp only [Answer.All, accounted_iff]
          omega

theorem serveNew_accounted (haccounted : Accounted scheduler) (hcharges : ChargesCores request)
    (hplaced : Placed scheduler request) (hok : AttendanceOk scheduler request env) (port : ℕ) :
    (serveNew scheduler request port env).All Accounted := by
  have hbalanced := attempt_balanced hcharges hok port
  have hsame := attempt_sameSetting scheduler request port env
  rw [accounted_iff] at haccounted
  rw [serveNew_eq fun requestId heq => by subst heq; exact hcharges]
  cases hanswer : attempt scheduler request port env with
  | waiting => trivial
  | exited served =>
      rw [hanswer] at hbalanced
      exact hbalanced.elim
  | returned state served =>
      rw [hanswer] at hbalanced hsame
      cases state with
      | zero =>
          have hkept : ∃ kept, keepOrDiscard served request = some kept ∧
              imbalance kept = imbalance served := by
            unfold keepOrDiscard
            split
            · exact ⟨served, rfl, rfl⟩
            · exact exists_postpone hplaced hsame
          obtain ⟨kept, hkept, hkeptBalance⟩ := hkept
          simp only [Balanced, imbalance_charge, haccounted] at hbalanced
          simp only [hkept, Answer.All, accounted_iff, imbalance_freeResources]
          omega
      | succ state =>
          simp only [Balanced, imbalance_charge, haccounted] at hbalanced
          simp only [Answer.All, accounted_iff]
          omega

end Attendance

theorem getNewRequest_frame {policy after : SchedulingPolicy} {request : Request}
    (hget : policy.getNewRequest = some (request, after)) :
    after.reassigmentType = policy.reassigmentType ∧ after.factorProp = policy.factorProp := by
  obtain ⟨array, -, rfl⟩ := SchedulingPolicy.getNewRequest_eq_some.mp hget
  exact ⟨rfl, rfl⟩

theorem getPendingRequest_frame {policy after : SchedulingPolicy} {request : Request}
    (hget : policy.getPendingRequest = some (request, after)) :
    after.reassigmentType = policy.reassigmentType ∧ after.factorProp = policy.factorProp := by
  obtain ⟨array, -, rfl⟩ := SchedulingPolicy.getPendingRequest_eq_some.mp hget
  exact ⟨rfl, rfl⟩

variable {world after : World}

theorem placed_withPolicy {request : Request} {policy : SchedulingPolicy}
    (hplaced : Placed world.scheduler request)
    (hsame : SameProgram world.scheduler (world.scheduler.withPolicy policy)) :
    Placed (world.scheduler.withPolicy policy) request := by
  rw [Placed, hsame.policyClass]
  exact hplaced

theorem attendNew_accounted {env : RequestEnv} (haccounted : Accounted world.scheduler)
    (hqueued : ∀ request ∈ newOf world, ChargesCores request ∧ Placed world.scheduler request)
    (hok : StepOk world (.attendNew env)) (hstep : world.attendNew env = some after) :
    Accounted after.scheduler := by
  obtain ⟨⟨request, policy⟩, hget, hserve⟩ := Option.bind_eq_some_iff.mp hstep
  have hfirst : request ∈ newOf world := by
    rw [newOf, (SchedulingPolicy.queued_of_getNewRequest hget).1]
    exact List.mem_cons_self
  obtain ⟨hcharges, hplaced⟩ := hqueued request hfirst
  obtain ⟨htype, hfactor⟩ := getNewRequest_frame hget
  have hattend := (attendanceOk_withPolicy htype hfactor).mpr (hok (request, policy) hget)
  have hbooks : Accounted (world.scheduler.withPolicy policy) := haccounted
  have hpolicy := placed_withPolicy hplaced (sameProgram_getNewRequest hget)
  have hall := serveNew_accounted hbooks hcharges hpolicy hattend world.portHost
  simp only at hserve
  split at hserve <;> exact afterAnswer_of_all hall hserve

theorem attendPending_accounted {env : RequestEnv} (haccounted : Accounted world.scheduler)
    (hqueued : ∀ request ∈ pendingOf world, ChargesCores request ∧ Placed world.scheduler request)
    (hok : StepOk world (.attendPending env)) (hstep : world.attendPending env = some after) :
    Accounted after.scheduler := by
  obtain ⟨⟨request, policy⟩, hget, hserve⟩ := Option.bind_eq_some_iff.mp hstep
  have hfirst : request ∈ pendingOf world := by
    rw [pendingOf, (SchedulingPolicy.queued_of_getPendingRequest hget).2]
    exact List.mem_cons_self
  obtain ⟨hcharges, hplaced⟩ := hqueued request hfirst
  obtain ⟨htype, hfactor⟩ := getPendingRequest_frame hget
  have hattend := (attendanceOk_withPolicy htype hfactor).mpr (hok (request, policy) hget)
  have hbooks : Accounted (world.scheduler.withPolicy policy) := haccounted
  have hall := attend_accounted hbooks hcharges hattend world.portHost
  simp only at hserve
  split at hserve
  next served hanswer =>
      rw [hanswer] at hall
      split at hserve
      · obtain rfl := Option.some.inj hserve
        exact hall
      next kept hkept =>
          obtain rfl := Option.some.inj hserve
          obtain ⟨other, -, rfl⟩ := postpone_eq_some.mp hkept
          exact hall
  · exact afterAnswer_of_all hall hserve

/-! ## The other steps -/

/-- A reassignment in order ends, with the books in order. -/
theorem reassign_accounted (haccounted : Accounted world.scheduler)
    (hok : ReassignOk world.scheduler) : Accounted world.reassign.scheduler := by
  rw [accounted_iff] at haccounted
  unfold World.reassign
  obtain ⟨-, hend⟩ | ⟨hfree, hexited, -⟩ | ⟨hfree, -, hend⟩ := reassignFree_cases world.scheduler
  · rw [hend]
    exact accounted_iff.mpr haccounted
  · have hended := (reassigment_conserves hfree hok).1
    rw [hexited] at hended
    cases hended
  · obtain ⟨-, hrest, htotal⟩ := reassigment_conserves hfree hok
    rw [hend]
    simp only [accounted_iff]
    rw [imbalance_withList, imbalance_charge, Scheduler.charge_execInfoList, haccounted,
      max_eq_left hrest]
    omega

theorem measure_accounted (haccounted : Accounted world.scheduler) :
    Accounted world.measure.scheduler := by
  unfold World.measure
  split
  next measured hmeasure =>
      obtain ⟨factor, rfl⟩ := measureStage_frame hmeasure
      exact haccounted
  · exact haccounted

/-- Freeing a finished share moves it from one side of the books to the other. -/
theorem freeFinished_accounted {scheduler freed : Scheduler} (haccounted : Accounted scheduler)
    (hfreed : freeFinished scheduler = some freed) : Accounted freed := by
  unfold freeFinished at hfreed
  split at hfreed
  · cases hfreed
  next amount name finished hfinished =>
      obtain rfl := Option.some.inj hfreed
      simp only [Accounted, finishedCores, hfinished, List.map_cons, List.sum_cons,
        Scheduler.freeResources, SystemInfo.freeResources_coresUsed] at haccounted ⊢
      omega

/-- A container that holds its share leaves exactly that share to be freed. -/
theorem removeContainer_accounted {scheduler : Scheduler} {name : String}
    (haccounted : Accounted scheduler)
    (hactive : ∀ info, scheduler.execInfoList.find? (fun info => info.containerName = name) =
      some info → info.Active) : Accounted (removeContainer scheduler name).2 := by
  unfold removeContainer
  split
  · exact haccounted
  next info hfind =>
      have hheld := ExecutionInfo.heldCores_of_active (hactive info hfind)
      simp only [Accounted, finishedCores, List.map_append, List.map_cons, List.map_nil,
        List.sum_append, List.sum_cons, List.sum_nil] at haccounted ⊢
      rw [activeCores_eraseP_of_find hfind, hheld]
      omega

theorem containerFailedAttention_accounted {scheduler : Scheduler} {name : String}
    (haccounted : Accounted scheduler)
    (hsole : SoleActive (named name scheduler.execInfoList))
    (number : String) (priority : ℤ) :
    Accounted (containerFailedAttention scheduler number name priority) := by
  rw [accounted_iff] at haccounted ⊢
  unfold containerFailedAttention
  unfold SoleActive at hsole
  split at hsole
  next hnone => simpa [hnone] using haccounted
  next info hinfo =>
    have hfreed : imbalance (Scheduler.freeResources
        { scheduler with
          execInfoList := mapNamed name (fun info => info.setState .failed)
            scheduler.execInfoList }
        info.execParallelism) = 0 := by
      rw [imbalance_freeResources, imbalance_withList, activeCores_mapNamed_of_sole hinfo,
        ExecutionInfo.heldCores_setState_failed, ExecutionInfo.heldCores_of_active hsole]
      omega
    simp only [hinfo, List.getLast?_singleton]
    split
    · exact hfreed
    · exact hfreed
  · exact hsole.elim

theorem disconnect_accounted {scheduler : Scheduler} (haccounted : Accounted scheduler)
    (name : String) :
    Accounted { scheduler with
      execInfoList := mapNamed name ExecutionInfo.disconnect scheduler.execInfoList } := by
  have hheld : activeCores (mapNamed name ExecutionInfo.disconnect scheduler.execInfoList) =
      activeCores scheduler.execInfoList := by
    simp only [activeCores, mapNamed, List.map_map]
    refine congrArg List.sum (List.map_congr_left fun info _ => ?_)
    simp only [Function.comp_apply]
    split <;> rfl
  rw [accounted_iff] at haccounted ⊢
  rw [imbalance_withList, hheld, haccounted, sub_self, add_zero]

/-! ## Runs -/

/-- **One step.** A step that meets its condition keeps the books in order. -/
theorem step_accounted {action : Action} (haccounted : Accounted world.scheduler)
    (hqueued : ∀ request, request ∈ newOf world ∨ request ∈ pendingOf world →
      ChargesCores request ∧ Placed world.scheduler request)
    (hok : StepOk world action) (hstep : world.step action = some after) :
    Accounted after.scheduler := by
  cases action with
  | enqueue queued =>
      simp only [World.step, Option.ite_none_left_eq_some] at hstep
      obtain ⟨-, policy, -, rfl⟩ := enqueue_eq hstep.2
      exact haccounted
  | attendNew env =>
      simp only [World.step, Option.ite_none_left_eq_some] at hstep
      exact attendNew_accounted haccounted (fun request hmem => hqueued request (.inl hmem)) hok
        hstep.2
  | attendPending env =>
      simp only [World.step, Option.ite_none_left_eq_some] at hstep
      exact attendPending_accounted haccounted (fun request hmem => hqueued request (.inr hmem))
        hok hstep.2
  | reassign =>
      simp only [World.step, Option.ite_none_left_eq_some, Option.some.injEq] at hstep
      obtain ⟨-, rfl⟩ := hstep
      exact reassign_accounted haccounted hok
  | measure =>
      simp only [World.step, Option.ite_none_left_eq_some, Option.some.injEq] at hstep
      obtain ⟨-, rfl⟩ := hstep
      exact measure_accounted haccounted
  | free =>
      simp only [World.step, Option.ite_none_left_eq_some, Option.map_eq_some_iff] at hstep
      obtain ⟨-, freed, hfreed, rfl⟩ := hstep
      exact freeFinished_accounted haccounted hfreed
  | exit name =>
      obtain rfl := Option.some.inj hstep
      exact removeContainer_accounted haccounted hok
  | fail number name priority =>
      obtain rfl := Option.some.inj hstep
      exact containerFailedAttention_accounted haccounted hok number priority
  | terminate =>
      obtain rfl := Option.some.inj hstep
      exact haccounted
  | disconnect name =>
      obtain rfl := Option.some.inj hstep
      exact disconnect_accounted haccounted name

section Runs

/-- Eight cores, first come first served. -/
def smallProgram (reassigmentType : ReassigmentType) : Machine World Action :=
  program 8 16 .fcfs reassigmentType

/-- The environment of a launch that succeeds. -/
def connects (name : String) : RequestEnv := ⟨true, false, [.connected ⟨name, false⟩]⟩

end Runs

end ContainerScheduler.Analysis
