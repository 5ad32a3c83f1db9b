/-
# What a step does to the queues

Requests enter the queues through the generator and through failed containers.
The attention thread takes them out, and puts back the ones it cannot serve.
Other steps leave the queues alone. The invariants over the queues are derived
from these three facts.
-/

import ContainerScheduler.Analysis.Frames

namespace ContainerScheduler.Analysis

open Host Math

/-! ## Serving one request -/

/-- A new request that was taken out of its queue goes to the pending ones, or
nowhere. -/
def KeptOrGone (before : Scheduler) (request : Request) (after : Scheduler) : Prop :=
  after.schedulerContainer.newRequests = before.schedulerContainer.newRequests ∧
    (after.schedulerContainer.pendingRequests = before.schedulerContainer.pendingRequests ∨
      exceedsMachine before request = false ∧
        after.schedulerContainer.pendingRequests.Perm
          (request :: before.schedulerContainer.pendingRequests))

theorem KeptOrGone.of_sameSetting {before after : Scheduler} (hsame : SameSetting before after)
    (request : Request) : KeptOrGone before request after := by
  refine ⟨?_, .inl ?_⟩ <;> rw [hsame.schedulerContainer]

theorem pendingRequests_postpone {scheduler kept : Scheduler} {request : Request}
    (hkept : postpone scheduler request = some kept) :
    kept.schedulerContainer.newRequests = scheduler.schedulerContainer.newRequests ∧
      kept.schedulerContainer.pendingRequests.Perm
        (request :: scheduler.schedulerContainer.pendingRequests) := by
  obtain ⟨policy, hpolicy, rfl⟩ := postpone_eq_some.mp hkept
  exact SchedulingPolicy.queued_of_addPendingQueueRequest hpolicy

theorem exceedsMachine_congr {before after : Scheduler} (hsame : SameSetting before after)
    (request : Request) : exceedsMachine after request = exceedsMachine before request := by
  unfold exceedsMachine SystemInfo.totalCores
  rw [hsame.cores]

/-- What holds of every scheduler in the same setting, and of every one that then
postpones the request, holds after the request was tried. -/
theorem serveNew_all {P : Scheduler → Prop} {scheduler : Scheduler} {request : Request}
    (hsame : ∀ after, SameSetting scheduler after → P after)
    (hkept : ∀ served kept amount, SameSetting scheduler served →
      exceedsMachine scheduler request = false → postpone served request = some kept →
      P (kept.freeResources amount)) (port : ℕ) (env : RequestEnv) :
    (serveNew scheduler request port env).All P := by
  by_cases hpause : ∃ requestId, request = .pause requestId
  · obtain ⟨requestId, rfl⟩ := hpause
    refine hsame _ ?_
    rw [scheduleResources_eq]
    exact (sameSetting_pausedBy _ _).trans (sameSetting_charge _ _)
  · have hattempt := attempt_sameSetting scheduler request port env
    rw [serveNew_eq (fun requestId heq => hpause ⟨requestId, heq⟩)]
    split
    next served hserved =>
        rw [hserved] at hattempt
        split
        · exact hsame _ hattempt
        next kept hkeep =>
            obtain ⟨-, rfl⟩ | ⟨hfits, hpostponed⟩ := keepOrDiscard_cases hkeep
            · exact hsame _ (hattempt.trans (sameSetting_freeResources _ _))
            · exact hkept served kept _ hattempt (exceedsMachine_congr hattempt request ▸ hfits)
                hpostponed
    · exact Answer.All.mono hattempt hsame

theorem serveNew_queues (scheduler : Scheduler) (request : Request) (port : ℕ)
    (env : RequestEnv) :
    (serveNew scheduler request port env).All (KeptOrGone scheduler request) := by
  refine serveNew_all (fun after hsame => .of_sameSetting hsame request) ?_ port env
  intro served kept amount hsame hfits hpostponed
  obtain ⟨hnew, hpending⟩ := pendingRequests_postpone hpostponed
  rw [hsame.schedulerContainer] at hnew hpending
  exact ⟨hnew, .inr ⟨hfits, hpending⟩⟩

/-! ## Steps of the program -/

variable {world after : World} {action : Action} {request : Request}

/-- The new requests of a world. -/
def newOf (world : World) : List Request := world.scheduler.schedulerContainer.newRequests

/-- The pending requests of a world. -/
def pendingOf (world : World) : List Request := world.scheduler.schedulerContainer.pendingRequests

theorem afterAnswer_of_all {P : Scheduler → Prop} {answer : Answer Scheduler} {port : ℕ}
    (hall : answer.All P) (hafter : world.afterAnswer port answer = some after) :
    P after.scheduler := by
  cases answer with
  | waiting => cases hafter
  | _ =>
      obtain rfl := Option.some.inj hafter
      exact hall

theorem attendNew_queues {env : RequestEnv} (hstep : world.attendNew env = some after) :
    ∃ request rest, newOf world = request :: rest ∧ newOf after = rest ∧
      (pendingOf after = pendingOf world ∨
        exceedsMachine world.scheduler request = false ∧
          (pendingOf after).Perm (request :: pendingOf world)) := by
  obtain ⟨⟨request, policy⟩, hget, hstep⟩ := Option.bind_eq_some_iff.mp hstep
  obtain ⟨hnew, hpending⟩ := SchedulingPolicy.queued_of_getNewRequest hget
  have hserved :=
    serveNew_queues (world.scheduler.withPolicy policy) request world.portHost env
  have hkept : KeptOrGone (world.scheduler.withPolicy policy) request after.scheduler := by
    simp only at hstep
    split at hstep <;> exact afterAnswer_of_all hserved hstep
  obtain ⟨hsame, hplace⟩ := hkept
  rw [Scheduler.withPolicy_schedulerContainer] at hsame hplace
  rw [hpending] at hplace
  exact ⟨request, policy.newRequests, hnew, hsame, hplace⟩

theorem attendPending_queues {env : RequestEnv} (hstep : world.attendPending env = some after) :
    newOf after = newOf world ∧ ∃ request rest, pendingOf world = request :: rest ∧
      (pendingOf after = rest ∨ (pendingOf after).Perm (request :: rest)) := by
  obtain ⟨⟨request, policy⟩, hget, hstep⟩ := Option.bind_eq_some_iff.mp hstep
  obtain ⟨hnew, hpending⟩ := SchedulingPolicy.queued_of_getPendingRequest hget
  have hserved := attend_sameSetting (world.scheduler.withPolicy policy) request world.portHost env
  have hgone : ∀ served : Scheduler, SameSetting (world.scheduler.withPolicy policy) served →
      served.schedulerContainer.newRequests = newOf world ∧
        served.schedulerContainer.pendingRequests = policy.pendingRequests := by
    intro served hsame
    rw [hsame.schedulerContainer]
    exact ⟨hnew, rfl⟩
  simp only at hstep
  split at hstep
  next served hanswer =>
      rw [hanswer] at hserved
      obtain ⟨hnewServed, hpendingServed⟩ := hgone served hserved
      split at hstep
      · obtain rfl := Option.some.inj hstep
        exact ⟨hnewServed, request, policy.pendingRequests, hpending, .inl hpendingServed⟩
      next kept hkept =>
          obtain rfl := Option.some.inj hstep
          obtain ⟨hnewKept, hpendingKept⟩ := pendingRequests_postpone hkept
          rw [hpendingServed] at hpendingKept
          exact ⟨hnewKept.trans hnewServed, request, policy.pendingRequests, hpending,
            .inr hpendingKept⟩
  next answer hnot =>
      obtain ⟨hnewServed, hpendingServed⟩ := hgone _ (afterAnswer_of_all hserved hstep)
      exact ⟨hnewServed, request, policy.pendingRequests, hpending, .inl hpendingServed⟩

/-- The classes the generator builds. -/
def FromGenerator : Request → Prop
  | .start .. | .update .. => True
  | _ => False

/-- The policy has a queue for the priority of a request. -/
def Placed (scheduler : Scheduler) (request : Request) : Prop :=
  ∃ index, scheduler.schedulerContainer.policyClass.queueIndex request.getPriority = some index

theorem enqueue_eq (hstep : world.enqueue request = some after) :
    FromGenerator request ∧ ∃ policy,
      world.scheduler.schedulerContainer.addQueueRequest request.getPriority request =
        some policy ∧
      { world with scheduler := world.scheduler.withPolicy policy } = after := by
  cases request with
  | start requestId image inter intra priority =>
      exact ⟨trivial, Option.map_eq_some_iff.mp hstep⟩
  | update requestId inter intra priority =>
      exact ⟨trivial, Option.map_eq_some_iff.mp hstep⟩
  | _ => cases hstep

theorem enqueue_queues (hstep : world.enqueue request = some after) :
    (FromGenerator request ∧ Placed world.scheduler request) ∧
      (newOf after).Perm (request :: newOf world) ∧ pendingOf after = pendingOf world := by
  obtain ⟨hclass, policy, hpolicy, rfl⟩ := enqueue_eq hstep
  obtain ⟨index, hindex, -⟩ := SchedulingPolicy.addQueueRequest_eq_some.mp hpolicy
  exact ⟨⟨hclass, index, hindex⟩, SchedulingPolicy.queued_of_addQueueRequest hpolicy⟩

/-- A declared failure queues nothing but the `Restart` of a listed container. -/
theorem containerFailedAttention_queues (scheduler : Scheduler) (number name : String)
    (priority : ℤ) :
    (containerFailedAttention scheduler number name priority).schedulerContainer.pendingRequests =
      scheduler.schedulerContainer.pendingRequests ∧
    ∀ request ∈ (containerFailedAttention scheduler number name
        priority).schedulerContainer.newRequests,
      request ∈ scheduler.schedulerContainer.newRequests ∨
        (∃ info ∈ scheduler.execInfoList, info.containerName = name ∧
          request = .restart number name info.interExecParallelism info.intraExecParallelism
            info.image priority) ∧
        ∃ index, scheduler.schedulerContainer.policyClass.queueIndex priority = some index := by
  unfold containerFailedAttention
  split
  · exact ⟨rfl, fun _ hmem => .inl hmem⟩
  next info hlast =>
      have hmem : info ∈ named name scheduler.execInfoList := List.mem_of_getLast? hlast
      obtain ⟨hlisted, hname⟩ := List.mem_filter.mp hmem
      simp only
      split
      · exact ⟨rfl, fun _ hmem => .inl hmem⟩
      next policy hpolicy =>
          obtain ⟨hnew, hpending⟩ := SchedulingPolicy.queued_of_addQueueRequest hpolicy
          refine ⟨hpending, fun request hrequest => ?_⟩
          obtain rfl | hold := List.mem_cons.mp (hnew.mem_iff.mp hrequest)
          · obtain ⟨index, hindex, -⟩ := SchedulingPolicy.addQueueRequest_eq_some.mp hpolicy
            exact .inr ⟨⟨info, hlisted, by simpa using hname, rfl⟩, index, hindex⟩
          · exact .inl hold

theorem removeContainer_policy (scheduler : Scheduler) (name : String) :
    (removeContainer scheduler name).2.schedulerContainer = scheduler.schedulerContainer := by
  unfold removeContainer
  split <;> rfl

theorem freeFinished_policy {scheduler freed : Scheduler}
    (hfreed : freeFinished scheduler = some freed) :
    freed.schedulerContainer = scheduler.schedulerContainer := by
  unfold freeFinished at hfreed
  split at hfreed <;> cases hfreed
  rfl

theorem reassign_queues (world : World) :
    newOf world.reassign = newOf world ∧ pendingOf world.reassign = pendingOf world := by
  unfold World.reassign newOf pendingOf
  split
  next reassigned hdone =>
      rw [(reassignFree_sameSetting (.inl hdone)).schedulerContainer]
      exact ⟨rfl, rfl⟩
  next reassigned hdone =>
      rw [(reassignFree_sameSetting (.inr hdone)).schedulerContainer]
      exact ⟨rfl, rfl⟩

/-- Measuring changes no more than the factor of the policy. -/
theorem measureStage_frame {scheduler measured : Scheduler}
    (hmeasure : measureStage scheduler = some measured) :
    ∃ factor, measured =
      scheduler.withPolicy { scheduler.schedulerContainer with factorProp := factor } := by
  unfold measureStage at hmeasure
  split at hmeasure
  · obtain ⟨policy, hpolicy, rfl⟩ := Option.map_eq_some_iff.mp hmeasure
    obtain ⟨factor, rfl⟩ := SchedulingPolicy.calculateFactorProp_frame hpolicy
    exact ⟨factor, rfl⟩
  · obtain rfl := Option.some.inj hmeasure
    exact ⟨scheduler.schedulerContainer.factorProp, rfl⟩

theorem measure_queues (world : World) :
    newOf world.measure = newOf world ∧ pendingOf world.measure = pendingOf world := by
  unfold World.measure
  split
  next measured hmeasure =>
      obtain ⟨factor, rfl⟩ := measureStage_frame hmeasure
      exact ⟨rfl, rfl⟩
  · exact ⟨rfl, rfl⟩

/-- A listed container failed, and the request restarts it. -/
def RestartsFailed (world : World) (action : Action) (request : Request) : Prop :=
  ∃ number name priority, action = .fail number name priority ∧
    ∃ info ∈ world.scheduler.execInfoList, info.containerName = name ∧
      request = .restart number name info.interExecParallelism info.intraExecParallelism
        info.image priority

/-- How a request comes to be new: it was, the generator queued it, or the
container it restarts failed. -/
theorem new_of_step (hstep : world.step action = some after) (hnew : request ∈ newOf after) :
    request ∈ newOf world ∨
      ((action = .enqueue request ∧ FromGenerator request ∨ RestartsFailed world action request) ∧
        Placed world.scheduler request) := by
  cases action with
  | enqueue queued =>
      simp only [World.step, Option.ite_none_left_eq_some] at hstep
      obtain ⟨hclass, hperm, -⟩ := enqueue_queues hstep.2
      obtain rfl | hold := List.mem_cons.mp (hperm.mem_iff.mp hnew)
      · exact .inr ⟨.inl ⟨rfl, hclass.1⟩, hclass.2⟩
      · exact .inl hold
  | attendNew env =>
      simp only [World.step, Option.ite_none_left_eq_some] at hstep
      obtain ⟨first, rest, hfirst, hrest, -⟩ := attendNew_queues hstep.2
      exact .inl (hfirst ▸ List.mem_cons_of_mem _ (hrest ▸ hnew))
  | attendPending env =>
      simp only [World.step, Option.ite_none_left_eq_some] at hstep
      exact .inl ((attendPending_queues hstep.2).1 ▸ hnew)
  | reassign =>
      simp only [World.step, Option.ite_none_left_eq_some, Option.some.injEq] at hstep
      obtain ⟨-, rfl⟩ := hstep
      exact .inl ((reassign_queues world).1 ▸ hnew)
  | measure =>
      simp only [World.step, Option.ite_none_left_eq_some, Option.some.injEq] at hstep
      obtain ⟨-, rfl⟩ := hstep
      exact .inl ((measure_queues world).1 ▸ hnew)
  | free =>
      simp only [World.step, Option.ite_none_left_eq_some, Option.map_eq_some_iff] at hstep
      obtain ⟨-, freed, hfreed, rfl⟩ := hstep
      rw [newOf, freeFinished_policy hfreed] at hnew
      exact .inl hnew
  | exit name =>
      obtain rfl := Option.some.inj hstep
      rw [newOf, removeContainer_policy] at hnew
      exact .inl hnew
  | fail number name priority =>
      obtain rfl := Option.some.inj hstep
      obtain hold | ⟨⟨info, hlisted, hname, hrestart⟩, hplaced⟩ :=
        (containerFailedAttention_queues world.scheduler number name priority).2 request hnew
      · exact .inl hold
      · exact .inr ⟨.inr ⟨number, name, priority, rfl, info, hlisted, hname, hrestart⟩,
          hrestart ▸ hplaced⟩
  | terminate =>
      obtain rfl := Option.some.inj hstep
      exact .inl hnew
  | disconnect name =>
      obtain rfl := Option.some.inj hstep
      exact .inl hnew

/-- How a request comes to be pending: it was, or it was new and the machine has
the cores it asks for. -/
theorem pending_of_step (hstep : world.step action = some after)
    (hpending : request ∈ pendingOf after) :
    request ∈ pendingOf world ∨
      (request ∈ newOf world ∧ exceedsMachine world.scheduler request = false) := by
  cases action with
  | enqueue queued =>
      simp only [World.step, Option.ite_none_left_eq_some] at hstep
      exact .inl ((enqueue_queues hstep.2).2.2 ▸ hpending)
  | attendNew env =>
      simp only [World.step, Option.ite_none_left_eq_some] at hstep
      obtain ⟨first, rest, hfirst, -, hsame | ⟨hfits, hperm⟩⟩ := attendNew_queues hstep.2
      · exact .inl (hsame ▸ hpending)
      · obtain rfl | hold := List.mem_cons.mp (hperm.mem_iff.mp hpending)
        · exact .inr ⟨hfirst ▸ List.mem_cons_self, hfits⟩
        · exact .inl hold
  | attendPending env =>
      simp only [World.step, Option.ite_none_left_eq_some] at hstep
      obtain ⟨-, first, rest, hfirst, hrest | hperm⟩ := attendPending_queues hstep.2
      · exact .inl (hfirst ▸ List.mem_cons_of_mem _ (hrest ▸ hpending))
      · exact .inl (hfirst ▸ hperm.mem_iff.mp hpending)
  | reassign =>
      simp only [World.step, Option.ite_none_left_eq_some, Option.some.injEq] at hstep
      obtain ⟨-, rfl⟩ := hstep
      exact .inl ((reassign_queues world).2 ▸ hpending)
  | measure =>
      simp only [World.step, Option.ite_none_left_eq_some, Option.some.injEq] at hstep
      obtain ⟨-, rfl⟩ := hstep
      exact .inl ((measure_queues world).2 ▸ hpending)
  | free =>
      simp only [World.step, Option.ite_none_left_eq_some, Option.map_eq_some_iff] at hstep
      obtain ⟨-, freed, hfreed, rfl⟩ := hstep
      rw [pendingOf, freeFinished_policy hfreed] at hpending
      exact .inl hpending
  | exit name =>
      obtain rfl := Option.some.inj hstep
      rw [pendingOf, removeContainer_policy] at hpending
      exact .inl hpending
  | fail number name priority =>
      obtain rfl := Option.some.inj hstep
      rw [pendingOf,
        (containerFailedAttention_queues world.scheduler number name priority).1] at hpending
      exact .inl hpending
  | terminate =>
      obtain rfl := Option.some.inj hstep
      exact .inl hpending
  | disconnect name =>
      obtain rfl := Option.some.inj hstep
      exact .inl hpending

/-! ## What no step changes -/

/-- The machine and the kind of policy are the same. -/
structure SameProgram (before after : Scheduler) : Prop where
  cores : after.systemInfo.cores = before.systemInfo.cores
  policyClass : after.schedulerContainer.policyClass = before.schedulerContainer.policyClass
  reassigmentType :
    after.schedulerContainer.reassigmentType = before.schedulerContainer.reassigmentType

namespace SameProgram

theorem trans {first second third : Scheduler} (hfirst : SameProgram first second)
    (hsecond : SameProgram second third) : SameProgram first third :=
  ⟨hsecond.cores.trans hfirst.cores, hsecond.policyClass.trans hfirst.policyClass,
    hsecond.reassigmentType.trans hfirst.reassigmentType⟩

theorem of_sameSetting {before after : Scheduler} (hsame : SameSetting before after) :
    SameProgram before after :=
  ⟨hsame.cores, hsame.schedulerContainer ▸ rfl, hsame.schedulerContainer ▸ rfl⟩

end SameProgram

theorem sameProgram_addQueueRequest {scheduler : Scheduler} {policy : SchedulingPolicy}
    {idQueue : ℤ} (hadd : scheduler.schedulerContainer.addQueueRequest idQueue request =
      some policy) : SameProgram scheduler (scheduler.withPolicy policy) := by
  obtain ⟨index, -, rfl⟩ := SchedulingPolicy.addQueueRequest_eq_some.mp hadd
  exact ⟨rfl, rfl, rfl⟩

theorem sameProgram_postpone {scheduler kept : Scheduler}
    (hkept : postpone scheduler request = some kept) : SameProgram scheduler kept := by
  obtain ⟨policy, hpolicy, rfl⟩ := postpone_eq_some.mp hkept
  obtain ⟨index, -, rfl⟩ := SchedulingPolicy.addPendingQueueRequest_eq_some.mp hpolicy
  exact ⟨rfl, rfl, rfl⟩

theorem sameProgram_getNewRequest {scheduler : Scheduler} {policy : SchedulingPolicy}
    (hget : scheduler.schedulerContainer.getNewRequest = some (request, policy)) :
    SameProgram scheduler (scheduler.withPolicy policy) := by
  obtain ⟨array, -, rfl⟩ := SchedulingPolicy.getNewRequest_eq_some.mp hget
  exact ⟨rfl, rfl, rfl⟩

theorem sameProgram_getPendingRequest {scheduler : Scheduler} {policy : SchedulingPolicy}
    (hget : scheduler.schedulerContainer.getPendingRequest = some (request, policy)) :
    SameProgram scheduler (scheduler.withPolicy policy) := by
  obtain ⟨array, -, rfl⟩ := SchedulingPolicy.getPendingRequest_eq_some.mp hget
  exact ⟨rfl, rfl, rfl⟩

theorem serveNew_sameProgram (scheduler : Scheduler) (request : Request) (port : ℕ)
    (env : RequestEnv) : (serveNew scheduler request port env).All (SameProgram scheduler) :=
  serveNew_all (fun _ hsame => .of_sameSetting hsame)
    (fun _ _ _ hsame _ hpostponed => (SameProgram.of_sameSetting hsame).trans
      ((sameProgram_postpone hpostponed).trans (.of_sameSetting (sameSetting_freeResources _ _))))
    port env

theorem containerFailedAttention_sameProgram (scheduler : Scheduler) (number name : String)
    (priority : ℤ) :
    SameProgram scheduler (containerFailedAttention scheduler number name priority) := by
  unfold containerFailedAttention
  split
  · exact ⟨rfl, rfl, rfl⟩
  · simp only
    split
    · exact ⟨rfl, rfl, rfl⟩
    next policy hpolicy =>
        have hadd := sameProgram_addQueueRequest hpolicy
        exact ⟨hadd.cores, hadd.policyClass, hadd.reassigmentType⟩

/-- The machine and the kind of policy stay what they are. -/
theorem sameProgram_of_step (hstep : world.step action = some after) :
    SameProgram world.scheduler after.scheduler := by
  cases action with
  | enqueue queued =>
      simp only [World.step, Option.ite_none_left_eq_some] at hstep
      obtain ⟨-, policy, hpolicy, rfl⟩ := enqueue_eq hstep.2
      exact sameProgram_addQueueRequest hpolicy
  | attendNew env =>
      simp only [World.step, Option.ite_none_left_eq_some] at hstep
      obtain ⟨⟨first, policy⟩, hget, hserve⟩ := Option.bind_eq_some_iff.mp hstep.2
      refine (sameProgram_getNewRequest hget).trans ?_
      simp only at hserve
      split at hserve <;> exact afterAnswer_of_all (serveNew_sameProgram _ _ _ _) hserve
  | attendPending env =>
      simp only [World.step, Option.ite_none_left_eq_some] at hstep
      obtain ⟨⟨first, policy⟩, hget, hserve⟩ := Option.bind_eq_some_iff.mp hstep.2
      refine (sameProgram_getPendingRequest hget).trans ?_
      have hattend :=
        attend_sameSetting (world.scheduler.withPolicy policy) first world.portHost env
      simp only at hserve
      split at hserve
      next served hanswer =>
          rw [hanswer] at hattend
          have hserved : SameProgram (world.scheduler.withPolicy policy) served :=
            .of_sameSetting hattend
          split at hserve
          · obtain rfl := Option.some.inj hserve
            exact hserved
          next kept hkept =>
              obtain rfl := Option.some.inj hserve
              exact hserved.trans (sameProgram_postpone hkept)
      · exact .of_sameSetting (afterAnswer_of_all hattend hserve)
  | reassign =>
      simp only [World.step, Option.ite_none_left_eq_some, Option.some.injEq] at hstep
      obtain ⟨-, rfl⟩ := hstep
      unfold World.reassign
      split
      next reassigned hdone => exact .of_sameSetting (reassignFree_sameSetting (.inl hdone))
      next reassigned hdone => exact .of_sameSetting (reassignFree_sameSetting (.inr hdone))
  | measure =>
      simp only [World.step, Option.ite_none_left_eq_some, Option.some.injEq] at hstep
      obtain ⟨-, rfl⟩ := hstep
      unfold World.measure
      split
      next measured hmeasure =>
          obtain ⟨factor, rfl⟩ := measureStage_frame hmeasure
          exact ⟨rfl, rfl, rfl⟩
      · exact ⟨rfl, rfl, rfl⟩
  | free =>
      simp only [World.step, Option.ite_none_left_eq_some, Option.map_eq_some_iff] at hstep
      obtain ⟨-, freed, hfreed, rfl⟩ := hstep
      unfold freeFinished at hfreed
      split at hfreed <;> cases hfreed
      exact ⟨rfl, rfl, rfl⟩
  | exit name =>
      obtain rfl := Option.some.inj hstep
      simp only
      unfold removeContainer
      split <;> exact ⟨rfl, rfl, rfl⟩
  | fail number name priority =>
      obtain rfl := Option.some.inj hstep
      exact containerFailedAttention_sameProgram _ _ _ _
  | terminate =>
      obtain rfl := Option.some.inj hstep
      exact ⟨rfl, rfl, rfl⟩
  | disconnect name =>
      obtain rfl := Option.some.inj hstep
      exact ⟨rfl, rfl, rfl⟩

/-! ## Queued requests in every run -/

/-- The classes that charge cores when they are attended. -/
def ChargesCores : Request → Prop
  | .start .. | .update .. | .restart .. => True
  | _ => False

variable {cores maxResourcesPerCont : ℤ} {policyClass : PolicyClass}
  {reassigmentType : ReassigmentType} {guard : World → Action → Prop}

theorem queued_of_reaches
    (hreached : (program cores maxResourcesPerCont policyClass reassigmentType).Reaches guard
      world) :
    ∀ request, request ∈ newOf world ∨ request ∈ pendingOf world →
      ChargesCores request ∧ Placed world.scheduler request := by
  induction hreached with
  | init =>
      intro request hqueued
      simp [newOf, pendingOf, program, Scheduler.init, SchedulingPolicy.init,
        SchedulingPolicy.newRequests, SchedulingPolicy.pendingRequests] at hqueued
  | @step source target label _ _ hstep hsource =>
      intro request hqueued
      have hplaced : Placed source.scheduler request → Placed target.scheduler request := by
        rintro ⟨index, hindex⟩
        have hclass := (sameProgram_of_step hstep).policyClass
        rw [Placed, hclass]
        exact ⟨index, hindex⟩
      have hold : request ∈ newOf source ∨ request ∈ pendingOf source →
          ChargesCores request ∧ Placed target.scheduler request := fun hmem =>
        ⟨(hsource request hmem).1, hplaced (hsource request hmem).2⟩
      rcases hqueued with hnew | hpending
      · obtain hmem | ⟨⟨-, hclass⟩ | ⟨_, _, _, -, _, -, -, rfl⟩, hindex⟩ := new_of_step hstep hnew
        · exact hold (.inl hmem)
        · refine ⟨?_, hplaced hindex⟩
          cases request <;> trivial
        · exact ⟨trivial, hplaced hindex⟩
      · obtain hmem | ⟨hmem, -⟩ := pending_of_step hstep hpending
        · exact hold (.inr hmem)
        · exact hold (.inl hmem)

end ContainerScheduler.Analysis
