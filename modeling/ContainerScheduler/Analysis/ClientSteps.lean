/-
# What a step does to the listed containers

A container is listed when its request was attended and a connection was
accepted, and it is unlisted when it exits. A restart replaces the socket of a
listed container. No other step changes a name or a socket.
-/

import ContainerScheduler.Analysis.QueueSteps

namespace ContainerScheduler.Analysis

open Host Math

variable {world after : World} {action : Action}

/-- The listed containers of a world with their clients. -/
def clientsOf (world : World) : List (String × String) := clients world.scheduler.execInfoList

/-- The step attends a request in an environment. -/
def Attends (world : World) (action : Action) (env : RequestEnv) (request : Request) : Prop :=
  (action = .attendNew env ∧ (newOf world).head? = some request) ∨
    (action = .attendPending env ∧ (pendingOf world).head? = some request)

/-! ## Serving and attending -/

theorem clients_postpone {scheduler kept : Scheduler} {request : Request}
    (hkept : postpone scheduler request = some kept) :
    clients kept.execInfoList = clients scheduler.execInfoList := by
  obtain ⟨policy, -, rfl⟩ := postpone_eq_some.mp hkept
  rfl

theorem attend_clients (scheduler : Scheduler) (request : Request) (port : ℕ)
    (env : RequestEnv) :
    (attend scheduler request port env).All (ClientsAfter scheduler request env) := by
  have hattempt := attempt_clients scheduler request port env
  unfold attend
  split
  next served hserved =>
      rw [hserved] at hattempt
      exact hattempt
  · exact hattempt

theorem serveNew_clients (scheduler : Scheduler) (request : Request) (port : ℕ)
    (env : RequestEnv) :
    (serveNew scheduler request port env).All (ClientsAfter scheduler request env) := by
  have hattempt := attempt_clients scheduler request port env
  by_cases hpause : ∃ requestId, request = .pause requestId
  · obtain ⟨requestId, rfl⟩ := hpause
    refine .of_eq ?_
    rw [scheduleResources_eq]
    exact clients_pausedBy _ _
  · rw [serveNew_eq fun requestId heq => hpause ⟨requestId, heq⟩]
    split
    next served hserved =>
        rw [hserved] at hattempt
        split
        · exact hattempt
        next kept hkeep =>
            obtain ⟨-, rfl⟩ | ⟨-, hpostponed⟩ := keepOrDiscard_cases hkeep
            · exact hattempt
            · have hkept := clients_postpone hpostponed
              simpa only [Answer.All, ClientsAfter, Scheduler.freeResources, hkept] using hattempt
    · exact hattempt

/-! ## Steps of the program -/

/-- What a step does to the clients: nothing, or a container exits, or a
container is accepted. -/
def ClientsStep (world : World) (action : Action) (after : World) : Prop :=
  clientsOf after = clientsOf world ∨
    (∃ name, action = .exit name ∧
      clientsOf after = (clientsOf world).eraseP (fun other => other.1 = name)) ∨
    ∃ env request socket, Attends world action env request ∧
      acceptLoop acceptAttempts env.accepts = some (some socket) ∧
      clientsOf after = registered request socket.peer (clientsOf world)

theorem ClientsStep.of_attended {env : RequestEnv} {request : Request}
    (hattends : Attends world action env request)
    (hclients : ClientsAfter world.scheduler request env after.scheduler) :
    ClientsStep world action after := by
  obtain hsame | ⟨socket, haccepted, hregistered⟩ := hclients
  · exact .inl hsame
  · exact .inr (.inr ⟨env, request, socket, hattends, haccepted, hregistered⟩)

theorem attendNew_clients {env : RequestEnv} (hstep : world.attendNew env = some after) :
    ClientsStep world (.attendNew env) after := by
  obtain ⟨⟨request, policy⟩, hget, hserve⟩ := Option.bind_eq_some_iff.mp hstep
  obtain ⟨hnew, -⟩ := SchedulingPolicy.queued_of_getNewRequest hget
  have hserved := serveNew_clients (world.scheduler.withPolicy policy) request world.portHost env
  have hattends : Attends world (.attendNew env) env request := .inl ⟨rfl, by
    rw [newOf, hnew]
    rfl⟩
  refine ClientsStep.of_attended hattends ?_
  simp only at hserve
  split at hserve <;> exact afterAnswer_of_all hserved hserve

theorem attendPending_clients {env : RequestEnv} (hstep : world.attendPending env = some after) :
    ClientsStep world (.attendPending env) after := by
  obtain ⟨⟨request, policy⟩, hget, hserve⟩ := Option.bind_eq_some_iff.mp hstep
  obtain ⟨-, hpending⟩ := SchedulingPolicy.queued_of_getPendingRequest hget
  have hserved := attend_clients (world.scheduler.withPolicy policy) request world.portHost env
  have hattends : Attends world (.attendPending env) env request := .inr ⟨rfl, by
    rw [pendingOf, hpending]
    rfl⟩
  refine ClientsStep.of_attended hattends ?_
  simp only at hserve
  split at hserve
  next served hanswer =>
      rw [hanswer] at hserved
      split at hserve
      · obtain rfl := Option.some.inj hserve
        exact hserved
      next kept hkept =>
          obtain rfl := Option.some.inj hserve
          have hclients := clients_postpone hkept
          simp only [ClientsAfter, hclients]
          exact hserved
  · exact afterAnswer_of_all hserved hserve

theorem clients_removeContainer (scheduler : Scheduler) (name : String) :
    clients (removeContainer scheduler name).2.execInfoList =
      (clients scheduler.execInfoList).eraseP (fun other => other.1 = name) := by
  rw [clients, clients, List.eraseP_map]
  unfold removeContainer
  split
  next hnone =>
      have hnone := List.find?_eq_none.mp hnone
      have hkept : scheduler.execInfoList.eraseP
          ((fun other => decide (other.1 = name)) ∘ client) = scheduler.execInfoList :=
        List.eraseP_of_forall_not hnone
      rw [hkept]
  · rfl

theorem clients_containerFailedAttention (scheduler : Scheduler) (number name : String)
    (priority : ℤ) :
    clients (containerFailedAttention scheduler number name priority).execInfoList =
      clients scheduler.execInfoList := by
  unfold containerFailedAttention
  split
  · rfl
  · simp only
    split
    · refine clients_mapNamed name ?_ _
      exact fun _ => rfl
    · refine clients_mapNamed name ?_ _
      exact fun _ => rfl

theorem clients_reassign (world : World) : clientsOf world.reassign = clientsOf world := by
  have hcases := reassignFree_cases world.scheduler
  unfold World.reassign clientsOf
  split
  next reassigned hdone =>
      obtain ⟨-, hend⟩ | ⟨-, -, hend⟩ | ⟨-, -, hend⟩ := hcases
      all_goals
        rw [hend] at hdone
        cases hdone
      · rfl
      · exact clients_reassigment _ _
  next reassigned hdone =>
      obtain ⟨-, hend⟩ | ⟨-, -, hend⟩ | ⟨-, -, hend⟩ := hcases
      all_goals
        rw [hend] at hdone
        cases hdone
      exact clients_reassigment _ _

/-- **The step lemma of the listed containers.** -/
theorem clients_of_step (hstep : world.step action = some after) :
    ClientsStep world action after := by
  cases action with
  | enqueue queued =>
      simp only [World.step, Option.ite_none_left_eq_some] at hstep
      obtain ⟨-, policy, -, rfl⟩ := enqueue_eq hstep.2
      exact .inl rfl
  | attendNew env =>
      simp only [World.step, Option.ite_none_left_eq_some] at hstep
      exact attendNew_clients hstep.2
  | attendPending env =>
      simp only [World.step, Option.ite_none_left_eq_some] at hstep
      exact attendPending_clients hstep.2
  | reassign =>
      simp only [World.step, Option.ite_none_left_eq_some, Option.some.injEq] at hstep
      obtain ⟨-, rfl⟩ := hstep
      exact .inl (clients_reassign world)
  | measure =>
      simp only [World.step, Option.ite_none_left_eq_some, Option.some.injEq] at hstep
      obtain ⟨-, rfl⟩ := hstep
      unfold World.measure
      split
      next measured hmeasure =>
          obtain ⟨factor, rfl⟩ := measureStage_frame hmeasure
          exact .inl rfl
      · exact .inl rfl
  | free =>
      simp only [World.step, Option.ite_none_left_eq_some, Option.map_eq_some_iff] at hstep
      obtain ⟨-, freed, hfreed, rfl⟩ := hstep
      unfold freeFinished at hfreed
      split at hfreed <;> cases hfreed
      exact .inl rfl
  | exit name =>
      obtain rfl := Option.some.inj hstep
      exact .inr (.inl ⟨name, rfl, clients_removeContainer _ _⟩)
  | fail number name priority =>
      obtain rfl := Option.some.inj hstep
      exact .inl (clients_containerFailedAttention _ _ _ _)
  | terminate =>
      obtain rfl := Option.some.inj hstep
      exact .inl rfl
  | disconnect name =>
      obtain rfl := Option.some.inj hstep
      refine .inl (clients_mapNamed name ?_ _)
      exact fun _ => rfl

end ContainerScheduler.Analysis
