/-
# Whose connection a container is given

The listening socket hands connections out in the order in which they came. So
every container keeps its own socket exactly as long as no launch finds the
connection of another container ahead of its own.
-/

import ContainerScheduler.Analysis.ClientSteps
import ContainerScheduler.Wire.Listening

namespace ContainerScheduler.Analysis

open Host Math Wire

/-- Every stored socket was opened by the container it is stored for, in the
records and in the client threads. -/
structure Identified (state : Listening) : Prop where
  records : ∀ info ∈ state.world.scheduler.execInfoList,
    info.clientsocket.peer = info.containerName
  threads : ∀ thread ∈ state.threads, thread.2 = thread.1

instance (state : Listening) : Decidable (Identified state) :=
  decidable_of_iff ((∀ info ∈ state.world.scheduler.execInfoList,
      info.clientsocket.peer = info.containerName) ∧ ∀ thread ∈ state.threads, thread.2 = thread.1)
    ⟨fun ⟨hrecords, hthreads⟩ => ⟨hrecords, hthreads⟩,
      fun hidentified => ⟨hidentified.records, hidentified.threads⟩⟩

/-- A launch starts with no connection of another container in the backlog, and
meanwhile no other container connects ahead of the one that is launched. -/
def NoneAhead (state : Listening) (first : Option Request) (memoryBelowLimit dockerStderr : Bool)
    (events : List AcceptEvent) : Prop :=
  ∀ request ∈ first, runsDocker state.world.scheduler request memoryBelowLimit dockerStderr →
    ∀ peer ∈ (state.backlog.waiting ++ arrivals events).head?, peer = request.launchName

instance (state : Listening) (first : Option Request) (memoryBelowLimit dockerStderr : Bool)
    (events : List AcceptEvent) :
    Decidable (NoneAhead state first memoryBelowLimit dockerStderr events) := by
  unfold NoneAhead
  infer_instance

/-- The condition on a step: launches find no other container ahead. -/
def ListeningStepOk (state : Listening) : ListeningStep → Prop
  | .attendNew memoryBelowLimit dockerStderr events =>
      NoneAhead state (newOf state.world).head? memoryBelowLimit dockerStderr events
  | .attendPending memoryBelowLimit dockerStderr events =>
      NoneAhead state (pendingOf state.world).head? memoryBelowLimit dockerStderr events
  | _ => True

instance (state : Listening) (step : ListeningStep) : Decidable (ListeningStepOk state step) := by
  unfold ListeningStepOk
  cases step <;> infer_instance

/-! ## One step -/

/-- The records are identified when their clients are. -/
theorem records_iff {infos : List ExecutionInfo} :
    (∀ info ∈ infos, info.clientsocket.peer = info.containerName) ↔
      ∀ other ∈ clients infos, other.2 = other.1 := by
  simp [clients, client]

theorem identified_registered {request : Request} {listed : List (String × String)}
    {peer : String} (hlisted : ∀ other ∈ listed, other.2 = other.1)
    (hpeer : peer = request.launchName) :
    ∀ other ∈ registered request peer listed, other.2 = other.1 := by
  have hrestart : ∀ other ∈ listed.map (fun other =>
      if other.1 = request.launchName then (other.1, peer) else other), other.2 = other.1 := by
    intro other hmem
    obtain ⟨old, hold, rfl⟩ := List.mem_map.mp hmem
    split
    next hname => exact hpeer.trans hname.symm
    next => exact hlisted old hold
  cases request with
  | start requestId image inter intra priority =>
      intro other hmem
      obtain hold | hnew := List.mem_append.mp hmem
      · exact hlisted other hold
      · obtain rfl := List.mem_singleton.mp hnew
        exact hpeer
  | _ => exact hrestart

/-- Whatever a launch accepts was opened by the launched container. -/
theorem peer_of_hear {state : Listening} {request : Request} {memoryBelowLimit dockerStderr : Bool}
    {events : List AcceptEvent} {outcomes : List AcceptOutcome} {backlog : Backlog}
    {socket : ClientSocket}
    (hhear : state.hear request memoryBelowLimit dockerStderr events = some (outcomes, backlog))
    (hahead : NoneAhead state (some request) memoryBelowLimit dockerStderr events)
    (haccepted : acceptLoop acceptAttempts outcomes = some (some socket)) :
    socket.peer = request.launchName := by
  unfold Listening.hear at hhear
  split at hhear
  next hruns =>
      have hhead := peer_of_acceptEvents hhear haccepted
      exact hahead request rfl hruns socket.peer hhead
  next =>
      split at hhear
      · obtain ⟨rfl, rfl⟩ := Prod.mk.inj (Option.some.inj hhear)
        cases haccepted
      · cases hhear

/-- Attending keeps every socket with the container that opened it. -/
theorem identified_of_attend {state after : Listening} {first : Option Request}
    {memoryBelowLimit dockerStderr : Bool} {events : List AcceptEvent}
    {action : RequestEnv → Action}
    (hfirst : ∀ env env' request, Attends state.world (action env) env' request →
      env' = env ∧ first = some request)
    (hexit : ∀ env name, action env ≠ .exit name)
    (hidentified : Identified state)
    (hahead : NoneAhead state first memoryBelowLimit dockerStderr events)
    (hstep : state.attend first memoryBelowLimit dockerStderr events action = some after) :
    Identified after := by
  obtain ⟨request, rfl, hserve⟩ := Option.bind_eq_some_iff.mp hstep
  obtain ⟨⟨outcomes, backlog⟩, hhear, hmap⟩ := Option.bind_eq_some_iff.mp hserve
  obtain ⟨world, hworld, rfl⟩ := Option.map_eq_some_iff.mp hmap
  have hpeer : ∀ socket, acceptLoop acceptAttempts outcomes = some (some socket) →
      socket.peer = request.launchName := fun socket haccepted =>
    peer_of_hear hhear hahead haccepted
  have hrecords := records_iff.mp hidentified.records
  constructor
  · rw [records_iff]
    obtain hsame | ⟨name, hname, -⟩ | ⟨env, attended, socket, hattends, haccepted, hregistered⟩ :=
      clients_of_step hworld
    · rw [clientsOf, clientsOf] at hsame
      rw [hsame]
      exact hrecords
    · exact absurd hname (hexit _ name)
    · obtain ⟨rfl, hrequest⟩ := hfirst _ _ _ hattends
      obtain rfl := Option.some.inj hrequest
      rw [clientsOf, clientsOf] at hregistered
      rw [hregistered]
      exact identified_registered hrecords (hpeer socket haccepted)
  · intro thread hmem
    obtain hold | hnew := List.mem_append.mp hmem
    · exact hidentified.threads thread hold
    · unfold Listening.threadOf at hnew
      split at hnew
      next socket haccepted =>
          obtain rfl := List.mem_singleton.mp hnew
          exact hpeer socket haccepted
      next => cases hnew

/-- Other steps of the program store no socket. -/
theorem identified_of_other {state : Listening} {action : Action} {world : World}
    (hattend : ∀ env request, ¬ Attends state.world action env request)
    (hidentified : Identified state) (hworld : state.world.step action = some world) :
    Identified { state with world := world } := by
  have hrecords := records_iff.mp hidentified.records
  refine ⟨records_iff.mpr ?_, hidentified.threads⟩
  obtain hsame | ⟨name, -, herased⟩ | ⟨env, request, _, hattends, -⟩ := clients_of_step hworld
  · rw [clientsOf, clientsOf] at hsame
    rw [hsame]
    exact hrecords
  · rw [clientsOf, clientsOf] at herased
    rw [herased]
    exact fun other hmem => hrecords other (List.eraseP_subset hmem)
  · exact absurd hattends (hattend env request)

theorem identified_of_step {state after : Listening} {step : ListeningStep}
    (hidentified : Identified state) (hok : ListeningStepOk state step)
    (hstep : state.step step = some after) : Identified after := by
  cases step with
  | connect name =>
      obtain ⟨backlog, -, rfl⟩ := Option.map_eq_some_iff.mp hstep
      exact ⟨hidentified.records, hidentified.threads⟩
  | attendNew memoryBelowLimit dockerStderr events =>
      refine identified_of_attend ?_ ?_ hidentified hok hstep
      · rintro env env' request (⟨haction, hfirst⟩ | ⟨haction, -⟩)
        · exact ⟨(Action.attendNew.inj haction).symm, hfirst⟩
        · cases haction
      · intro env name haction
        cases haction
  | attendPending memoryBelowLimit dockerStderr events =>
      refine identified_of_attend ?_ ?_ hidentified hok hstep
      · rintro env env' request (⟨haction, -⟩ | ⟨haction, hfirst⟩)
        · cases haction
        · exact ⟨(Action.attendPending.inj haction).symm, hfirst⟩
      · intro env name haction
        cases haction
  | other action =>
      obtain ⟨hother, hmap⟩ := Option.ite_none_left_eq_some.mp hstep
      obtain ⟨world, hworld, rfl⟩ := Option.map_eq_some_iff.mp hmap
      refine identified_of_other ?_ hidentified hworld
      rintro env request (⟨rfl, -⟩ | ⟨rfl, -⟩) <;> exact hother rfl

/-! ## Whole runs -/

section Runs

variable {cores maxResourcesPerCont : ℤ} {policyClass : PolicyClass}
  {reassigmentType : ReassigmentType}

/-- **Identity of the client socket.** As long as no launch finds another
container's connection ahead, every stored socket was opened by its container. -/
theorem identified_of_reaches {state : Listening}
    (hreached : (listening cores maxResourcesPerCont policyClass reassigmentType).Reaches
      ListeningStepOk state) : Identified state := by
  refine hreached.invariant (P := Identified) ?_ ?_
  · exact ⟨by simp [listening, program, Scheduler.init], by simp [listening]⟩
  · exact fun source step target _ hsource hok hstep => identified_of_step hsource hok hstep

/-- Two containers are launched one after the other and connect in time. -/
theorem identified_after_two_launches : ∃ state : Listening,
    state.threads = [("instance0", "instance0"), ("instance1", "instance1")] ∧
      Identified state := by
  have hrun : ∃ state, (listening 8 16 .fcfs .strict).Reaches ListeningStepOk state ∧
      decide (state.threads = [("instance0", "instance0"), ("instance1", "instance1")]) = true :=
    Machine.exists_reaches
      [.other (.enqueue (.start "0" "tf" 1 1 0)), .other (.enqueue (.start "1" "tf" 1 1 0)),
        .attendNew true false [.timeout, .connect "instance0", .accept],
        .attendNew true false [.connect "instance1", .accept]]
      (by decide +kernel) (by decide +kernel)
  obtain ⟨state, hreached, hthreads⟩ := hrun
  exact ⟨state, of_decide_eq_true hthreads, identified_of_reaches hreached⟩

/-- A container that connects too late is taken for the next one. -/
theorem late_connection_misidentified :
    ¬ ∀ (cores maxResourcesPerCont : ℤ) (policyClass : PolicyClass)
      (reassigmentType : ReassigmentType) (state : Listening),
      (listening cores maxResourcesPerCont policyClass reassigmentType).Reaches
        Machine.Unguarded state → Identified state := by
  intro hclaim
  have hrun : ∃ state, (listening 8 16 .fcfs .strict).Reaches Machine.Unguarded state ∧
      decide (¬ Identified state) = true :=
    Machine.exists_reaches_unguarded
      [.other (.enqueue (.start "0" "tf" 1 1 0)), .other (.enqueue (.start "1" "tf" 1 1 0)),
        .attendNew true false [.timeout, .timeout, .timeout, .timeout, .timeout],
        .connect "instance0", .attendNew true false [.connect "instance1", .accept]]
      (by decide +kernel)
  obtain ⟨state, hreached, hbroken⟩ := hrun
  exact of_decide_eq_true hbroken (hclaim _ _ _ _ _ hreached)

end Runs

end ContainerScheduler.Analysis
