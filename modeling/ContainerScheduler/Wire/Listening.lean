/-
# The listening socket

All containers connect to one listening socket. A connection waits in its backlog
until it is accepted, and `accept` hands out the one that has waited longest,
whoever opened it. Nothing in the first messages says which container that was.

The scheduler program runs here with a backlog. What the accept loop of a launch
sees is no longer part of the environment: it is computed from the connections
that wait and from those that arrive while the loop runs. A started container
connects once, at any later time or never.
-/

import ContainerScheduler.Host.Program

namespace ContainerScheduler.Wire

open Host Math

/-! ## The backlog -/

/-- The connections that wait, by the containers that opened them, and the
started containers whose client has not connected yet. -/
structure Backlog where
  waiting : List String
  unconnected : List String
  deriving DecidableEq, Repr

namespace Backlog

/-- Docker starts a container. -/
def started (backlog : Backlog) (containerName : String) : Backlog :=
  { backlog with unconnected := containerName :: backlog.unconnected }

/-- A started container opens its connection. -/
def connect (backlog : Backlog) (containerName : String) : Option Backlog :=
  if containerName ∈ backlog.unconnected then
    some ⟨backlog.waiting ++ [containerName], backlog.unconnected.erase containerName⟩
  else none

end Backlog

/-- What happens while an accept loop runs. -/
inductive AcceptEvent
  | connect (containerName : String)
  | accept
  | timeout
  | error
  deriving DecidableEq, Repr

/-- The containers that connect, in order. -/
def arrivals (events : List AcceptEvent) : List String :=
  events.filterMap fun
    | .connect containerName => some containerName
    | _ => none

/-- What an accept loop with some time-outs left sees, and the backlog it leaves.
A call times out only when nothing waits; the loop ends with the first connection
or with the last time-out. -/
def acceptEvents : ℕ → List AcceptEvent → Backlog → Option (List AcceptOutcome × Backlog)
  | 0, [], backlog => some ([], backlog)
  | remaining + 1, .connect containerName :: events, backlog =>
      (backlog.connect containerName).bind fun backlog =>
        acceptEvents (remaining + 1) events backlog
  | remaining + 1, .timeout :: events, backlog =>
      if backlog.waiting = [] then
        (acceptEvents remaining events backlog).map fun (outcomes, backlog) =>
          (.timeout :: outcomes, backlog)
      else none
  | remaining + 1, .error :: events, backlog =>
      (acceptEvents (remaining + 1) events backlog).map fun (outcomes, backlog) =>
        (.error :: outcomes, backlog)
  | _ + 1, [.accept], backlog =>
      match backlog.waiting with
      | [] => none
      | peer :: waiting => some ([.connected ⟨peer, false⟩], { backlog with waiting := waiting })
  | _, _, _ => none

/-- The loop accepts the connection that has waited longest, or, when none waits,
the first to arrive. -/
theorem peer_of_acceptEvents {remaining : ℕ} {events : List AcceptEvent} {backlog after : Backlog}
    {outcomes : List AcceptOutcome} {socket : ClientSocket}
    (hevents : acceptEvents remaining events backlog = some (outcomes, after))
    (haccepted : acceptLoop remaining outcomes = some (some socket)) :
    (backlog.waiting ++ arrivals events).head? = some socket.peer := by
  fun_induction acceptEvents remaining events backlog generalizing outcomes after with
  | case1 backlog =>
      obtain ⟨rfl, rfl⟩ := Prod.mk.inj (Option.some.inj hevents)
      cases haccepted
  | case2 remaining containerName events backlog ih =>
      obtain ⟨connected, hconnect, hrest⟩ := Option.bind_eq_some_iff.mp hevents
      have hhead := ih connected hrest haccepted
      unfold Backlog.connect at hconnect
      split at hconnect
      · obtain rfl := Option.some.inj hconnect
        simpa [arrivals] using hhead
      · cases hconnect
  | case3 remaining events backlog hempty ih =>
      obtain ⟨⟨rest, final⟩, hrest, heq⟩ := Option.map_eq_some_iff.mp hevents
      obtain ⟨rfl, rfl⟩ := Prod.mk.inj heq
      simpa [arrivals] using ih hrest haccepted
  | case4 => cases hevents
  | case5 remaining events backlog ih =>
      obtain ⟨⟨rest, final⟩, hrest, heq⟩ := Option.map_eq_some_iff.mp hevents
      obtain ⟨rfl, rfl⟩ := Prod.mk.inj heq
      simpa [arrivals] using ih hrest haccepted
  | case6 => cases hevents
  | case7 remaining backlog peer waiting hwaiting =>
      obtain ⟨rfl, rfl⟩ := Prod.mk.inj (Option.some.inj hevents)
      obtain rfl := Option.some.inj (Option.some.inj haccepted)
      simp [hwaiting]
  | case8 => cases hevents

/-! ## The scheduler with its listening socket -/

/-- Whether the attendance of a request reaches `docker run` and that succeeds. -/
def runsDocker (scheduler : Scheduler) (request : Request)
    (memoryBelowLimit dockerStderr : Bool) : Bool :=
  match request with
  | .start .. | .restart .. =>
      scheduler.reservation request ≠ 0 ∧
        (scheduler.share (scheduler.reservation request) request.getInterParallelism
          request.getIntraParallelism).isSome ∧ memoryBelowLimit ∧ ¬ dockerStderr
  | _ => false

/-- The program, the backlog of its socket, and the containers that have a client
thread with the peers of the sockets these threads were given. -/
structure Listening where
  world : World
  backlog : Backlog
  threads : List (String × String)
  deriving DecidableEq, Repr

/-- What happens next: a container connects while none is being launched, a
request is attended, or another step of the program. -/
inductive ListeningStep
  | connect (containerName : String)
  | attendNew (memoryBelowLimit dockerStderr : Bool) (events : List AcceptEvent)
  | attendPending (memoryBelowLimit dockerStderr : Bool) (events : List AcceptEvent)
  | other (action : Action)
  deriving DecidableEq, Repr

/-- Whether a step of the program attends a request. -/
def attendsRequest : Action → Bool
  | .attendNew _ | .attendPending _ => true
  | _ => false

namespace Listening

/-- What the attendance of a request hears from the socket. -/
def hear (state : Listening) (request : Request) (memoryBelowLimit dockerStderr : Bool)
    (events : List AcceptEvent) : Option (List AcceptOutcome × Backlog) :=
  if runsDocker state.world.scheduler request memoryBelowLimit dockerStderr then
    acceptEvents acceptAttempts events (state.backlog.started request.launchName)
  else if events = [] then some ([], state.backlog)
  else none

/-- The client thread started for the connection that was accepted, if any. -/
def threadOf (request : Request) (outcomes : List AcceptOutcome) : List (String × String) :=
  match acceptLoop acceptAttempts outcomes with
  | some (some socket) => [(request.launchName, socket.peer)]
  | _ => []

/-- Attend the first request of a queue. -/
def attend (state : Listening) (first : Option Request) (memoryBelowLimit dockerStderr : Bool)
    (events : List AcceptEvent) (action : RequestEnv → Action) : Option Listening :=
  first.bind fun request =>
    (state.hear request memoryBelowLimit dockerStderr events).bind fun (outcomes, backlog) =>
      (state.world.step (action ⟨memoryBelowLimit, dockerStderr, outcomes⟩)).map fun world =>
        ⟨world, backlog, state.threads ++ threadOf request outcomes⟩

def step (state : Listening) : ListeningStep → Option Listening
  | .connect containerName =>
      (state.backlog.connect containerName).map fun backlog => { state with backlog := backlog }
  | .attendNew memoryBelowLimit dockerStderr events =>
      state.attend state.world.scheduler.schedulerContainer.newRequests.head? memoryBelowLimit
        dockerStderr events .attendNew
  | .attendPending memoryBelowLimit dockerStderr events =>
      state.attend state.world.scheduler.schedulerContainer.pendingRequests.head?
        memoryBelowLimit dockerStderr events .attendPending
  | .other action =>
      if attendsRequest action then none
      else (state.world.step action).map fun world => { state with world := world }

end Listening

/-- The program on its machine, with nothing waiting on the socket. -/
def listening (cores maxResourcesPerCont : ℤ) (policyClass : PolicyClass)
    (reassigmentType : ReassigmentType) : Machine Listening ListeningStep where
  init := ⟨(program cores maxResourcesPerCont policyClass reassigmentType).init, ⟨[], []⟩, []⟩
  step := Listening.step

end ContainerScheduler.Wire
