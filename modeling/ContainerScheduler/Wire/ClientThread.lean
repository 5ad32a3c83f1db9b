/-
# The thread that serves a container

Each started container has a thread in the scheduler, `container_client`. It
sends the parameters, waits for the first message and then for the end of the
training. A receive that times out there is followed by a probe and one more
receive, whose answer decides whether the container lives.

The thread is a program over received messages and time-outs. What it does to
the rest of the scheduler is an effect, so that a single connection and a
container with several incarnations run the same program.
-/

import Mathlib.Data.Nat.Notation

namespace ContainerScheduler.Wire

/-- The status messages of a client. -/
inductive ClientMessage
  | init
  | live
  | error
  | exit
  deriving DecidableEq, Repr

/-- The messages of the scheduler: the parameters, a change of the parallelism,
the probe `-2` and the acknowledgement `-1`. -/
inductive SchedulerMessage
  | parameters
  | update
  | probe
  | ack
  deriving DecidableEq, Repr

/-- Where the thread stands. -/
inductive ThreadPc
  | starting
  | waitInit (attempts : ℕ)
  | waitMessage
  | waitLive
  | ended
  deriving DecidableEq, Repr

/-- What a move of the thread does to the rest of the scheduler: `finish` is
`remove_container` and the acknowledgement, `fail` is
`container_failed_attention`. -/
inductive Effect
  | nothing
  | sendProbe
  | finish
  | fail
  deriving DecidableEq, Repr

/-- What the handling of an `exit` message depends on: whether the epochs of the
training can be read from their file, and whether the record is found. -/
structure ExitEnv where
  epochsReadable : Bool
  listed : Bool
  deriving DecidableEq, Repr

/-- The time-outs after which a container is taken for not started. -/
def initAttempts : ℕ := 10

namespace ThreadPc

/-- A receive times out. The tenth time-out before the first message declares the
failure, and the loop goes on from zero attempts. -/
def onTimeout : ThreadPc → Option (ThreadPc × Effect)
  | waitInit attempts =>
      if attempts + 1 = initAttempts then some (waitInit 0, .fail)
      else some (waitInit (attempts + 1), .nothing)
  | waitMessage => some (waitLive, .sendProbe)
  | waitLive => some (ended, .fail)
  | starting | ended => none

/-- A message arrives. Any first message counts as the start of the container,
and any reply but `live` as its death. An `exit` that cannot be handled raises,
which is printed, and the loop goes on. -/
def onMessage (env : ExitEnv) : ThreadPc → ClientMessage → Option (ThreadPc × Effect)
  | waitInit _, _ => some (waitMessage, .nothing)
  | waitMessage, .exit =>
      if env.epochsReadable ∧ env.listed then some (ended, .finish)
      else some (waitMessage, .nothing)
  | waitMessage, _ => some (waitMessage, .nothing)
  | waitLive, .live => some (waitMessage, .nothing)
  | waitLive, _ => some (ended, .fail)
  | starting, _ | ended, _ => none

end ThreadPc

end ContainerScheduler.Wire
