/-
# The incarnations of a container

A container that is declared failed is started again by a `Restart`, and each
start gives it a new client thread on a new connection. A thread that declared the
failure while it waited for the first message is not ended by that: it goes on
with its old connection while the next thread serves the new one.

All threads of one container run the program of `ClientThread`. A message may
arrive, and a receive may time out, at any time. What a declared failure and an
exit do to the scheduler depends on whether the record of the container is still
listed.
-/

import ContainerScheduler.Math.Transition
import ContainerScheduler.Wire.ClientThread

namespace ContainerScheduler.Wire

open Math

/-- One client thread of the container, and whether it has declared a failure. -/
structure ClientThread where
  pc : ThreadPc
  declared : Bool
  deriving DecidableEq, Repr

/-- The threads of a container in the order of their starts, whether its record is
listed, how many of its `Restart` requests are queued or running, and what has
happened since its last start: the failures declared and the times its cores were
freed. -/
structure Incarnations where
  threads : List ClientThread
  listed : Bool
  restarts : ℕ
  failures : ℕ
  freed : ℕ
  deriving DecidableEq, Repr

/-- What happens next to the container. -/
inductive IncarnationStep
  | begin (thread : ℕ)
  | message (thread : ℕ) (epochsReadable : Bool) (message : ClientMessage)
  | timeout (thread : ℕ)
  | restart
  deriving DecidableEq, Repr

namespace Incarnations

/-- A thread moves on with an effect. Declaring the failure of a container that is
not listed raises, which ends the thread. -/
def move (state : Incarnations) (index : ℕ) (thread : ClientThread) :
    ThreadPc × Effect → Incarnations
  | (pc, .nothing) | (pc, .sendProbe) =>
      { state with threads := state.threads.set index { thread with pc := pc } }
  | (pc, .finish) =>
      { state with
        threads := state.threads.set index { thread with pc := pc }
        listed := false
        freed := state.freed + 1 }
  | (pc, .fail) =>
      if state.listed then
        { state with
          threads := state.threads.set index ⟨pc, true⟩
          restarts := state.restarts + 1
          failures := state.failures + 1
          freed := state.freed + 1 }
      else
        { state with
          threads := state.threads.set index ⟨.ended, true⟩
          failures := state.failures + 1 }

/-- What the program of a thread does next. -/
def onStep (state : Incarnations) (thread : ClientThread) :
    IncarnationStep → Option (ThreadPc × Effect)
  | .begin _ => if thread.pc = .starting then some (.waitInit 0, .nothing) else none
  | .message _ epochsReadable message =>
      thread.pc.onMessage ⟨epochsReadable, state.listed⟩ message
  | .timeout _ => thread.pc.onTimeout
  | .restart => none

/-- The thread that a step belongs to. -/
def threadOf : IncarnationStep → Option ℕ
  | .begin thread | .message thread .. | .timeout thread => some thread
  | .restart => none

/-- A `Restart` that is served starts the next thread. -/
def restarted (state : Incarnations) : Incarnations :=
  { state with
    threads := state.threads ++ [⟨.starting, false⟩]
    restarts := state.restarts - 1
    failures := 0
    freed := 0 }

def step (state : Incarnations) (label : IncarnationStep) : Option Incarnations :=
  match threadOf label with
  | none => if 0 < state.restarts then some state.restarted else none
  | some index =>
      state.threads[index]?.bind fun thread =>
        (state.onStep thread label).map (state.move index thread)

end Incarnations

/-- A container that was started for the first time. -/
def incarnations : Machine Incarnations IncarnationStep where
  init := ⟨[⟨.starting, false⟩], true, 0, 0, 0⟩
  step := Incarnations.step

end ContainerScheduler.Wire
