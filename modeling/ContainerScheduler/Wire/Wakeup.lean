/-
# Waking the attention thread

The attention thread sleeps on a condition variable. The generator notifies it
after it has queued a request, and a client thread notifies it twice: once when
its container has exited or failed, and once more as the last thing it does. A
notify that finds nobody asleep is gone.

This is the level at which the threads see each other. A request is known by its
class, by the parallelism it asks for and by the number of free cores with which
it can be attended; what it is charged, whether Docker or the memory refuse it and
how many cores are reassigned are part of a label. The queues are read in service
order. Freeing the share of a finished container waits until its thread has ended.
-/

import ContainerScheduler.Math.Transition
import Mathlib.Algebra.BigOperators.Group.List.Basic
import Mathlib.Algebra.Order.Ring.Int

namespace ContainerScheduler.Wire

open Math

/-! ## Threads -/

/-- Where the attention thread stands. After the wait it drains the finished
containers, joining the thread of each, and then attends the queues. -/
inductive AttentionPc
  | evaluating
  | entering
  | waiting
  | draining
  | joining (client : ℕ)
  | attending
  | finished
  deriving DecidableEq, Repr

inductive GeneratorPc
  | idle
  | notifying
  | ended
  deriving DecidableEq, Repr

/-- The generator owes a notify for the request it queued. -/
def GeneratorPc.due : GeneratorPc → ℕ
  | notifying => 1
  | idle | ended => 0

/-- Where a client thread stands: its container runs; it exited and the share was
queued; that was notified; its name was dropped and the last notify is left. A
failure is notified at once, and the name stays. -/
inductive ClientPc
  | running
  | finishing
  | failing
  | notified
  | leaving
  | ended
  deriving DecidableEq, Repr

/-- The notifies a client thread has still to perform for what it did. -/
def ClientPc.due : ClientPc → ℕ
  | finishing | failing => 2
  | notified | leaving => 1
  | running | ended => 0

/-! ## Requests -/

inductive RequestClass
  | start
  | update
  | restart
  deriving DecidableEq, Repr

/-- A queued request: `needs` is the least number of free cores with which it is
attended. -/
structure QueuedRequest where
  requestClass : RequestClass
  asks : ℤ
  needs : ℤ
  deriving DecidableEq, Repr

/-- The free cores are enough to attend the request. One that needs none reserves
nothing and is never attended. -/
def CanAttend (free : ℤ) (request : QueuedRequest) : Prop :=
  0 < request.needs ∧ request.needs ≤ free

instance (free : ℤ) (request : QueuedRequest) : Decidable (CanAttend free request) := by
  unfold CanAttend
  infer_instance

/-- What a pass hears from its surroundings: for each request it tries, the cores
it is charged when it is attended and whether it is refused all the same; and the
cores it reassigns in the end. -/
structure PassEnv where
  charges : ℕ → ℤ
  refused : ℕ → Bool
  reassigned : ℤ

/-- A loop over a queue: the free cores left, the number of requests tried, the
requests that were not attended and the classes of those that were. -/
structure Served where
  free : ℤ
  tried : ℕ
  kept : List QueuedRequest
  attended : List RequestClass

/-- Try the requests of a queue in order. -/
def serveAll (env : PassEnv) : ℤ → ℕ → List QueuedRequest → Served
  | free, tried, [] => ⟨free, tried, [], []⟩
  | free, tried, request :: requests =>
      if CanAttend free request ∧ env.refused tried = false then
        let rest := serveAll env (free - env.charges tried) (tried + 1) requests
        { rest with attended := request.requestClass :: rest.attended }
      else
        let rest := serveAll env free (tried + 1) requests
        { rest with kept := request :: rest.kept }

/-! ## The machine -/

structure Wakeup where
  attention : AttentionPc
  generator : GeneratorPc
  clients : List ClientPc
  qFinishContainer : List (ℤ × ℕ)
  containerNames : ℕ
  free : ℤ
  new : List QueuedRequest
  pending : List QueuedRequest
  deriving DecidableEq, Repr

/-- The next move of some thread. -/
inductive WakeupStep
  | evaluate
  | wait
  | popFinished
  | join
  | drained (reassigned : ℤ)
  | attend (env : PassEnv)
  | enqueue (request : QueuedRequest)
  | notify
  | terminate
  | exit (client : ℕ) (share : ℤ)
  | fail (client : ℕ) (share : ℤ) (restart : QueuedRequest)
  | clientNotify (client : ℕ)
  | dropName (client : ℕ)

namespace Wakeup

/-- `is_finish_attention`. -/
def isFinishAttention (state : Wakeup) : Prop :=
  state.pending = [] ∧ state.new = [] ∧ state.generator = .ended ∧ state.containerNames = 0

instance (state : Wakeup) : Decidable state.isFinishAttention := by
  unfold isFinishAttention
  infer_instance

/-- `cv_attention.notify()`. -/
def wake (state : Wakeup) : Wakeup :=
  if state.attention = .waiting then { state with attention := .draining } else state

/-- Set where a client thread stands. -/
def setClient (state : Wakeup) (client : ℕ) (pc : ClientPc) : Wakeup :=
  { state with clients := state.clients.set client pc }

/-- Every attended launch starts a client thread, and every attended `Start` lists
a name. -/
def launch (state : Wakeup) (attended : List RequestClass) : Wakeup :=
  { state with
    clients := state.clients ++
      (attended.filter (· ≠ .update)).map fun _ => ClientPc.running
    containerNames := state.containerNames + attended.count .start }

/-- Try the pending requests, which stay pending when they are not attended. -/
def attendPending (state : Wakeup) (env : PassEnv) : Wakeup × ℕ :=
  if 0 < state.free then
    let served := serveAll env state.free 0 state.pending
    ({ state with free := served.free, pending := served.kept }.launch served.attended,
      served.tried)
  else (state, 0)

/-- Try the new requests, which become pending unless they ask for more than the
machine has. -/
def attendNew (cores : ℤ) (state : Wakeup) (env : PassEnv) (tried : ℕ) : Wakeup :=
  if 0 < state.free then
    let served := serveAll env state.free tried state.new
    let kept := served.kept.filter fun request => request.asks ≤ cores
    { state with free := served.free, new := [], pending := state.pending ++ kept }.launch
      served.attended
  else state

/-- Attend the queues and reassign what is left. -/
def attend (cores : ℤ) (state : Wakeup) (env : PassEnv) : Wakeup :=
  let tried := state.attendPending env
  let served := attendNew cores tried.1 env tried.2
  { served with attention := .evaluating, free := served.free - env.reassigned }

def step (cores : ℤ) (state : Wakeup) : WakeupStep → Option Wakeup
  | .evaluate =>
      if state.attention = .evaluating then
        some { state with attention := if state.isFinishAttention then .finished else .entering }
      else none
  | .wait =>
      if state.attention = .entering then some { state with attention := .waiting } else none
  | .popFinished =>
      match state.attention, state.qFinishContainer with
      | .draining, (resourcesFree, client) :: finished =>
          some { state with
            attention := .joining client
            qFinishContainer := finished
            free := state.free + resourcesFree }
      | _, _ => none
  | .join =>
      match state.attention with
      | .joining client =>
          if state.clients[client]? = some .ended then some { state with attention := .draining }
          else none
      | _ => none
  | .drained reassigned =>
      if state.attention = .draining ∧ state.qFinishContainer = [] then
        some { state with attention := .attending, free := state.free - reassigned }
      else none
  | .attend env => if state.attention = .attending then some (attend cores state env) else none
  | .enqueue request =>
      if state.generator = .idle ∧ request.requestClass ≠ .restart then
        some { state with generator := .notifying, new := state.new ++ [request] }
      else none
  | .notify =>
      if state.generator = .notifying then some { state with generator := .idle }.wake else none
  | .terminate => if state.generator = .idle then some { state with generator := .ended } else none
  | .exit client share =>
      if state.clients[client]? = some .running then
        some ({ state with
          qFinishContainer := state.qFinishContainer ++ [(share, client)] }.setClient client
            .finishing)
      else none
  | .fail client share restart =>
      if state.clients[client]? = some .running ∧ restart.requestClass = .restart then
        some ({ state with
          free := state.free + share
          new := state.new ++ [restart] }.setClient client .failing)
      else none
  | .clientNotify client =>
      match state.clients[client]? with
      | some .finishing => some (state.setClient client .notified).wake
      | some .failing => some (state.setClient client .leaving).wake
      | some .leaving => some (state.setClient client .ended).wake
      | _ => none
  | .dropName client =>
      if state.clients[client]? = some .notified then
        some ({ state with containerNames := state.containerNames - 1 }.setClient client .leaving)
      else none

end Wakeup

/-- The threads at the start: nothing is queued, all cores are free and no
container was started. -/
def wakeup (cores : ℤ) : Machine Wakeup WakeupStep where
  init := ⟨.evaluating, .idle, [], [], 0, cores, [], []⟩
  step := Wakeup.step cores

end ContainerScheduler.Wire
