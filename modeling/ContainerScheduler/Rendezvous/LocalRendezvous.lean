/-
# The local rendezvous

Senders and receivers meet under a key. `Send` gives its value to the first receive
that waits under the key, or queues it; `RecvAsync` takes the first value that waits,
or queues itself and registers a callback with its cancellation manager. The callback
looks for its token in the queue and completes the receive it finds. `StartAbort` takes
the whole table away and completes the receives in it.

What happens under the mutex is one step. A call of `done` is in flight from the
moment its item is off the queue until it runs, and other steps may come in between.
The table that an abort took away is the table of an earlier generation. Hashing, the
queues themselves, and values, which stand for a tensor with its sender's arguments,
are parameters. Child managers are left out: who cancels a manager does not matter here.
-/

import ContainerScheduler.Math.LinkedQueues
import ContainerScheduler.Math.Transition
import Mathlib.Algebra.Order.Ring.Int

namespace ContainerScheduler.Rendezvous

open Math

universe u

/-! ## Cancellation managers -/

abbrev CancellationToken := ℤ

/-- A value that `get_cancellation_token` does not return. -/
def kInvalidToken : CancellationToken := -1

/-- A cancellation manager. A callback of the rendezvous is the token and the hash of
the key that it captures; `callbacksToRun` is the local variable of `StartCancel`. -/
structure CancellationManager (η : Type u) where
  isCancelling : Bool
  isCancelled : Bool
  nextCancellationToken : CancellationToken
  callbacks : List (CancellationToken × η)
  callbacksToRun : List (CancellationToken × η)
  deriving DecidableEq, Repr

namespace CancellationManager

variable {η : Type u} (manager : CancellationManager η)

/-- A new manager, which is cancelled if its parent was. -/
def construct (isCancelled : Bool) : CancellationManager η := ⟨false, isCancelled, 0, [], []⟩

/-- `get_cancellation_token`: the next token is one more. -/
def takeToken : CancellationManager η :=
  { manager with nextCancellationToken := manager.nextCancellationToken + 1 }

/-- `should_register`. -/
def registers : Bool := !manager.isCancelled && !manager.isCancelling

def registerCallback (token : CancellationToken) (keyHash : η) : CancellationManager η :=
  if manager.registers then
    { manager with
      callbacks := (token, keyHash) :: manager.callbacks.filter fun callback => callback.1 ≠ token }
  else manager

def tryDeregisterCallback (token : CancellationToken) : CancellationManager η :=
  if manager.registers then
    { manager with callbacks := manager.callbacks.filter fun callback => callback.1 ≠ token }
  else manager

/-- `StartCancel` up to the first callback; it returns at once when the manager is
cancelled or another call is cancelling it. -/
def startCancel : CancellationManager η :=
  if manager.registers then
    { manager with isCancelling := true, callbacks := [], callbacksToRun := manager.callbacks }
  else manager

/-- `StartCancel` after the last callback. -/
def finishCancel : CancellationManager η :=
  { manager with isCancelling := false, isCancelled := true }

end CancellationManager

/-! ## Items and calls -/

/-- An item in a queue: a value, or a receive with its number, the manager its waiter
deregisters from, and its token. -/
inductive Item (τ μ : Type u)
  | send (value : τ) (isDead : Bool)
  | recv (receive : ℕ) (manager : Option μ) (token : CancellationToken)
  deriving DecidableEq, Repr

/-- What a call of `done` says. -/
inductive Outcome (τ ε : Type u)
  | ok (value : τ) (isDead : Bool)
  | cancelled
  | aborted (status : ε)
  deriving DecidableEq, Repr

/-- A call of `done` that has not been made. A waiter with a manager deregisters its
callback first. -/
structure Call (τ ε μ : Type u) where
  receive : ℕ
  deregisters : Option (μ × CancellationToken)
  outcome : Outcome τ ε
  deriving DecidableEq, Repr

namespace Item

variable {τ μ : Type u}

def isSend : Item τ μ → Bool
  | send .. => true
  | recv .. => false

/-- The test of the callback's loop. -/
def hasToken (token : CancellationToken) : Item τ μ → Bool
  | send .. => false
  | recv _ _ own => own = token

/-- The call of a waiter. -/
def call {ε : Type u} (receive : ℕ) (manager : Option μ) (token : CancellationToken)
    (outcome : Outcome τ ε) : Call τ ε μ :=
  ⟨receive, manager.map fun manager => (manager, token), outcome⟩

end Item

/-! ## States -/

/-- What has happened, which no step reads: the manager of each receive, what was sent
and who arrived under each key, what was delivered to whom, which receives cancellation
completed, which of them by the callback of which manager, the calls of `done`, and the
managers of which a call of `StartCancel` has returned. -/
structure History (τ ε μ κ : Type u) where
  issued : List (Option μ)
  sent : κ → List (τ × Bool)
  arrived : κ → List ℕ
  delivered : κ → List (ℕ × τ × Bool)
  cancelled : List ℕ
  hits : List (μ × ℕ)
  completed : List (ℕ × Outcome τ ε)
  returned : μ → Bool

/-- The rendezvous. The queue of a key in the table is named by the generation of the
table and the hash of the key; `aborts` has the status of each `StartAbort`, and the
table it took away. -/
structure State (Q τ ε μ κ η : Type u) where
  queues : Q
  status : Option ε
  aborts : List ε
  managers : μ → CancellationManager η
  calls : List (Call τ ε μ)
  history : History τ ε μ κ

/-- Who does what. A callback is picked by its place, since the map is in no order. -/
inductive Label (τ ε μ κ η : Type u)
  | send (key : κ) (value : τ) (isDead : Bool)
  | recvAsync (key : κ) (manager : Option μ)
  | tryDeregisterCallback (call : ℕ)
  | done (call : ℕ)
  | startAbort (status : ε)
  | abortItem (abort : ℕ) (keyHash : η)
  | getCancellationToken (manager : μ)
  | startCancel (manager : μ)
  | runCallback (manager : μ) (callback : ℕ)
  | finishCancel (manager : μ)
  deriving DecidableEq, Repr

section Steps

variable {Q τ ε μ κ η : Type u} (ops : QueueOps Q (ℕ × η) (Item τ μ)) (keyHash : κ → η)

namespace State

variable (state : State Q τ ε μ κ η)

/-- The generation of the table in use. -/
def generation : ℕ := state.aborts.length

/-- The name of a queue of the table in use. -/
def name (hash : η) : ℕ × η := (state.generation, hash)

/-- The number of the next receive. -/
def nextReceive : ℕ := state.history.issued.length

/-- Another table in its place. -/
def withQueues {Q' : Type u} (queues : Q') : State Q' τ ε μ κ η :=
  { queues, status := state.status, aborts := state.aborts, managers := state.managers
    calls := state.calls, history := state.history }

variable [DecidableEq μ] [DecidableEq κ]

/-- Change a manager. -/
def manage (manager : μ) (change : CancellationManager η → CancellationManager η) :
    State Q τ ε μ κ η :=
  { state with
    managers := Function.update state.managers manager (change (state.managers manager)) }

/-- A receive is issued. -/
def issue (key : κ) (manager : Option μ) : State Q τ ε μ κ η :=
  { state with
    history := { state.history with
      issued := state.history.issued ++ [manager]
      arrived := Function.update state.history.arrived key
        (state.history.arrived key ++ [state.nextReceive]) } }

/-- A value and a receive are matched. -/
def deliver (key : κ) (receive : ℕ) (value : τ) (isDead : Bool) : State Q τ ε μ κ η :=
  { state with
    history := { state.history with
      delivered := Function.update state.history.delivered key
        (state.history.delivered key ++ [(receive, value, isDead)]) } }

/-- A value is sent. -/
def post (key : κ) (value : τ) (isDead : Bool) : State Q τ ε μ κ η :=
  { state with
    history := { state.history with
      sent := Function.update state.history.sent key
        (state.history.sent key ++ [(value, isDead)]) } }

/-- A receive is cancelled. -/
def cancel (receive : ℕ) : State Q τ ε μ κ η :=
  { state with
    history := { state.history with cancelled := state.history.cancelled ++ [receive] } }

/-- A call of `StartCancel` has returned. -/
def finish (manager : μ) : State Q τ ε μ κ η :=
  { state with
    history := { state.history with
      returned := Function.update state.history.returned manager true } }

/-- A call of `done` is to be made. -/
def push (call : Call τ ε μ) : State Q τ ε μ κ η := { state with calls := state.calls ++ [call] }

end State

variable [DecidableEq μ] [DecidableEq κ]

/-- `Send`. It returns the status once the rendezvous is aborted. -/
def send (key : κ) (value : τ) (isDead : Bool) (state : State Q τ ε μ κ η) : State Q τ ε μ κ η :=
  match state.status with
  | some _ => state
  | none =>
      let name := state.name (keyHash key)
      let queues := ops.touch state.queues name
      let sent := state.post key value isDead
      match ops.front queues name with
      | some (.recv receive manager token) =>
          ((sent.deliver key receive value isDead).push
            (Item.call receive manager token (.ok value isDead))).withQueues
              (ops.popFront queues name)
      | _ => sent.withQueues (ops.pushBack queues name (.send value isDead))

/-- `RecvAsync` when no value waits: the callback is registered before the item is
queued, and the receive is cancelled at once when the manager refuses it. -/
def enqueue (key : κ) (receive : ℕ) (manager : Option μ) (queues : Q)
    (state : State Q τ ε μ κ η) : State Q τ ε μ κ η :=
  let name := state.name (keyHash key)
  match manager with
  | none => state.withQueues (ops.pushBack queues name (.recv receive none kInvalidToken))
  | some manager =>
      let token := (state.managers manager).nextCancellationToken
      let registered := state.manage manager fun record =>
        record.takeToken.registerCallback token (keyHash key)
      if (state.managers manager).registers then
        registered.withQueues (ops.pushBack queues name (.recv receive (some manager) token))
      else ((registered.cancel receive).push ⟨receive, none, .cancelled⟩).withQueues queues

/-- `RecvAsync`. -/
def recvAsync (key : κ) (manager : Option μ) (state : State Q τ ε μ κ η) : State Q τ ε μ κ η :=
  let receive := state.nextReceive
  let issued := state.issue key manager
  match state.status with
  | some status => issued.push ⟨receive, none, .aborted status⟩
  | none =>
      let name := state.name (keyHash key)
      let queues := ops.touch state.queues name
      match ops.front queues name with
      | some (.send value isDead) =>
          ((issued.deliver key receive value isDead).push
            ⟨receive, none, .ok value isDead⟩).withQueues (ops.popFront queues name)
      | _ => enqueue ops keyHash key receive manager queues issued

omit [DecidableEq κ] in
/-- The wrapper of a waiter before it calls `done`. -/
def deregister (index : ℕ) (state : State Q τ ε μ κ η) : Option (State Q τ ε μ κ η) := do
  let call ← state.calls[index]?
  let (manager, token) ← call.deregisters
  let deregistered := state.manage manager fun record => record.tryDeregisterCallback token
  pure { deregistered with calls := state.calls.set index { call with deregisters := none } }

omit [DecidableEq μ] [DecidableEq κ] in
/-- A call of `done`. -/
def done (index : ℕ) (state : State Q τ ε μ κ η) : Option (State Q τ ε μ κ η) := do
  let call ← state.calls[index]?
  if call.deregisters.isSome then none
  else
    pure { state with
      calls := state.calls.eraseIdx index
      history := { state.history with
        completed := state.history.completed ++ [(call.receive, call.outcome)] } }

/-- The locked part of `StartAbort`. `Update` keeps the first status. -/
def startAbort (status : ε) (state : State Q τ ε μ κ η) : State Q τ ε μ κ η :=
  { state with status := state.status.or (some status), aborts := state.aborts ++ [status] }

/-- One round of the loop of `StartAbort` over a queue of the table it took away. -/
def abortItem (abort : ℕ) (hash : η) (state : State Q τ ε μ κ η) :
    Option (State Q τ ε μ κ η) := do
  let status ← state.aborts[abort]?
  let item ← ops.front state.queues (abort, hash)
  let queues := ops.popFront state.queues (abort, hash)
  match item with
  | .send .. => pure (state.withQueues queues)
  | .recv receive manager token =>
      pure ((state.push (Item.call receive manager token (.aborted status))).withQueues queues)

/-- The cancellation callback. -/
def callback (manager : μ) (token : CancellationToken) (hash : η) (state : State Q τ ε μ κ η) :
    State Q τ ε μ κ η :=
  let name := state.name hash
  let queues := ops.touch state.queues name
  match ops.front queues name with
  | some (.recv ..) =>
      match ops.removeFirst queues name (Item.hasToken token) with
      | (some (.recv receive own token), queues) =>
          let cancelled := state.cancel receive
          let hit := { cancelled with
            history := { cancelled.history with
              hits := cancelled.history.hits ++ [(manager, receive)] } }
          (hit.push (Item.call receive own token .cancelled)).withQueues queues
      | (_, queues) => state.withQueues queues
  | _ => state.withQueues queues

/-- One round of the loop of `StartCancel` over the callbacks. -/
def runCallback (manager : μ) (index : ℕ) (state : State Q τ ε μ κ η) :
    Option (State Q τ ε μ κ η) := do
  let (token, hash) ← (state.managers manager).callbacksToRun[index]?
  let rest := state.manage manager fun record =>
    { record with callbacksToRun := record.callbacksToRun.eraseIdx index }
  pure (callback ops manager token hash rest)

/-- `StartCancel` up to the first callback. -/
def startCancel (manager : μ) (state : State Q τ ε μ κ η) : State Q τ ε μ κ η :=
  let started := state.manage manager CancellationManager.startCancel
  if (state.managers manager).registers then started else started.finish manager

/-- `StartCancel` after the last callback. -/
def finishCancel (manager : μ) (state : State Q τ ε μ κ η) : Option (State Q τ ε μ κ η) :=
  let record := state.managers manager
  if record.isCancelling ∧ record.callbacksToRun.isEmpty then
    some ((state.manage manager CancellationManager.finishCancel).finish manager)
  else none

def step (state : State Q τ ε μ κ η) : Label τ ε μ κ η → Option (State Q τ ε μ κ η)
  | .send key value isDead => some (send ops keyHash key value isDead state)
  | .recvAsync key manager => some (recvAsync ops keyHash key manager state)
  | .tryDeregisterCallback index => deregister index state
  | .done index => done index state
  | .startAbort status => some (startAbort status state)
  | .abortItem abort hash => abortItem ops abort hash state
  | .getCancellationToken manager => some (state.manage manager CancellationManager.takeToken)
  | .startCancel manager => some (startCancel manager state)
  | .runCallback manager index => runCallback ops manager index state
  | .finishCancel manager => finishCancel manager state

/-- A new rendezvous; some managers were constructed with a cancelled parent. -/
def initial (queues : Q) (bornCancelled : μ → Bool) : State Q τ ε μ κ η where
  queues
  status := none
  aborts := []
  managers manager := .construct (bornCancelled manager)
  calls := []
  history :=
    { issued := [], sent _ := [], arrived _ := [], delivered _ := [], cancelled := [], hits := []
      completed := [], returned _ := false }

def machine (queues : Q) (bornCancelled : μ → Bool) :
    Machine (State Q τ ε μ κ η) (Label τ ε μ κ η) where
  init := initial queues bornCancelled
  step := step ops keyHash

end Steps

/-! ## The table with pointers -/

section Table

variable {τ ε μ κ η : Type u} [DecidableEq μ] [DecidableEq κ] [DecidableEq η]

/-- The table of queues with pointers. -/
abbrev Table (τ μ η : Type u) := LinkedQueues (ℕ × η) (Item τ μ)

/-- The rendezvous as the code has it. -/
def localRendezvous (keyHash : κ → η) (bornCancelled : μ → Bool) :
    Machine (State (Table τ μ η) τ ε μ κ η) (Label τ ε μ κ η) :=
  machine LinkedQueues.ops keyHash .empty bornCancelled

/-- The same with lists for queues. -/
def listRendezvous (keyHash : κ → η) (bornCancelled : μ → Bool) :
    Machine (State (ℕ × η → List (Item τ μ)) τ ε μ κ η) (Label τ ε μ κ η) :=
  machine listOps keyHash (fun _ => []) bornCancelled

end Table

end ContainerScheduler.Rendezvous
