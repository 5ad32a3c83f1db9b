/-
# The end of a client

TensorFlow signals its end. The handler of the signal sends `exit` to the scheduler
and then sets the flag `finalize`. The scheduler acknowledges, which ends the socket
thread; that releases the semaphore once more, so that the update thread looks at
the flag. When the update thread finds it set, it notifies the live control, which
sleeps on a condition variable, and ends. A notify that finds nobody asleep is gone.

The mutex of the flag is held beyond one step only by the update thread, while it
notifies. What an update applies is left out here, and so is the lock of the
condition variable, which is never held beyond a step.
-/

import ContainerScheduler.Client.Updates

namespace ContainerScheduler.Client

open Math

/-! ## Threads -/

/-- Where `receiveSignal` stands: not called, between the `exit` it sent and the
flag, or done. -/
inductive HandlerPc
  | idle
  | exitSent
  | done
  deriving DecidableEq, Repr

/-- Where `attention_socket` stands: before a receive, before its last release, or
ended. -/
inductive ReceiverPc
  | receiving
  | ending
  | ended
  deriving DecidableEq, Repr

/-- Where `attentionUpdate` stands: in the update it begins with, before testing
the flag, before acquiring the semaphore, at an update, before notifying, or ended. -/
inductive UpdaterPc
  | starting
  | testing
  | acquiring
  | applying
  | notifying
  | ended
  deriving DecidableEq, Repr

/-- Where `live_control` stands: before testing the flag, between the test and the
wait, asleep, before testing the flag again, at the reply to a probe, or ended. -/
inductive LivePc
  | testing
  | entering
  | waiting
  | woken
  | replying
  | ended
  deriving DecidableEq, Repr

/-- What a notify does to the live control. -/
def LivePc.notified : LivePc → LivePc
  | waiting => woken
  | pc => pc

/-! ## The machine -/

/-- The client and the messages on their way to it. -/
structure Shutdown where
  handler : HandlerPc
  socket : ReceiverPc
  update : UpdaterPc
  live : LivePc
  finalize : Bool
  cvUpdate : ℕ
  toClient : List Parallelism
  acked : Bool
  deriving DecidableEq, Repr

/-- The scheduler sends an update or a probe, or acknowledges the `exit`;
TensorFlow ends; or a thread or the handler goes on. The live control hears whether
it could read the age of the log and send its reply. -/
inductive ShutdownStep
  | send (message : Parallelism)
  | ack
  | signal
  | handler
  | socket
  | update
  | live (replied : Bool)
  deriving DecidableEq, Repr

namespace Shutdown

/-- The scheduler sends nothing after it has acknowledged. -/
def send (client : Shutdown) (message : Parallelism) : Option Shutdown :=
  if client.acked = false ∧ message.interParallelism ≠ -1 then
    some { client with toClient := client.toClient ++ [message] }
  else none

def ack (client : Shutdown) : Option Shutdown :=
  if client.acked = false ∧ client.handler ≠ .idle then
    some { client with acked := true, toClient := client.toClient ++ [⟨-1, -1⟩] }
  else none

/-- One message of `attention_socket`, or its end. -/
def socketStep (client : Shutdown) : Option Shutdown :=
  match client.socket with
  | .receiving =>
      match client.toClient with
      | [] => none
      | message :: toClient => some { client with
          toClient := toClient
          socket := if message.interParallelism = -1 then .ending else .receiving
          cvUpdate := if 0 < message.interParallelism ∨ 0 < message.intraParallelism then
            client.cvUpdate + 1 else client.cvUpdate
          live := if message.interParallelism = -2 then client.live.notified else client.live }
  | .ending => some { client with socket := .ended, cvUpdate := client.cvUpdate + 1 }
  | .ended => none

/-- The next step of `attentionUpdate`. -/
def updateStep (client : Shutdown) : Option Shutdown :=
  match client.update with
  | .starting | .applying => some { client with update := .testing }
  | .testing =>
      some { client with update := if client.finalize then .notifying else .acquiring }
  | .acquiring =>
      if client.cvUpdate = 0 then none
      else some { client with cvUpdate := client.cvUpdate - 1, update := .applying }
  | .notifying => some { client with live := client.live.notified, update := .ended }
  | .ended => none

/-- The next step of `live_control`. Both tests need the mutex of the flag. -/
def liveStep (client : Shutdown) (replied : Bool) : Option Shutdown :=
  match client.live with
  | .testing =>
      if client.update = .notifying then none
      else some { client with live := if client.finalize then .ended else .entering }
  | .entering => some { client with live := .waiting }
  | .woken =>
      if client.update = .notifying then none
      else some { client with live := if client.finalize then .ended else .replying }
  | .replying => some { client with live := if replied then .testing else .ended }
  | .waiting | .ended => none

def step (client : Shutdown) : ShutdownStep → Option Shutdown
  | .send message => client.send message
  | .ack => client.ack
  | .signal =>
      if client.handler = .idle then some { client with handler := .exitSent } else none
  | .handler =>
      if client.handler = .exitSent ∧ client.update ≠ .notifying then
        some { client with handler := .done, finalize := true }
      else none
  | .socket => client.socketStep
  | .update => client.updateStep
  | .live replied => client.liveStep replied

/-- Every thread has ended. -/
def Ended (client : Shutdown) : Prop :=
  client.socket = .ended ∧ client.update = .ended ∧ client.live = .ended

instance (client : Shutdown) : Decidable client.Ended := by
  unfold Ended
  infer_instance

/-- The `exit` was sent and acknowledged and the flag is set, some thread has not
ended, and neither a thread nor the handler can go on. -/
def Stuck (client : Shutdown) : Prop :=
  client.handler ≠ .idle ∧ client.acked = true ∧ client.finalize = true ∧ ¬ client.Ended ∧
    client.step .handler = none ∧ client.step .socket = none ∧ client.step .update = none ∧
    ∀ replied, client.step (.live replied) = none

instance (client : Shutdown) : Decidable client.Stuck := by
  unfold Stuck
  infer_instance

end Shutdown

/-- The client once its threads were started. -/
def shutdown : Machine Shutdown ShutdownStep where
  init := ⟨.idle, .receiving, .starting, .testing, false, 0, [], false⟩
  step := Shutdown.step

end ContainerScheduler.Client
