/-
# One connection

The thread of a container and its client program, joined by two FIFO channels. A
receive may time out at any time, whatever the channel holds.

The client answers a probe from a thread of its own, which has to be waiting when
the probe comes and which stops answering once the training has ended. The end of
the training is a signal, so `exit` can be put on the channel at any moment.
Declaring a failure runs `docker stop`; when that succeeds the client runs no
more.
-/

import ContainerScheduler.Math.Transition
import ContainerScheduler.Wire.ClientThread

namespace ContainerScheduler.Wire

open Math

/-- The thread, the two channels, how far the client has come, and what the
thread has done. The last field records whether a failure was declared after the
client had sent `exit`. -/
structure Connection where
  thread : ThreadPc
  toClient : List SchedulerMessage
  toScheduler : List ClientMessage
  clientRunning : Bool
  parametersReceived : Bool
  initSent : Bool
  probed : Bool
  exitSent : Bool
  finalize : Bool
  removed : Bool
  acked : Bool
  failedAfterExit : Bool
  deriving DecidableEq, Repr

/-- What happens next on a connection. -/
inductive ConnectionStep
  | sendParameters
  | sendUpdate
  | receive (env : ExitEnv) (stopped : Bool)
  | timeout (stopped : Bool)
  | clientReceive (waiting : Bool)
  | clientInit
  | clientReply (recent : Bool)
  | clientExit
  | clientFinalize
  deriving DecidableEq, Repr

namespace Connection

/-- The thread moves on with an effect. -/
def move (connection : Connection) (stopped : Bool) : ThreadPc × Effect → Connection
  | (thread, .nothing) => { connection with thread := thread }
  | (thread, .sendProbe) =>
      { connection with thread := thread, toClient := connection.toClient ++ [.probe] }
  | (thread, .finish) =>
      { connection with
        thread := thread
        removed := true
        acked := true
        toClient := connection.toClient ++ [.ack] }
  | (thread, .fail) =>
      { connection with
        thread := thread
        clientRunning := connection.clientRunning && !stopped
        failedAfterExit := connection.failedAfterExit || connection.exitSent }

/-- The client takes the next message. The first one holds the parameters; later
ones are read once the training runs, and a probe wakes the thread that answers
it if that thread is waiting. -/
def clientReceive (connection : Connection) (waiting : Bool) : Option Connection :=
  match connection.toClient with
  | [] => none
  | message :: messages =>
      let received := { connection with toClient := messages }
      if connection.parametersReceived then
        if connection.initSent then
          match message with
          | .probe => some { received with probed := received.probed || waiting }
          | _ => some received
        else none
      else some { received with parametersReceived := true }

/-- The answer to a probe: whether the log of the training was written recently. -/
def liveStatus (recent : Bool) : ClientMessage := if recent then .live else .error

/-- Put a client message on the channel. -/
def send (connection : Connection) (message : ClientMessage) : Connection :=
  { connection with toScheduler := connection.toScheduler ++ [message] }

def step (connection : Connection) : ConnectionStep → Option Connection
  | .sendParameters =>
      if connection.thread = .starting then
        some { connection with
          thread := .waitInit 0
          toClient := connection.toClient ++ [.parameters] }
      else none
  | .sendUpdate =>
      if connection.thread = .starting then none
      else some { connection with toClient := connection.toClient ++ [.update] }
  | .receive env stopped =>
      match connection.toScheduler with
      | [] => none
      | message :: messages =>
          (connection.thread.onMessage env message).map
            ({ connection with toScheduler := messages }.move stopped)
  | .timeout stopped => connection.thread.onTimeout.map (connection.move stopped)
  | .clientReceive waiting =>
      if connection.clientRunning then connection.clientReceive waiting else none
  | .clientInit =>
      if connection.clientRunning ∧ connection.parametersReceived ∧ ¬ connection.initSent then
        some ({ connection with initSent := true }.send .init)
      else none
  | .clientReply recent =>
      if connection.clientRunning ∧ connection.probed then
        -- a client that is finalizing answers no more
        if connection.finalize then some { connection with probed := false }
        else some ({ connection with probed := false }.send (liveStatus recent))
      else none
  | .clientExit =>
      if connection.clientRunning ∧ connection.initSent ∧ ¬ connection.exitSent then
        some ({ connection with exitSent := true }.send .exit)
      else none
  | .clientFinalize =>
      if connection.clientRunning ∧ connection.exitSent then
        some { connection with finalize := true }
      else none

end Connection

/-- A connection that was just accepted. -/
def connection : Machine Connection ConnectionStep where
  init := ⟨.starting, [], [], true, false, false, false, false, false, false, false, false⟩
  step := Connection.step

end ContainerScheduler.Wire
