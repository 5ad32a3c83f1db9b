/-
# Updates of the parallelism in the client

The client of a container has a thread that reads messages and one that applies
them. The first stores each positive value under the mutex of its kind and then
releases a semaphore; the second acquires the semaphore and, under each mutex in
turn, applies the stored value and resets it to zero. Values that arrive while the
second thread is busy overwrite each other.

Each acquisition of a mutex is a step, and so is each value that a progressive
update writes, because both threads run between them. The malleable version of
TensorFlow is in use and the container has not been told to finish. The file of the
parallelism can always be read and written.
-/

import ContainerScheduler.Math.Transition
import Mathlib.Algebra.Order.Ring.Int

namespace ContainerScheduler.Client

open Math

/-! ## Values -/

/-- The two kinds of parallelism. -/
inductive Kind
  | inter
  | intra
  deriving DecidableEq, Repr

/-- A value for each kind: a message, the stored values, or the line of the file. -/
structure Parallelism where
  interParallelism : ℤ
  intraParallelism : ℤ
  deriving DecidableEq, Repr

namespace Parallelism

def get (values : Parallelism) : Kind → ℤ
  | .inter => values.interParallelism
  | .intra => values.intraParallelism

def set (values : Parallelism) (kind : Kind) (value : ℤ) : Parallelism :=
  match kind with
  | .inter => { values with interParallelism := value }
  | .intra => { values with intraParallelism := value }

@[simp]
theorem get_set_self (values : Parallelism) (kind : Kind) (value : ℤ) :
    (values.set kind value).get kind = value := by
  cases kind <;> rfl

theorem get_set_of_ne (values : Parallelism) {kind other : Kind} (hne : other ≠ kind)
    (value : ℤ) : (values.set kind value).get other = values.get other := by
  cases kind <;> cases other <;> first | rfl | exact absurd rfl hne

end Parallelism

/-- The next value a progressive update writes: an increase is made at once, a
decrease by halves. -/
def nextParallelism (parallelismOld parallelismNew : ℤ) : ℤ :=
  if parallelismOld < parallelismNew ∨ parallelismOld - 1 < parallelismNew then parallelismNew
  else parallelismOld.tdiv 2

/-- The values that a progressive update writes until it stops, each followed by a signal;
`none` when it does not stop within the fuel. -/
def progressiveUpdateThreads (parallelismNew : ℤ) : ℕ → ℤ → Option (List ℤ)
  | 0, _ => none
  | fuel + 1, parallelismOld =>
      if parallelismOld = parallelismNew then some []
      else
        let written := nextParallelism parallelismOld parallelismNew
        (progressiveUpdateThreads parallelismNew fuel written).map (written :: ·)

/-! ## Threads -/

/-- Where `attention_socket` stands: before a receive, before each of the two
stores and the release for a message, before the release at its end, or ended. -/
inductive SocketPc
  | receiving
  | storing (kind : Kind) (message : Parallelism)
  | releasing (message : Parallelism)
  | ending
  | ended
  deriving DecidableEq, Repr

/-- Where `attentionUpdate` stands: in the update it begins with, before acquiring
the semaphore, before the mutex of a kind, or updating with that mutex held. -/
inductive UpdatePc
  | starting (parallelism : ℤ)
  | acquiring
  | entering (kind : Kind)
  | updating (kind : Kind) (parallelism : ℤ)
  deriving DecidableEq, Repr

/-- What follows the section of a kind. -/
def UpdatePc.after : Kind → UpdatePc
  | .inter => .entering .intra
  | .intra => .acquiring

/-- Whether the mutex of a kind is held while the thread waits. -/
def UpdatePc.holds (kind : Kind) : UpdatePc → Prop
  | .updating held _ => held = kind
  | _ => False

instance (kind : Kind) (pc : UpdatePc) : Decidable (pc.holds kind) := by
  unfold UpdatePc.holds
  cases pc <;> infer_instance

/-! ## The machine -/

/-- The client. `received` lists the messages and `applied` the values that were
applied to TensorFlow; neither is read. -/
structure Updates where
  socket : SocketPc
  update : UpdatePc
  cvUpdate : ℕ
  parallelismUp : Parallelism
  line : Parallelism
  received : List Parallelism
  applied : List (Kind × ℤ)
  deriving DecidableEq, Repr

/-- A message arrives, or one of the threads goes on. -/
inductive UpdatesStep
  | receive (message : Parallelism)
  | socket
  | update
  deriving DecidableEq, Repr

namespace Updates

/-- The store of a kind: a positive value under the mutex, which must be free. -/
def store (client : Updates) (kind : Kind) (message : Parallelism) (next : SocketPc) :
    Option Updates :=
  if 0 < message.get kind then
    if client.update.holds kind then none
    else some { client with
      socket := next
      parallelismUp := client.parallelismUp.set kind (message.get kind) }
  else some { client with socket := next }

/-- The next step of `attention_socket`. After the release it goes back to receive,
unless the message was the acknowledgement of the end. -/
def socketStep (client : Updates) : Option Updates :=
  match client.socket with
  | .storing .inter message => client.store .inter message (.storing .intra message)
  | .storing .intra message => client.store .intra message (.releasing message)
  | .releasing message => some { client with
      socket := if message.interParallelism = -1 then .ending else .receiving
      cvUpdate := if 0 < message.interParallelism ∨ 0 < message.intraParallelism then
        client.cvUpdate + 1 else client.cvUpdate }
  | .ending => some { client with socket := .ended, cvUpdate := client.cvUpdate + 1 }
  | .receiving | .ended => none

/-- One round of `progressive_update_threads`, and its end. -/
def progress (client : Updates) (kind : Kind) (parallelism : ℤ) (finish : Updates → Updates) :
    Updates :=
  if client.line.get kind ≠ parallelism then
    { client with
      line := client.line.set kind (nextParallelism (client.line.get kind) parallelism) }
  else finish { client with applied := client.applied ++ [(kind, parallelism)] }

/-- The next step of `attentionUpdate`. -/
def updateStep (client : Updates) : Option Updates :=
  match client.update with
  | .starting parallelism =>
      some (client.progress .intra parallelism fun applied => { applied with update := .acquiring })
  | .acquiring =>
      if client.cvUpdate = 0 then none
      else some { client with cvUpdate := client.cvUpdate - 1, update := .entering .inter }
  | .entering kind =>
      if 0 < client.parallelismUp.get kind then
        some { client with update := .updating kind (client.parallelismUp.get kind) }
      else some { client with update := .after kind }
  | .updating kind parallelism =>
      some (client.progress kind parallelism fun applied => { applied with
        update := .after kind
        parallelismUp := applied.parallelismUp.set kind 0 })

def step (client : Updates) : UpdatesStep → Option Updates
  | .receive message =>
      if client.socket = .receiving then
        some { client with
          socket := .storing .inter message
          received := client.received ++ [message] }
      else none
  | .socket => client.socketStep
  | .update => client.updateStep

end Updates

/-- The threads of a client whose container was launched with some parallelism, and
whose file holds some line. -/
def updates (launched : ℤ) (line : Parallelism) : Machine Updates UpdatesStep where
  init := ⟨.receiving, .starting launched, 0, ⟨0, 0⟩, line, [], []⟩
  step := Updates.step

end ContainerScheduler.Client
