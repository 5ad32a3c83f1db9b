/-
# The buffer rendezvous

A producer offers a buffer under a key and a consumer asks for it. Whoever comes first leaves
a hook in the table, and whoever comes second takes the hook out. The consumer gets the hook and
gives it back with `DoneWithHook`, which tells the producer and deletes the hook. An abort takes
all hooks out of the table, tells whoever waits on them and deletes them.

The critical sections are atomic, and each callback that is called outside of one is a step of
its own, as is each deletion. Producers and consumers are named by the number of their call.
The device of a consumer is found, and its incarnation is the expected one.
-/

import ContainerScheduler.Math.Transition
import Mathlib.Algebra.Order.Ring.Int

namespace ContainerScheduler.Rendezvous

open Math

/-- A status that is not OK. -/
inductive BufError (κ ε : Type)
  | given (status : ε)
  /-- `MakeDerived`. -/
  | derived (status : ε)
  /-- `BufRendezvous::ProvideBuf already called for key`. -/
  | alreadyProvided (key : κ)
  /-- `Second consumer arrived for key`. -/
  | secondConsumer (key : κ)
  deriving DecidableEq, Repr

/-- `Hook`. A callback is the number of the call that it was given to. -/
structure Hook (ν : Type) where
  prodValue : Option ν
  prodCb : Option ℕ
  consCb : Option ℕ
  deriving DecidableEq, Repr

/-- What a consumer callback is called with. -/
inductive Answer (κ ν ε : Type)
  | ok (hook : ℕ) (prodValue : Option ν)
  | failed (error : BufError κ ε)
  deriving DecidableEq, Repr

/-- A statement outside of the critical sections. -/
inductive Action (κ ε : Type)
  /-- `h->cons_cb(Status::OK(), h)`. -/
  | handOver (hook : ℕ)
  /-- `done(status)` of `ProvideBuf`. -/
  | failProducer (producer : ℕ) (error : BufError κ ε)
  /-- `done(status, nullptr)` of `ConsumeBuf`. -/
  | failConsumer (consumer : ℕ) (error : BufError κ ε)
  /-- `PurgeTable`: `if (h->cons_cb != nullptr) h->cons_cb(s, nullptr)`. -/
  | abortConsumer (hook : ℕ) (status : ε)
  /-- `PurgeTable`: `if (h->prod_cb != nullptr) h->prod_cb(s)`. -/
  | abortProducer (hook : ℕ) (status : ε)
  /-- `DoneWithHook`: `h->prod_cb(Status::OK())`. -/
  | tellProducer (hook : ℕ)
  | delete (hook : ℕ)
  deriving DecidableEq, Repr

/-- The rendezvous, its hooks, the calls in progress and what they have done. -/
structure BufState (κ ν ε : Type) where
  /-- `status_`, if it is not OK. -/
  status : Option (BufError κ ε)
  hookTable : List (κ × ℕ)
  hooks : ℕ → Hook ν
  hookCount : ℕ
  /-- The calls of `ProvideBuf`. -/
  provided : List (κ × ν)
  /-- The calls of `ConsumeBuf`. -/
  requested : List κ
  /-- What is left to do in each call. -/
  activities : List (List (Action κ ε))
  /-- The hooks that consumers have and have not given back. -/
  handed : List ℕ
  /-- The producer callbacks that have been called; `none` is OK. -/
  producerCalls : List (ℕ × Option (BufError κ ε))
  consumerCalls : List (ℕ × Answer κ ν ε)
  deleted : List ℕ

/-- What happens next. -/
inductive BufEvent (κ ν ε : Type)
  | provideBuf (key : κ) (value : ν)
  | consumeBuf (key : κ)
  /-- The table is purged in some order. -/
  | startAbort (status : ε) (order : List ℕ)
  | doneWithHook (hook : ℕ)
  /-- A call goes on. -/
  | resume (index : ℕ)
  deriving DecidableEq, Repr

namespace BufState

variable {κ ν ε : Type} [DecidableEq κ] (state : BufState κ ν ε)

def find (key : κ) : Option ℕ := (state.hookTable.find? fun entry => entry.1 = key).map Prod.snd

def erase (key : κ) : List (κ × ℕ) := state.hookTable.filter fun entry => entry.1 ≠ key

def start (activity : List (Action κ ε)) : BufState κ ν ε :=
  { state with activities := state.activities ++ [activity] }

/-- A new hook in the table. -/
def insertHook (key : κ) (hook : Hook ν) : BufState κ ν ε :=
  { state with
    hookTable := state.hookTable ++ [(key, state.hookCount)]
    hooks := Function.update state.hooks state.hookCount hook
    hookCount := state.hookCount + 1 }

def setHook (index : ℕ) (hook : Hook ν) : BufState κ ν ε :=
  { state with hooks := Function.update state.hooks index hook }

/-- The critical section of `ProvideBuf`. -/
def provideBuf (key : κ) (value : ν) (done : ℕ) : BufState κ ν ε :=
  match state.status with
  | some error => state.start [.failProducer done error]
  | none =>
      match state.find key with
      | none => state.insertHook key ⟨some value, some done, none⟩
      | some index =>
          let hook := state.hooks index
          if hook.prodCb.isSome then state.start [.failProducer done (.alreadyProvided key)]
          else
            let populated := state.setHook index
              { hook with prodValue := some value, prodCb := some done }
            -- if a consumer is waiting, the hook is taken out of the table
            if hook.consCb.isSome then
              { populated with hookTable := state.erase key }.start [.handOver index]
            else populated

/-- The critical section of `ConsumeBuf`. -/
def consumeBuf (key : κ) (done : ℕ) : BufState κ ν ε :=
  match state.status with
  | some error => state.start [.failConsumer done error]
  | none =>
      match state.find key with
      | none => state.insertHook key ⟨none, none, some done⟩
      | some index =>
          let hook := state.hooks index
          if hook.consCb.isSome then state.start [.failConsumer done (.secondConsumer key)]
          else
            { state.setHook index { hook with consCb := some done } with
              hookTable := state.erase key }.start [.handOver index]

/-- `PurgeTable` for one hook. -/
def purge (status : ε) (hook : ℕ) : List (Action κ ε) :=
  [.abortConsumer hook status, .abortProducer hook status, .delete hook]

/-- `StartAbort`: the first status that is not OK stays. -/
def startAbort (status : ε) (order : List ℕ) : Option (BufState κ ν ε) :=
  if order.Perm (state.hookTable.map Prod.snd) then
    some ({ state with
      status := some (state.status.getD (.derived status))
      hookTable := [] }.start (order.flatMap (purge status)))
  else none

/-- A consumer that was given a hook calls `DoneWithHook`. -/
def doneWithHook (hook : ℕ) : Option (BufState κ ν ε) :=
  if hook ∈ state.handed then
    some ({ state with handed := state.handed.erase hook }.start
      [.tellProducer hook, .delete hook])
  else none

def callProducer (producer : ℕ) (error : Option (BufError κ ε)) : BufState κ ν ε :=
  { state with producerCalls := state.producerCalls ++ [(producer, error)] }

def callConsumer (consumer : ℕ) (answer : Answer κ ν ε) : BufState κ ν ε :=
  { state with consumerCalls := state.consumerCalls ++ [(consumer, answer)] }

/-- A statement is executed. To call a callback that is not there is fatal. -/
def perform : Action κ ε → Option (BufState κ ν ε)
  | .handOver hook => (state.hooks hook).consCb.map fun consumer =>
      { state.callConsumer consumer (.ok hook (state.hooks hook).prodValue) with
        handed := state.handed ++ [hook] }
  | .failProducer producer error => some (state.callProducer producer (some error))
  | .failConsumer consumer error => some (state.callConsumer consumer (.failed error))
  | .abortConsumer hook status => some ((state.hooks hook).consCb.elim state fun consumer =>
      state.callConsumer consumer (.failed (.given status)))
  | .abortProducer hook status => some ((state.hooks hook).prodCb.elim state fun producer =>
      state.callProducer producer (some (.given status)))
  | .tellProducer hook => (state.hooks hook).prodCb.map fun producer =>
      state.callProducer producer none
  | .delete hook => some { state with deleted := state.deleted ++ [hook] }

/-- A call goes on with its next statement. -/
def resume (index : ℕ) : Option (BufState κ ν ε) :=
  match state.activities[index]? with
  | some (action :: rest) =>
      { state with activities := state.activities.set index rest }.perform action
  | _ => none

end BufState

/-- A rendezvous that is used until it is destroyed. -/
def bufRendezvous (κ ν ε : Type) [DecidableEq κ] : Machine (BufState κ ν ε) (BufEvent κ ν ε) where
  init :=
    { status := none
      hookTable := []
      hooks := fun _ => ⟨none, none, none⟩
      hookCount := 0
      provided := []
      requested := []
      activities := []
      handed := []
      producerCalls := []
      consumerCalls := []
      deleted := [] }
  step state
    | .provideBuf key value =>
        some ({ state with provided := state.provided ++ [(key, value)] }.provideBuf
          key value state.provided.length)
    | .consumeBuf key =>
        some ({ state with requested := state.requested ++ [key] }.consumeBuf
          key state.requested.length)
    | .startAbort status order => state.startAbort status order
    | .doneWithHook hook => state.doneWithHook hook
    | .resume index => state.resume index

end ContainerScheduler.Rendezvous
