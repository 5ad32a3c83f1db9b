/-
# The iterations of a frame

A frame of the executor keeps the states of its live iterations in a ring with one slot
more than the iterations that may run at once, and looks iteration 0 up apart. An
iteration is started when a value first passes a NextIteration node of the last one, or
later when too many are running, and its state is deleted when nothing of it is
outstanding and the one before it is gone.

One frame is modelled, with everything that the rest of the executor can do to it: the
ops outstanding in an iteration complete in any order, an Enter op of an iteration can
create a child frame there, child frames activate nodes and complete, and each Enter
node of the frame itself enters once. How many nodes an activation makes ready is left
to the environment, per iteration and per activated item.

A state of an iteration is named by the iteration it has been created for. An operation
on an iteration that is not live, and a slot overwritten while it holds a state, are
faults.
-/

import ContainerScheduler.Math.Transition
import Mathlib.Data.List.Nodup

namespace ContainerScheduler.Executor

open Math

/-- What can go wrong with the ring. `unfinished` is a loop that has not ended when its
fuel has. -/
inductive RingFault
  | overwritten (iter : ℕ)
  | notLive (iter : ℕ)
  | unfinished
  deriving DecidableEq, Repr

/-- `FrameState`: its own fields, and what is still to come. `live` lists the iterations
created and not deleted, `ops` the iteration of every outstanding op, `children` the
parent iteration of every child frame, `enters` the Enter nodes that have not entered,
each with whether it is a constant one. -/
structure FrameState (ι : Type) where
  numPendingInputs : ℕ
  iterationCount : ℕ
  numOutstandingIterations : ℕ
  iterations : ℕ → Option ℕ
  iterationsFirst : Option ℕ
  outstandingOps : ℕ → ℕ
  outstandingFrameCount : ℕ → ℕ
  nextIterRoots : List ι
  invValues : List ι
  deadExits : List ι
  live : List ℕ
  ops : List ℕ
  children : List ℕ
  enters : List (ι × Bool)
  deleted : Bool

namespace FrameState

variable {ι : Type} (max : ℕ) (ready : ℕ → ι → ℕ)

/-- The frame when it is created, with iteration 0 and the ops that start in it. -/
def initial (enters : List (ι × Bool)) (ops : ℕ) : FrameState ι where
  numPendingInputs := enters.length
  iterationCount := 0
  numOutstandingIterations := 1
  iterations := Function.update (fun _ => none) 0 (some 0)
  iterationsFirst := some 0
  outstandingOps := Function.update (fun _ => 0) 0 ops
  outstandingFrameCount _ := 0
  nextIterRoots := []
  invValues := []
  deadExits := []
  live := [0]
  ops := List.replicate ops 0
  children := []
  enters := enters
  deleted := false

/-- `GetIteration`. -/
def getIteration (frame : FrameState ι) (iter : ℕ) : Option ℕ :=
  if iter = 0 then frame.iterationsFirst else frame.iterations (iter % (max + 1))

/-- `SetIteration`, with its check. -/
def setIteration (frame : FrameState ι) (iter : ℕ) (state : Option ℕ) :
    Except RingFault (FrameState ι) :=
  let index := iter % (max + 1)
  if state ≠ none ∧ frame.iterations index ≠ none then .error (.overwritten iter)
  else .ok { frame with
    iterations := Function.update frame.iterations index state
    iterationsFirst := if index = 0 then state else frame.iterationsFirst }

/-- The state that an operation on an iteration works on. -/
def access (frame : FrameState ι) (iter : ℕ) : Except RingFault ℕ :=
  match frame.getIteration max iter with
  | some state => if iter ∈ frame.live then .ok state else .error (.notLive iter)
  | none => .error (.notLive iter)

/-- `ActivateNodes`: the nodes that become ready are outstanding in the iteration. -/
def activateNodes (item : ι) (iter : ℕ) (frame : FrameState ι) :
    Except RingFault (FrameState ι) := do
  let state ← frame.access max iter
  return { frame with
    outstandingOps := Function.update frame.outstandingOps state
      (frame.outstandingOps state + ready iter item)
    ops := List.replicate (ready iter item) iter ++ frame.ops }

/-- Activate the listed pairs of an item and an iteration one after the other. -/
def activateAll : List (ι × ℕ) → FrameState ι → Except RingFault (FrameState ι)
  | [], frame => .ok frame
  | (item, iter) :: rest, frame => do
      let frame ← frame.activateNodes max ready item iter
      activateAll rest frame

/-- `IncrementIteration`, with `ActivateNexts` and `ActivateLoopInvs`. -/
def incrementIteration (frame : FrameState ι) : Except RingFault (FrameState ι) := do
  let next := frame.iterationCount + 1
  let frame ← setIteration max { frame with
    iterationCount := next
    outstandingOps := Function.update frame.outstandingOps next 0
    outstandingFrameCount := Function.update frame.outstandingFrameCount next 0 } next (some next)
  let frame := { frame with
    numOutstandingIterations := frame.numOutstandingIterations + 1
    deadExits := []
    live := frame.live ++ [next] }
  let frame ← activateAll max ready (frame.nextIterRoots.map fun item => (item, next)) frame
  activateAll max ready (frame.invValues.map fun item => (item, next))
    { frame with nextIterRoots := [] }

/-- Start the deferred iteration if there is one. -/
def startDeferred (frame : FrameState ι) : Except RingFault (FrameState ι) :=
  if frame.nextIterRoots.isEmpty then .ok frame else frame.incrementIteration max ready

/-- Start the iteration after the given one if it is a new one. -/
def startNext (iter : ℕ) (frame : FrameState ι) : Except RingFault (FrameState ι) :=
  if iter = frame.iterationCount then frame.incrementIteration max ready else .ok frame

/-- `IsIterationDone`. -/
def isIterationDone (frame : FrameState ι) (iter : ℕ) : Except RingFault Bool := do
  let state ← frame.access max iter
  if frame.outstandingOps state = 0 ∧ frame.outstandingFrameCount state = 0 then
    if iter = 0 then return decide (frame.numPendingInputs = 0)
    else return (frame.getIteration max (iter - 1)).isNone
  else return false

/-- Delete the state of an iteration and clear its slot. -/
def deleteIteration (frame : FrameState ι) (iter : ℕ) : Except RingFault (FrameState ι) := do
  let state ← frame.access max iter
  setIteration max { frame with
    live := frame.live.erase state
    numOutstandingIterations := frame.numOutstandingIterations - 1 } iter none

/-- The loop of `CleanupIterations`. -/
def cleanupLoop : ℕ → ℕ → FrameState ι → Except RingFault (FrameState ι)
  | 0, _, _ => .error .unfinished
  | fuel + 1, iter, frame => do
      if frame.iterationCount < iter then return frame
      if !(← frame.isIterationDone max iter) then return frame
      let frame ← frame.deleteIteration max iter
      let frame ← frame.startDeferred max ready
      cleanupLoop fuel (iter + 1) frame

/-- `CleanupIterations`. A frame that is done is deleted by the caller. -/
def cleanupIterations (iter : ℕ) (frame : FrameState ι) : Except RingFault (FrameState ι) := do
  let frame ← cleanupLoop max ready (frame.iterationCount + 3) iter frame
  return { frame with
    deleted := frame.numPendingInputs = 0 ∧ frame.numOutstandingIterations = 0 }

/-- `DecrementOutstandingOps`, when an op of the iteration completes. -/
def decrementOutstandingOps (iter : ℕ) (frame : FrameState ι) :
    Except RingFault (FrameState ι) := do
  let state ← frame.access max iter
  let frame := { frame with
    outstandingOps := Function.update frame.outstandingOps state (frame.outstandingOps state - 1)
    ops := frame.ops.erase iter }
  if frame.outstandingOps state ≠ 0 then return frame
  else frame.cleanupIterations max ready iter

/-- `AddLoopInv`. -/
def addLoopInv (item : ι) (frame : FrameState ι) : Except RingFault (FrameState ι) :=
  activateAll max ready ((List.range (frame.iterationCount + 1)).map fun iter => (item, iter))
    { frame with invValues := frame.invValues ++ [item] }

/-- An input of the frame arrives: to all iterations, or to iteration 0. -/
def addInput (item : ι) (isConstant : Bool) (frame : FrameState ι) :
    Except RingFault (FrameState ι) :=
  if isConstant then frame.addLoopInv max ready item else frame.activateNodes max ready item 0

end FrameState

/-- What can happen to a frame, each event under its lock. -/
inductive FrameEvent (ι : Type)
  /-- An op that is no Enter, Exit or NextIteration completes. -/
  | opDone (item : ι) (iter : ℕ)
  /-- An Enter or live Exit op completes, having activated nodes of another frame. -/
  | leave (iter : ℕ)
  | deadExit (item : ι) (iter : ℕ)
  | nextIteration (item : ι) (iter : ℕ) (isDead : Bool)
  /-- An Enter op of the iteration creates its child frame. -/
  | createChild (iter : ℕ)
  /-- A child frame activates nodes: by a live Exit, or by its dead exits when it is deleted. -/
  | childActivates (item : ι) (iter : ℕ)
  /-- A child frame has been deleted: `CleanupFramesIterations`. -/
  | childDone (iter : ℕ)
  /-- An Enter node of the frame enters. -/
  | enter (item : ι) (isConstant : Bool)

namespace FrameEvent

variable {ι : Type} [DecidableEq ι] (max : ℕ) (ready : ℕ → ι → ℕ)

/-- What the executor can do to the frame: ops and child frames complete that are
outstanding, and Enter nodes enter that have not entered. -/
def Enabled (frame : FrameState ι) : FrameEvent ι → Prop
  | opDone _ iter => iter ∈ frame.ops
  | leave iter => iter ∈ frame.ops
  | deadExit _ iter => iter ∈ frame.ops
  | nextIteration _ iter _ => iter ∈ frame.ops
  | createChild iter => iter ∈ frame.ops
  | childActivates _ iter => iter ∈ frame.children
  | childDone iter => iter ∈ frame.children
  | enter item isConstant => (item, isConstant) ∈ frame.enters

instance (frame : FrameState ι) : (event : FrameEvent ι) → Decidable (event.Enabled frame)
  | opDone _ iter => inferInstanceAs (Decidable (iter ∈ frame.ops))
  | leave iter => inferInstanceAs (Decidable (iter ∈ frame.ops))
  | deadExit _ iter => inferInstanceAs (Decidable (iter ∈ frame.ops))
  | nextIteration _ iter _ => inferInstanceAs (Decidable (iter ∈ frame.ops))
  | createChild iter => inferInstanceAs (Decidable (iter ∈ frame.ops))
  | childActivates _ iter => inferInstanceAs (Decidable (iter ∈ frame.children))
  | childDone iter => inferInstanceAs (Decidable (iter ∈ frame.children))
  | enter item isConstant => inferInstanceAs (Decidable ((item, isConstant) ∈ frame.enters))

/-- `PropagateOutputs` and `CleanupFramesIterations`, as far as they concern the frame. -/
def exec (frame : FrameState ι) : FrameEvent ι → Except RingFault (FrameState ι)
  | opDone item iter => do
      let frame ← frame.activateNodes max ready item iter
      frame.decrementOutstandingOps max ready iter
  | leave iter => frame.decrementOutstandingOps max ready iter
  | deadExit item iter => do
      let frame := { frame with
        deadExits := if iter = frame.iterationCount then frame.deadExits ++ [item]
          else frame.deadExits }
      frame.decrementOutstandingOps max ready iter
  | nextIteration item iter isDead => do
      if isDead then frame.decrementOutstandingOps max ready iter
      else if iter = frame.iterationCount ∧ frame.numOutstandingIterations = max then
        -- as many iterations as may run at once: deferred
        let frame := { frame with nextIterRoots := frame.nextIterRoots ++ [item] }
        frame.decrementOutstandingOps max ready iter
      else
        let frame ← frame.startNext max ready iter
        let frame ← frame.activateNodes max ready item (iter + 1)
        frame.decrementOutstandingOps max ready iter
  | createChild iter => do
      let state ← frame.access max iter
      return { frame with
        outstandingFrameCount := Function.update frame.outstandingFrameCount state
          (frame.outstandingFrameCount state + 1)
        children := iter :: frame.children }
  | childActivates item iter => frame.activateNodes max ready item iter
  | childDone iter => do
      let state ← frame.access max iter
      let frame := { frame with
        outstandingFrameCount := Function.update frame.outstandingFrameCount state
          (frame.outstandingFrameCount state - 1)
        children := frame.children.erase iter }
      frame.cleanupIterations max ready iter
  | enter item isConstant => do
      let frame ← frame.addInput max ready item isConstant
      return { frame with
        numPendingInputs := frame.numPendingInputs - 1
        enters := frame.enters.erase (item, isConstant) }

end FrameEvent

/-- A frame with its limit on parallel iterations. A label is an event with the number of
nodes that each activation in it makes ready; after a fault nothing follows. -/
def frameMachine {ι : Type} [DecidableEq ι] (max : ℕ) (enters : List (ι × Bool)) (ops : ℕ) :
    Machine (Except RingFault (FrameState ι)) (FrameEvent ι × (ℕ → ι → ℕ)) where
  init := .ok (.initial enters ops)
  step
    | .error _, _ => none
    | .ok frame, (event, ready) =>
        if !frame.deleted && decide (event.Enabled frame) then some (event.exec max ready frame)
        else none

end ContainerScheduler.Executor
