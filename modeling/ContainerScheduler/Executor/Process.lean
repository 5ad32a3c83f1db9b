/-
# The executor of a graph

One step of a graph is run by closures on a thread pool. Each closure processes the
nodes in its own list `inline_ready`; an asynchronous kernel ends in a callback of
its own. A node that is done makes others ready, which are put in that list or
dispatched as further closures. An atomic counter holds the number of nodes that
are ready or under way, and who takes it to zero finishes the step, unless
kernels have operations deferred, in which case the last of these finishes it.

Kernels and the frames of the graph are parameters: what a kernel answers is part of
a label, and `propagateOutputs` says what becomes ready. Statistics, tracing and the
numbers of threads are left out; a closure or a callback may go on at any time, so
the number of threads does not matter. The abort that follows an error acts through
what other kernels answer.
-/

import ContainerScheduler.Math.Transition
import Mathlib.Algebra.Order.Ring.Int

namespace ContainerScheduler.Executor

open Math

universe u v w

/-! ## Nodes and workers -/

/-- A node that is ready, and whether it is dead. -/
structure TaggedNode (ν : Type u) where
  node : ν
  isDead : Bool
  deriving DecidableEq, Repr

/-- What the executor knows of nodes, and what it does to the frames: `outputs.resize`
for a dead node, clearing the inputs of a node, and propagating its outputs, which
returns the nodes that become ready. -/
structure Items (ν : Type u) (ω : Type v) (γ : Type w) where
  isTransferNode : ν → Bool
  kernelIsAsync : ν → Bool
  isExpensive : ν → Bool
  emptyOutputs : ν → ω
  clearInputs : ν → γ → γ
  propagateOutputs : TaggedNode ν → ω → γ → γ × List (TaggedNode ν)

/-- Where a closure stands: at the test of `inline_ready`, at a kernel, before
`PropagateOutputs`, before `NodeDone`, dispatching closures, before `ScheduleFinish`,
before `Finish`, or ended. -/
inductive WorkerPc (ν : Type u) (ω : Type v)
  | looping
  | computing (tagged : TaggedNode ν)
  | computed (tagged : TaggedNode ν) (outputs : ω)
  | nodeDone (tagged : TaggedNode ν)
  | dispatching (closures : List (TaggedNode ν))
  | scheduleFinish
  | finishing
  | ended
  deriving DecidableEq, Repr

/-- A closure that runs `Process`, or the callback of an asynchronous kernel, which
has no `inline_ready`. `ready`, `ok` and `completed` are the local variables `ready`,
`s.ok()` and `completed`; they keep their values from one node to the next. -/
structure Worker (ν : Type u) (ω : Type v) where
  inlineReady : Option (List (TaggedNode ν))
  ready : List (TaggedNode ν)
  ok : Bool
  completed : Bool
  pc : WorkerPc ν ω
  deriving DecidableEq, Repr

namespace Worker

variable {ν : Type u} {ω : Type v}

/-- A closure at its start. -/
def closure (tagged : TaggedNode ν) : Worker ν ω := ⟨some [tagged], [], true, false, .looping⟩

/-- The callback of an asynchronous kernel that was launched. -/
def callback (tagged : TaggedNode ν) : Worker ν ω := ⟨none, [], true, false, .computing tagged⟩

/-- The thread that schedules the root nodes. -/
def starter (roots : List (TaggedNode ν)) : Worker ν ω :=
  ⟨none, [], true, false, .dispatching roots⟩

end Worker

/-! ## Scheduling ready nodes -/

section ScheduleReady

variable {ν : Type u} (isExpensive : ν → Bool) (notSleepThread : Bool)

/-- The loop of `ScheduleReady`: the nodes put in `inline_ready`, the current
expensive node, and the nodes dispatched to other threads. -/
def scheduleLoop : List (TaggedNode ν) → List (TaggedNode ν) → Option (TaggedNode ν) →
    List (TaggedNode ν) → List (TaggedNode ν) × Option (TaggedNode ν) × List (TaggedNode ν)
  | [], inlineReady, current, dispatched => (inlineReady, current, dispatched)
  | tagged :: ready, inlineReady, current, dispatched =>
      if (tagged.isDead ∨ isExpensive tagged.node = false) ∧ notSleepThread then
        scheduleLoop ready (inlineReady ++ [tagged]) current dispatched
      else if notSleepThread then
        scheduleLoop ready inlineReady (some tagged) (dispatched ++ current.toList)
      else scheduleLoop ready inlineReady current (dispatched ++ [tagged])

/-- `ScheduleReady`: the new `inline_ready` and the nodes to dispatch. The callback
of an asynchronous kernel dispatches all of them. -/
def scheduleReady (ready : List (TaggedNode ν)) :
    Option (List (TaggedNode ν)) → Option (List (TaggedNode ν)) × List (TaggedNode ν)
  | none => (none, ready)
  | some inlineReady =>
      match scheduleLoop isExpensive notSleepThread ready inlineReady none [] with
      | (inlined, none, dispatched) => (some inlined, dispatched)
      | (inlined, some current, dispatched) =>
          if notSleepThread ∧ inlined = [] then (some [current], dispatched)
          else (some inlined, dispatched ++ [current])

variable {isExpensive notSleepThread}

/-- The loop places every node once. -/
theorem scheduleLoop_perm (ready inlineReady : List (TaggedNode ν))
    (current : Option (TaggedNode ν)) (dispatched : List (TaggedNode ν)) :
    let placed := scheduleLoop isExpensive notSleepThread ready inlineReady current dispatched
    (placed.1 ++ (placed.2.2 ++ placed.2.1.toList)).Perm
      (inlineReady ++ (dispatched ++ current.toList) ++ ready) := by
  induction ready generalizing inlineReady current dispatched with
  | nil => simp [scheduleLoop]
  | cons tagged ready ih =>
      have hmove : ∀ front back : List (TaggedNode ν),
          (front ++ [tagged] ++ back ++ ready).Perm (front ++ back ++ tagged :: ready) := by
        intro front back
        rw [List.append_assoc front, List.append_assoc front, List.append_assoc front]
        exact List.Perm.append_left front List.perm_middle.symm
      rw [scheduleLoop]
      split
      · exact (ih _ _ _).trans (hmove _ _)
      · split
        · refine (ih _ _ _).trans ?_
          simp
        · refine (ih _ _ _).trans ?_
          have hback := hmove (inlineReady ++ dispatched) current.toList
          simpa only [List.append_assoc] using hback

/-- `ScheduleReady` places every node once, and leaves what was in `inline_ready`. -/
theorem scheduleReady_perm (ready : List (TaggedNode ν))
    (inlineReady : Option (List (TaggedNode ν))) :
    let placed := scheduleReady isExpensive notSleepThread ready inlineReady
    (placed.1.getD [] ++ placed.2).Perm (inlineReady.getD [] ++ ready) := by
  cases inlineReady with
  | none => simp [scheduleReady]
  | some inlineReady =>
      have hloop := @scheduleLoop_perm ν isExpensive notSleepThread ready inlineReady none []
      simp only [scheduleReady]
      split
      next inlined dispatched hplaced => simpa [hplaced] using hloop
      next inlined current dispatched hplaced =>
          rw [hplaced] at hloop
          split
          next hinline =>
              rw [hinline.2] at hloop
              exact (List.perm_append_comm).trans (by simpa using hloop)
          · simpa using hloop

/-- The loop only appends to `inline_ready`. -/
theorem prefix_scheduleLoop (ready inlineReady : List (TaggedNode ν))
    (current : Option (TaggedNode ν)) (dispatched : List (TaggedNode ν)) :
    inlineReady <+: (scheduleLoop isExpensive notSleepThread ready inlineReady current
      dispatched).1 := by
  induction ready generalizing inlineReady current dispatched with
  | nil => exact List.prefix_rfl
  | cons tagged ready ih =>
      rw [scheduleLoop]
      split
      · exact (List.prefix_append _ _).trans (ih _ _ _)
      · split <;> exact ih _ _ _

/-- What is in `inline_ready` stays there. -/
theorem prefix_scheduleReady (ready : List (TaggedNode ν))
    (inlineReady : Option (List (TaggedNode ν))) :
    inlineReady.getD [] <+:
      (scheduleReady isExpensive notSleepThread ready inlineReady).1.getD [] := by
  cases inlineReady with
  | none => exact List.prefix_rfl
  | some inlineReady =>
      have hloop := @prefix_scheduleLoop ν isExpensive notSleepThread ready inlineReady none []
      simp only [scheduleReady]
      split
      next inlined dispatched hplaced => simpa [hplaced] using hloop
      next inlined current dispatched hplaced =>
          rw [hplaced] at hloop
          split
          next hinline =>
              rw [hinline.2, List.prefix_nil] at hloop
              simp [hloop]
          · simpa using hloop

end ScheduleReady

/-! ## The machine -/

/-- What the closures share. `processed` lists the nodes that were processed, and
`nodeDones` the nodes that are done with what `NodeDone` returned; neither is read. -/
structure Shared (ν : Type u) (γ : Type w) where
  frames : γ
  statusOk : Bool
  numOutstandingOps : ℤ
  numDeferredOps : ℤ
  finishWhenDeferredOpsDone : Bool
  finishingDeferred : ℕ
  finishCalls : ℕ
  processed : List (TaggedNode ν)
  nodeDones : List (ν × Bool)
  deriving DecidableEq, Repr

structure ExecutorState (ν : Type u) (ω : Type v) (γ : Type w) where
  shared : Shared ν γ
  workers : List (Worker ν ω)
  deriving DecidableEq, Repr

/-- The next move of a closure and what its surroundings answer: whether the inputs
could be prepared, what the kernel put out (`none` for an error), whether the thread
may go on, or that the kernel defers an operation. -/
inductive WorkerMove (ω : Type v)
  | process (prepared : Bool)
  | compute (outputs : Option ω)
  | propagate
  | nodeDone (notSleepThread : Bool)
  | dispatch
  | leave
  | scheduleFinish
  | finish
  | incDeferred
  deriving DecidableEq, Repr

/-- A closure moves; a deferred operation is released; or who released the last one
calls `Finish`. -/
inductive ExecutorStep (ω : Type v)
  | worker (index : ℕ) (move : WorkerMove ω)
  | decDeferred
  | finishDeferred
  deriving DecidableEq, Repr

section Moves

variable {ν : Type u} {ω : Type v} {γ : Type w} (items : Items ν ω γ) (shared : Shared ν γ)
  (worker : Worker ν ω)

/-- Take the first node of `inline_ready`. A dead node is not computed, unless it
transfers; an error in its inputs ends in `NodeDone` at once; an asynchronous kernel
is left to its callback. -/
def Worker.process (prepared : Bool) : Option (Shared ν γ × Worker ν ω × List (Worker ν ω)) :=
  match worker.pc, worker.inlineReady with
  | .looping, some (tagged :: inlineReady) =>
      let taken := { worker with inlineReady := some inlineReady }
      let started := { shared with processed := shared.processed ++ [tagged] }
      if tagged.isDead ∧ items.isTransferNode tagged.node = false then
        some (started,
          { taken with pc := .computed tagged (items.emptyOutputs tagged.node) }, [])
      else if prepared = false then
        some ({ started with frames := items.clearInputs tagged.node shared.frames },
          { taken with ok := false, pc := .nodeDone tagged }, [])
      else if items.kernelIsAsync tagged.node then
        some (started, { taken with ok := true }, [.callback tagged])
      else some (started, { taken with ok := true, pc := .computing tagged }, [])
  | _, _ => none

/-- The kernel ends and its outputs are processed. -/
def Worker.compute (outputs : Option ω) : Option (Shared ν γ × Worker ν ω × List (Worker ν ω)) :=
  match worker.pc with
  | .computing tagged =>
      some (shared,
        { worker with
          ok := outputs.isSome
          pc := .computed tagged (outputs.getD (items.emptyOutputs tagged.node)) }, [])
  | _ => none

/-- Clear the inputs and, without an error, propagate the outputs. -/
def Worker.propagate : Option (Shared ν γ × Worker ν ω × List (Worker ν ω)) :=
  match worker.pc with
  | .computed tagged outputs =>
      let cleared := items.clearInputs tagged.node shared.frames
      if worker.ok then
        let propagated := items.propagateOutputs tagged outputs cleared
        some ({ shared with frames := propagated.1 },
          { worker with ready := propagated.2, pc := .nodeDone tagged }, [])
      else some ({ shared with frames := cleared }, { worker with pc := .nodeDone tagged }, [])
  | _ => none

/-- `NodeDone`: record an error, count, and schedule what is ready. -/
def Worker.nodeDone (notSleepThread : Bool) :
    Option (Shared ν γ × Worker ν ω × List (Worker ν ω)) :=
  match worker.pc with
  | .nodeDone tagged =>
      let counted := worker.ready.length = 0 ∨ worker.ok = false
      let completed := decide (counted ∧ shared.numOutstandingOps = 1)
      let scheduled := if worker.ok then
          scheduleReady items.isExpensive notSleepThread worker.ready worker.inlineReady
        else (worker.inlineReady, [])
      some ({ shared with
          statusOk := shared.statusOk && worker.ok
          numOutstandingOps := if counted then shared.numOutstandingOps - 1
            else shared.numOutstandingOps + (worker.ready.length - 1)
          nodeDones := shared.nodeDones ++ [(tagged.node, completed)] },
        { worker with
          completed := completed
          inlineReady := scheduled.1
          pc := .dispatching scheduled.2 }, [])
  | _ => none

/-- The nodes that `NodeDone` schedules: what became ready, unless there was an error. -/
def Worker.made : List (TaggedNode ν) := if worker.ok then worker.ready else []

variable {items shared worker}

/-- What `NodeDone` does: the node is replaced by what it made ready, in the counter
and in the lists, and completion is reported when nothing is left. -/
theorem Worker.nodeDone_eq {notSleepThread : Bool} {after : Shared ν γ} {moved : Worker ν ω}
    {spawned : List (Worker ν ω)}
    (hmove : worker.nodeDone items shared notSleepThread = some (after, moved, spawned)) :
    ∃ tagged inlineReady closures completed, worker.pc = .nodeDone tagged ∧
      (completed = true ↔ worker.made = [] ∧ shared.numOutstandingOps = 1) ∧
      (inlineReady.getD [] ++ closures).Perm (worker.inlineReady.getD [] ++ worker.made) ∧
      after = { shared with
        statusOk := shared.statusOk && worker.ok
        numOutstandingOps := shared.numOutstandingOps + worker.made.length - 1
        nodeDones := shared.nodeDones ++ [(tagged.node, completed)] } ∧
      moved = { worker with
        completed := completed
        inlineReady := inlineReady
        pc := .dispatching closures } ∧
      spawned = [] := by
  unfold Worker.nodeDone at hmove
  split at hmove
  next tagged hpc =>
      have hplaced := @scheduleReady_perm ν items.isExpensive notSleepThread worker.ready
        worker.inlineReady
      cases hmove
      refine ⟨tagged, _, _, _, hpc, ?_, ?_, ?_, rfl, rfl⟩
      · cases hok : worker.ok <;> simp [Worker.made, hok, List.length_eq_zero_iff]
      · cases hok : worker.ok
        · simp [Worker.made, hok]
        · simpa [Worker.made, hok] using hplaced
      · cases hok : worker.ok
        · simp [Worker.made, hok]
        · by_cases hready : worker.ready = []
          · simp [Worker.made, hok, hready]
          · simp [Worker.made, hok, hready, add_sub_assoc]
  · cases hmove

variable (items shared worker)

/-- Hand one more node to the thread pool. -/
def Worker.dispatch : Option (Shared ν γ × Worker ν ω × List (Worker ν ω)) :=
  match worker.pc with
  | .dispatching [] => some (shared, { worker with pc := .looping }, [])
  | .dispatching (tagged :: closures) =>
      some (shared, { worker with pc := .dispatching closures }, [.closure tagged])
  | _ => none

/-- The end of the loop: nothing is left in `inline_ready`. -/
def Worker.leave : Option (Shared ν γ × Worker ν ω × List (Worker ν ω)) :=
  match worker.pc, worker.inlineReady.getD [] with
  | .looping, [] =>
      some (shared, { worker with pc := if worker.completed then .scheduleFinish else .ended }, [])
  | _, _ => none

/-- `ScheduleFinish`, up to the call of `Finish`. -/
def Worker.scheduleFinish : Option (Shared ν γ × Worker ν ω × List (Worker ν ω)) :=
  match worker.pc with
  | .scheduleFinish =>
      if 0 < shared.numDeferredOps then
        some ({ shared with finishWhenDeferredOpsDone := true }, { worker with pc := .ended }, [])
      else some (shared, { worker with pc := .finishing }, [])
  | _ => none

def Worker.finish : Option (Shared ν γ × Worker ν ω × List (Worker ν ω)) :=
  match worker.pc with
  | .finishing =>
      some ({ shared with finishCalls := shared.finishCalls + 1 }, { worker with pc := .ended }, [])
  | _ => none

/-- A kernel defers an operation before its node is done. -/
def Worker.incDeferred : Option (Shared ν γ × Worker ν ω × List (Worker ν ω)) :=
  match worker.pc with
  | .computing _ =>
      some ({ shared with numDeferredOps := shared.numDeferredOps + 1 }, worker, [])
  | _ => none

/-- The shared state, the closure and the new closures after a move. -/
def Worker.move : WorkerMove ω → Option (Shared ν γ × Worker ν ω × List (Worker ν ω))
  | .process prepared => worker.process items shared prepared
  | .compute outputs => worker.compute items shared outputs
  | .propagate => worker.propagate items shared
  | .nodeDone notSleepThread => worker.nodeDone items shared notSleepThread
  | .dispatch => worker.dispatch shared
  | .leave => worker.leave shared
  | .scheduleFinish => worker.scheduleFinish shared
  | .finish => worker.finish shared
  | .incDeferred => worker.incDeferred shared

/-- Release a deferred operation; the last one finishes the step if nothing else is
left. -/
def Shared.decDeferred : Option (Shared ν γ) :=
  if 0 < shared.numDeferredOps then
    some { shared with
      numDeferredOps := shared.numDeferredOps - 1
      finishingDeferred := if shared.numDeferredOps = 1 ∧ shared.finishWhenDeferredOpsDone then
        shared.finishingDeferred + 1 else shared.finishingDeferred }
  else none

def Shared.finishDeferred : Option (Shared ν γ) :=
  if 0 < shared.finishingDeferred then
    some { shared with
      finishingDeferred := shared.finishingDeferred - 1
      finishCalls := shared.finishCalls + 1 }
  else none

end Moves

variable {ν : Type u} {ω : Type v} {γ : Type w}

def ExecutorState.step (items : Items ν ω γ) (state : ExecutorState ν ω γ) :
    ExecutorStep ω → Option (ExecutorState ν ω γ)
  | .worker index move =>
      state.workers[index]?.bind fun worker =>
        (worker.move items state.shared move).map fun (shared, moved, spawned) =>
          ⟨shared, state.workers.set index moved ++ spawned⟩
  | .decDeferred => state.shared.decDeferred.map fun shared => { state with shared := shared }
  | .finishDeferred =>
      state.shared.finishDeferred.map fun shared => { state with shared := shared }

theorem ExecutorState.worker_step {items : Items ν ω γ} {state after : ExecutorState ν ω γ}
    {index : ℕ} {move : WorkerMove ω} (hstep : state.step items (.worker index move) = some after) :
    ∃ worker shared moved spawned, state.workers[index]? = some worker ∧
      worker.move items state.shared move = some (shared, moved, spawned) ∧
      after = ⟨shared, state.workers.set index moved ++ spawned⟩ := by
  obtain ⟨worker, hworker, hmoved⟩ := Option.bind_eq_some_iff.mp hstep
  obtain ⟨⟨shared, moved, spawned⟩, hmove, rfl⟩ := Option.map_eq_some_iff.mp hmoved
  exact ⟨worker, shared, moved, spawned, hworker, hmove, rfl⟩

/-- `RunAsync` on a graph with some root nodes. Without any it calls `done` itself
and runs nothing. -/
def runAsync (items : Items ν ω γ) (roots : List (TaggedNode ν)) (frames : γ) :
    Machine (ExecutorState ν ω γ) (ExecutorStep ω) where
  init := ⟨⟨frames, true, roots.length, 0, false, 0, 0, [], []⟩,
    if roots.length = 0 then [] else [.starter roots]⟩
  step := ExecutorState.step items

end ContainerScheduler.Executor
