/-
# Finishing a step exactly once

The counter of outstanding operations holds the number of nodes that the closures
have ready or under way. While there is one, nobody is on the way to `Finish`; when
there is none, exactly one is: the closure whose `NodeDone` took the counter to zero,
the flag it left to the deferred operations, the release of the last of these, or a
call that has been made.
-/

import ContainerScheduler.Executor.Process
import Mathlib.Algebra.BigOperators.Group.List.Basic

namespace ContainerScheduler.Analysis

open Executor Math

universe u v w

variable {ν : Type u} {ω : Type v} {γ : Type w}

/-! ## Totals over the closures -/

/-- The nodes a closure has ready or under way. -/
def workerLoad (worker : Worker ν ω) : ℕ :=
  (worker.inlineReady.getD []).length +
    match worker.pc with
    | .computing _ | .computed .. | .nodeDone _ => 1
    | .dispatching closures => closures.length
    | .looping | .scheduleFinish | .finishing | .ended => 0

/-- The closure is going to call `ScheduleFinish` or `Finish`. -/
def workerClosing (worker : Worker ν ω) : ℕ :=
  match worker.pc with
  | .looping | .dispatching _ => if worker.completed then 1 else 0
  | .scheduleFinish | .finishing => 1
  | .computing _ | .computed .. | .nodeDone _ | .ended => 0

/-- The closure is going to call `Finish` next. -/
def workerFinishing (worker : Worker ν ω) : ℕ :=
  match worker.pc with
  | .finishing => 1
  | _ => 0

/-- The sum of an amount over the closures. -/
def total (amount : Worker ν ω → ℕ) (workers : List (Worker ν ω)) : ℕ :=
  (workers.map amount).sum

@[simp]
theorem total_nil (amount : Worker ν ω → ℕ) : total amount [] = 0 := rfl

@[simp]
theorem total_cons (amount : Worker ν ω → ℕ) (worker : Worker ν ω) (workers : List (Worker ν ω)) :
    total amount (worker :: workers) = amount worker + total amount workers := by
  simp [total]

theorem total_eq_add (amount : Worker ν ω → ℕ) {workers : List (Worker ν ω)}
    {worker : Worker ν ω} {index : ℕ} (hworker : workers[index]? = some worker) :
    total amount workers = amount worker + total amount (workers.eraseIdx index) := by
  obtain ⟨hindex, rfl⟩ := List.getElem?_eq_some_iff.mp hworker
  have hperm := (List.getElem_cons_eraseIdx_perm hindex).map amount
  exact hperm.sum_eq.symm.trans (total_cons amount _ _)

theorem total_move (amount : Worker ν ω → ℕ) {workers : List (Worker ν ω)}
    {worker : Worker ν ω} {index : ℕ} (hworker : workers[index]? = some worker)
    (moved : Worker ν ω) (spawned : List (Worker ν ω)) :
    total amount (workers.set index moved ++ spawned) =
      amount moved + total amount (workers.eraseIdx index) + total amount spawned := by
  obtain ⟨hindex, -⟩ := List.getElem?_eq_some_iff.mp hworker
  have hperm := (List.set_perm_cons_eraseIdx hindex moved).map amount
  have hset : total amount (workers.set index moved) =
      amount moved + total amount (workers.eraseIdx index) :=
    hperm.sum_eq.trans (total_cons amount _ _)
  rw [← hset]
  simp [total]

/-- Who is going to call `Finish` next is going to finish. -/
theorem total_finishing_le (workers : List (Worker ν ω)) :
    total workerFinishing workers ≤ total workerClosing workers := by
  induction workers with
  | nil => exact le_rfl
  | cons worker workers ih =>
      have hworker : workerFinishing worker ≤ workerClosing worker := by
        cases hpc : worker.pc <;> simp [workerFinishing, workerClosing, hpc]
      simp only [total_cons]
      exact Nat.add_le_add hworker ih

/-! ## The invariant -/

/-- The flag that leaves the finish to the deferred operations is up. -/
def leftToDeferred (shared : Shared ν γ) : ℕ :=
  if shared.finishWhenDeferredOpsDone ∧ 0 < shared.numDeferredOps then 1 else 0

/-- Who is on the way to `Finish`, and who has called it. -/
def finishers (state : ExecutorState ν ω γ) : ℕ :=
  total workerClosing state.workers + leftToDeferred state.shared +
    state.shared.finishingDeferred + state.shared.finishCalls

structure Counted (state : ExecutorState ν ω γ) : Prop where
  outstanding : state.shared.numOutstandingOps = total workerLoad state.workers
  busy : 0 < total workerLoad state.workers → finishers state = 0
  idle : total workerLoad state.workers = 0 → finishers state = 1
  flag : state.shared.finishWhenDeferredOpsDone = true → total workerLoad state.workers = 0
  deferred : 0 ≤ state.shared.numDeferredOps
  released : 0 < total workerFinishing state.workers + state.shared.finishingDeferred +
    state.shared.finishCalls → state.shared.numDeferredOps = 0

/-! ## Moves -/

section Moves

variable {items : Items ν ω γ} {state : ExecutorState ν ω γ} {after : Shared ν γ}
  {worker moved : Worker ν ω} {spawned : List (Worker ν ω)} {index : ℕ}

/-- The counters that decide who finishes are as they were. -/
structure SameCounters (before after : Shared ν γ) : Prop where
  outstanding : after.numOutstandingOps = before.numOutstandingOps
  deferred : after.numDeferredOps = before.numDeferredOps
  flag : after.finishWhenDeferredOpsDone = before.finishWhenDeferredOpsDone
  finishing : after.finishingDeferred = before.finishingDeferred
  calls : after.finishCalls = before.finishCalls

section

variable (hcounted : Counted state) (hworker : state.workers[index]? = some worker)

include hcounted hworker

/-- A closure moves, and neither the number of its nodes nor the counters change. A
closure that still has nodes is not about to finish, so it may drop `completed`. -/
theorem counted_quiet (hsame : SameCounters state.shared after)
    (hload : workerLoad moved + total workerLoad spawned = workerLoad worker)
    (hclosing : workerClosing moved + total workerClosing spawned ≤ workerClosing worker)
    (hempty : workerLoad worker = 0 →
      workerClosing worker ≤ workerClosing moved + total workerClosing spawned)
    (hfinishing : workerFinishing moved + total workerFinishing spawned = workerFinishing worker) :
    Counted ⟨after, state.workers.set index moved ++ spawned⟩ := by
  obtain ⟨houtstanding, hbusy, hidle, hflag, hdeferred, hreleased⟩ := hcounted
  have hloads := total_eq_add workerLoad hworker
  have hclosings := total_eq_add workerClosing hworker
  have hfinishings := total_eq_add workerFinishing hworker
  have hleft : leftToDeferred after = leftToDeferred state.shared := by
    rw [leftToDeferred, leftToDeferred, hsame.flag, hsame.deferred]
  simp only [finishers] at hbusy hidle
  refine ⟨?_, ?_, ?_, ?_, ?_, ?_⟩ <;>
    simp only [finishers, hsame.outstanding, hsame.deferred, hsame.flag, hsame.finishing,
      hsame.calls, hleft, total_move _ hworker]
  · omega
  · omega
  · omega
  · intro hup
    have := hflag hup
    omega
  · exact hdeferred
  · intro hpositive
    exact hreleased (by omega)

theorem counted_process {prepared : Bool}
    (hmove : worker.process items state.shared prepared = some (after, moved, spawned)) :
    Counted ⟨after, state.workers.set index moved ++ spawned⟩ := by
  unfold Worker.process at hmove
  split at hmove
  next tagged inlineReady hpc hinline =>
      simp only at hmove
      split at hmove <;> [skip; split at hmove <;> [skip; split at hmove]] <;> cases hmove
      all_goals
        exact counted_quiet hcounted hworker ⟨rfl, rfl, rfl, rfl, rfl⟩
          (by simp [workerLoad, Worker.callback, hpc, hinline])
          (by simp [workerClosing, Worker.callback, hpc])
          (by simp [workerLoad, hpc, hinline])
          (by simp [workerFinishing, Worker.callback, hpc])
  · cases hmove

theorem counted_compute {outputs : Option ω}
    (hmove : worker.compute items state.shared outputs = some (after, moved, spawned)) :
    Counted ⟨after, state.workers.set index moved ++ spawned⟩ := by
  unfold Worker.compute at hmove
  split at hmove
  next tagged hpc =>
      cases hmove
      exact counted_quiet hcounted hworker ⟨rfl, rfl, rfl, rfl, rfl⟩
        (by simp [workerLoad, hpc]) (by simp [workerClosing]) (by simp [workerLoad, hpc])
        (by simp [workerFinishing, hpc])
  · cases hmove

theorem counted_propagate
    (hmove : worker.propagate items state.shared = some (after, moved, spawned)) :
    Counted ⟨after, state.workers.set index moved ++ spawned⟩ := by
  unfold Worker.propagate at hmove
  split at hmove
  next tagged outputs hpc =>
      simp only at hmove
      split at hmove <;> cases hmove
      all_goals
        exact counted_quiet hcounted hworker ⟨rfl, rfl, rfl, rfl, rfl⟩
          (by simp [workerLoad, hpc]) (by simp [workerClosing]) (by simp [workerLoad, hpc])
          (by simp [workerFinishing, hpc])
  · cases hmove

theorem counted_dispatch (hmove : worker.dispatch state.shared = some (after, moved, spawned)) :
    Counted ⟨after, state.workers.set index moved ++ spawned⟩ := by
  unfold Worker.dispatch at hmove
  split at hmove
  next hpc =>
      cases hmove
      exact counted_quiet hcounted hworker ⟨rfl, rfl, rfl, rfl, rfl⟩
        (by simp [workerLoad, hpc]) (by simp [workerClosing, hpc])
        (by simp [workerClosing, hpc]) (by simp [workerFinishing, hpc])
  next tagged closures hpc =>
      cases hmove
      refine counted_quiet hcounted hworker ⟨rfl, rfl, rfl, rfl, rfl⟩ ?_ ?_ ?_ ?_
      · simp [workerLoad, Worker.closure, hpc]
        omega
      · simp [workerClosing, Worker.closure, hpc]
      · simp [workerLoad, hpc]
      · simp [workerFinishing, Worker.closure, hpc]
  · cases hmove

/-- A closure that leaves its loop has nothing left. -/
theorem counted_leave (hmove : worker.leave state.shared = some (after, moved, spawned)) :
    Counted ⟨after, state.workers.set index moved ++ spawned⟩ := by
  unfold Worker.leave at hmove
  split at hmove
  next hpc hinline =>
      cases hmove
      refine counted_quiet hcounted hworker ⟨rfl, rfl, rfl, rfl, rfl⟩ ?_ ?_ ?_ ?_
      · cases worker.completed <;> simp [workerLoad, hpc]
      · cases hcompleted : worker.completed <;> simp [workerClosing, hpc, hcompleted]
      · intro _
        cases hcompleted : worker.completed <;> simp [workerClosing, hpc, hcompleted]
      · cases worker.completed <;> simp [workerFinishing, hpc]
  · cases hmove

/-- **`NodeDone`.** The node is done, and what it made ready is there instead. When it
was the last one and made nothing ready, its closure is the one that finishes. -/
theorem counted_nodeDone {notSleepThread : Bool}
    (hmove : worker.nodeDone items state.shared notSleepThread = some (after, moved, spawned)) :
    Counted ⟨after, state.workers.set index moved ++ spawned⟩ := by
  obtain ⟨tagged, inlineReady, closures, completed, hpc, hcompleted, hplaced, rfl, rfl, rfl⟩ :=
    Worker.nodeDone_eq hmove
  obtain ⟨houtstanding, hbusy, hidle, hflag, hdeferred, hreleased⟩ := hcounted
  have hloads := total_eq_add workerLoad hworker
  have hclosings := total_eq_add workerClosing hworker
  have hfinishings := total_eq_add workerFinishing hworker
  have hload : workerLoad worker = (worker.inlineReady.getD []).length + 1 := by
    simp [workerLoad, hpc]
  have hnobody := hbusy (by omega)
  have hdown : state.shared.finishWhenDeferredOpsDone = false := by
    refine Bool.eq_false_iff.mpr fun hup => ?_
    have := hflag hup
    omega
  simp only [finishers] at hnobody
  have hlength := hplaced.length_eq
  simp only [List.length_append] at hlength
  have hclosing : (if completed = true then 1 else 0) =
      if worker.made.length = 0 ∧ state.shared.numOutstandingOps = 1 then 1 else 0 := by
    simp only [hcompleted, List.length_eq_zero_iff]
  refine ⟨?_, ?_, ?_, ?_, ?_, ?_⟩ <;>
    simp only [finishers, total_move _ hworker, total_nil, leftToDeferred, hdown, workerLoad,
      workerClosing, workerFinishing, Bool.false_eq_true, false_and, if_false, hclosing]
  · omega
  · split <;> omega
  · split <;> omega
  · exact fun hup => hup.elim
  · exact hdeferred
  · intro hpositive
    exact hreleased (by omega)

/-- The closure that finishes calls `Finish`, or leaves it to the deferred operations. -/
theorem counted_scheduleFinish
    (hmove : worker.scheduleFinish state.shared = some (after, moved, spawned)) :
    Counted ⟨after, state.workers.set index moved ++ spawned⟩ := by
  unfold Worker.scheduleFinish at hmove
  split at hmove
  next hpc =>
      obtain ⟨houtstanding, hbusy, hidle, hflag, hdeferred, hreleased⟩ := hcounted
      have hloads := total_eq_add workerLoad hworker
      have hclosings := total_eq_add workerClosing hworker
      have hfinishings := total_eq_add workerFinishing hworker
      have hload : workerLoad worker = (worker.inlineReady.getD []).length := by
        simp [workerLoad, hpc]
      have hclosing : workerClosing worker = 1 ∧ workerFinishing worker = 0 := by
        simp [workerClosing, workerFinishing, hpc]
      have hdone : total workerLoad state.workers = 0 := by
        simp only [finishers] at hbusy
        omega
      simp only [finishers] at hidle
      have hfinish := hidle hdone
      split at hmove <;> cases hmove
      next hsome =>
          have hdown : leftToDeferred state.shared = 0 := by omega
          refine ⟨?_, ?_, ?_, ?_, hdeferred, ?_⟩ <;>
            simp only [finishers, total_move _ hworker, total_nil, leftToDeferred, workerLoad,
              workerClosing, workerFinishing, true_and, if_pos hsome]
          · omega
          · omega
          · omega
          · omega
          · intro hpositive
            exact absurd (hreleased (by omega)) hsome.ne'
      next hnone =>
          refine ⟨?_, ?_, ?_, ?_, hdeferred, fun _ => le_antisymm (not_lt.mp hnone) hdeferred⟩ <;>
            simp only [finishers, total_move _ hworker, total_nil, workerLoad, workerClosing]
          · omega
          · omega
          · omega
          · omega
  · cases hmove

theorem counted_finish (hmove : worker.finish state.shared = some (after, moved, spawned)) :
    Counted ⟨after, state.workers.set index moved ++ spawned⟩ := by
  unfold Worker.finish at hmove
  split at hmove
  next hpc =>
      cases hmove
      obtain ⟨houtstanding, hbusy, hidle, hflag, hdeferred, hreleased⟩ := hcounted
      have hloads := total_eq_add workerLoad hworker
      have hclosings := total_eq_add workerClosing hworker
      have hfinishings := total_eq_add workerFinishing hworker
      have hload : workerLoad worker = (worker.inlineReady.getD []).length := by
        simp [workerLoad, hpc]
      have hclosing : workerClosing worker = 1 ∧ workerFinishing worker = 1 := by
        simp [workerClosing, workerFinishing, hpc]
      have hzero := hreleased (by omega)
      simp only [finishers, leftToDeferred] at hbusy hidle
      refine ⟨?_, ?_, ?_, ?_, hdeferred, fun _ => hzero⟩ <;>
        simp only [finishers, total_move _ hworker, total_nil, workerLoad, workerClosing,
          leftToDeferred]
      · omega
      · omega
      · omega
      · omega
  · cases hmove

/-- While a kernel runs nobody is on the way to `Finish`. -/
theorem counted_incDeferred
    (hmove : worker.incDeferred state.shared = some (after, moved, spawned)) :
    Counted ⟨after, state.workers.set index moved ++ spawned⟩ := by
  unfold Worker.incDeferred at hmove
  split at hmove
  next tagged hpc =>
      cases hmove
      obtain ⟨houtstanding, hbusy, hidle, hflag, hdeferred, hreleased⟩ := hcounted
      have hloads := total_eq_add workerLoad hworker
      have hclosings := total_eq_add workerClosing hworker
      have hfinishings := total_eq_add workerFinishing hworker
      have hload : 0 < workerLoad worker := by simp [workerLoad, hpc]
      have hnobody := hbusy (by omega)
      have hdown : state.shared.finishWhenDeferredOpsDone = false := by
        refine Bool.eq_false_iff.mpr fun hup => ?_
        have := hflag hup
        omega
      have hfinishing := total_finishing_le state.workers
      simp only [finishers] at hnobody
      refine ⟨?_, ?_, ?_, ?_, ?_, ?_⟩ <;>
        simp only [finishers, total_move _ hworker, total_nil, leftToDeferred, hdown,
          Bool.false_eq_true, false_and, if_false]
      · omega
      · omega
      · omega
      · exact fun hup => hup.elim
      · omega
      · intro hpositive
        omega
  · cases hmove

theorem counted_move {move : WorkerMove ω}
    (hmove : worker.move items state.shared move = some (after, moved, spawned)) :
    Counted ⟨after, state.workers.set index moved ++ spawned⟩ := by
  cases move with
  | process prepared => exact counted_process hcounted hworker hmove
  | compute outputs => exact counted_compute hcounted hworker hmove
  | propagate => exact counted_propagate hcounted hworker hmove
  | nodeDone notSleepThread => exact counted_nodeDone hcounted hworker hmove
  | dispatch => exact counted_dispatch hcounted hworker hmove
  | leave => exact counted_leave hcounted hworker hmove
  | scheduleFinish => exact counted_scheduleFinish hcounted hworker hmove
  | finish => exact counted_finish hcounted hworker hmove
  | incDeferred => exact counted_incDeferred hcounted hworker hmove

end

end Moves

/-! ## Deferred operations -/

section Deferred

variable {state : ExecutorState ν ω γ} {after : Shared ν γ}

/-- The last release takes over the finish that was left to it. -/
theorem counted_decDeferred (hcounted : Counted state)
    (hstep : state.shared.decDeferred = some after) :
    Counted { state with shared := after } := by
  simp only [Shared.decDeferred, Option.ite_none_right_eq_some, Option.some.injEq] at hstep
  obtain ⟨hsome, rfl⟩ := hstep
  obtain ⟨houtstanding, hbusy, hidle, hflag, hdeferred, hreleased⟩ := hcounted
  have hnobody : total workerFinishing state.workers + state.shared.finishingDeferred +
      state.shared.finishCalls = 0 := by
    refine Nat.eq_zero_of_not_pos fun hpositive => ?_
    exact hsome.ne' (hreleased hpositive)
  cases hup : state.shared.finishWhenDeferredOpsDone with
  | false =>
      simp only [finishers, leftToDeferred, hup] at hbusy hidle
      refine ⟨houtstanding, ?_, ?_, ?_, ?_, ?_⟩ <;> simp only [finishers, leftToDeferred]
      · simpa using hbusy
      · simpa using hidle
      · simp
      · omega
      · intro hpositive
        simp at hpositive
        omega
  | true =>
      have hdone := hflag hup
      simp only [finishers, leftToDeferred, hup, hsome] at hbusy hidle
      refine ⟨houtstanding, ?_, ?_, ?_, ?_, ?_⟩ <;> simp only [finishers, leftToDeferred]
      · intro hpositive
        omega
      · intro _
        have hfinish := hidle hdone
        by_cases hlast : state.shared.numDeferredOps = 1
        · simp [hlast] at hfinish ⊢
          omega
        · have hmore : 1 < state.shared.numDeferredOps := by omega
          simp [hlast, hmore] at hfinish ⊢
          omega
      · exact fun _ => hdone
      · omega
      · intro hpositive
        by_cases hlast : state.shared.numDeferredOps = 1
        · omega
        · simp [hlast] at hpositive
          omega

theorem counted_finishDeferred (hcounted : Counted state)
    (hstep : state.shared.finishDeferred = some after) :
    Counted { state with shared := after } := by
  simp only [Shared.finishDeferred, Option.ite_none_right_eq_some, Option.some.injEq] at hstep
  obtain ⟨hsome, rfl⟩ := hstep
  obtain ⟨houtstanding, hbusy, hidle, hflag, hdeferred, hreleased⟩ := hcounted
  have hzero := hreleased (by omega)
  simp only [finishers, leftToDeferred] at hbusy hidle
  refine ⟨houtstanding, ?_, ?_, hflag, hdeferred, fun _ => hzero⟩ <;>
    simp only [finishers, leftToDeferred] <;> omega

end Deferred

/-! ## Runs -/

section Runs

variable {items : Items ν ω γ} {roots : List (TaggedNode ν)} {frames : γ}
  {state after : ExecutorState ν ω γ}

/-- **The step lemma of the counters.** -/
theorem counted_step {label : ExecutorStep ω} (hcounted : Counted state)
    (hstep : state.step items label = some after) : Counted after := by
  cases label with
  | worker index move =>
      obtain ⟨worker, shared, moved, spawned, hworker, hmove, rfl⟩ :=
        ExecutorState.worker_step hstep
      exact counted_move hcounted hworker hmove
  | decDeferred =>
      obtain ⟨shared, hdec, rfl⟩ := Option.map_eq_some_iff.mp hstep
      exact counted_decDeferred hcounted hdec
  | finishDeferred =>
      obtain ⟨shared, hfinish, rfl⟩ := Option.map_eq_some_iff.mp hstep
      exact counted_finishDeferred hcounted hfinish

theorem counted_of_reaches (hroots : roots ≠ [])
    (hreached : (runAsync items roots frames).Reaches Machine.Unguarded state) :
    Counted state := by
  refine hreached.invariant (P := Counted) ?_
    fun _ _ _ _ hcounted _ htaken => counted_step hcounted htaken
  have hlength : roots.length ≠ 0 := by simpa using hroots
  refine ⟨?_, ?_, ?_, ?_, ?_, ?_⟩ <;>
    simp [runAsync, hlength, Worker.starter, workerLoad, finishers, leftToDeferred, workerClosing,
      workerFinishing]

/-- No node is ready or under way. -/
def NoOutstandingNodes (state : ExecutorState ν ω γ) : Prop :=
  ∀ worker ∈ state.workers, workerLoad worker = 0

theorem total_load_eq_zero (hnone : NoOutstandingNodes state) :
    total workerLoad state.workers = 0 := by
  refine List.sum_eq_zero fun load hload => ?_
  obtain ⟨worker, hmem, rfl⟩ := List.mem_map.mp hload
  exact hnone worker hmem

/-- The moves a closure without nodes has left. -/
def movesLeft (worker : Worker ν ω) : ℕ :=
  match worker.pc with
  | .dispatching _ => 4
  | .looping => 3
  | .scheduleFinish => 2
  | .finishing => 1
  | .computing _ | .computed .. | .nodeDone _ | .ended => 0

/-- A closure without nodes moves until it has ended. -/
theorem move_of_load_eq_zero {worker : Worker ν ω} (hload : workerLoad worker = 0)
    (hrunning : worker.pc ≠ .ended) (shared : Shared ν γ) :
    ∃ move after, worker.move items shared move = some after := by
  obtain ⟨hinline, hpc⟩ := Nat.add_eq_zero_iff.mp hload
  cases hat : worker.pc with
  | looping =>
      have hnil := List.length_eq_zero_iff.mp hinline
      exact ⟨.leave, _, by simp only [Worker.move, Worker.leave, hat, hnil]; rfl⟩
  | dispatching closures =>
      rw [hat] at hpc
      obtain rfl := List.length_eq_zero_iff.mp hpc
      exact ⟨.dispatch, _, by simp only [Worker.move, Worker.dispatch, hat]; rfl⟩
  | scheduleFinish =>
      by_cases hdeferred : 0 < shared.numDeferredOps
      · exact ⟨.scheduleFinish, _, by
          simp only [Worker.move, Worker.scheduleFinish, hat, if_pos hdeferred]; rfl⟩
      · exact ⟨.scheduleFinish, _, by
          simp only [Worker.move, Worker.scheduleFinish, hat, if_neg hdeferred]; rfl⟩
  | finishing => exact ⟨.finish, _, by simp only [Worker.move, Worker.finish, hat]; rfl⟩
  | ended => exact absurd hat hrunning
  | _ =>
      rw [hat] at hpc
      cases hpc

/-- The moves of a closure without nodes leave none and come to an end. -/
theorem movesLeft_decreases {shared moved : Shared ν γ} {worker next : Worker ν ω}
    {spawned : List (Worker ν ω)} {move : WorkerMove ω} (hload : workerLoad worker = 0)
    (hmove : worker.move items shared move = some (moved, next, spawned)) :
    workerLoad next = 0 ∧ spawned = [] ∧ movesLeft next < movesLeft worker ∧
      moved.numDeferredOps = shared.numDeferredOps ∧
      moved.finishingDeferred = shared.finishingDeferred := by
  obtain ⟨hinline, hpc⟩ := Nat.add_eq_zero_iff.mp hload
  cases move with
  | process prepared =>
      simp only [Worker.move, Worker.process] at hmove
      split at hmove
      next hinlineReady => simp [hinlineReady] at hinline
      · cases hmove
  | compute outputs =>
      simp only [Worker.move, Worker.compute] at hmove
      split at hmove
      next hat => simp [hat] at hpc
      · cases hmove
  | propagate =>
      simp only [Worker.move, Worker.propagate] at hmove
      split at hmove
      next hat => simp [hat] at hpc
      · cases hmove
  | nodeDone notSleepThread =>
      obtain ⟨tagged, _, _, _, hat, -⟩ := Worker.nodeDone_eq hmove
      simp [hat] at hpc
  | dispatch =>
      simp only [Worker.move, Worker.dispatch] at hmove
      split at hmove
      next hat =>
          cases hmove
          exact ⟨by simpa [workerLoad] using hinline, rfl, by simp [movesLeft, hat], rfl, rfl⟩
      next hat => simp [hat] at hpc
      · cases hmove
  | leave =>
      simp only [Worker.move, Worker.leave] at hmove
      split at hmove
      next hat hnil =>
          cases hmove
          refine ⟨?_, rfl, ?_, rfl, rfl⟩
          · cases worker.completed <;> simpa [workerLoad] using hinline
          · cases worker.completed <;> simp [movesLeft, hat]
      · cases hmove
  | scheduleFinish =>
      simp only [Worker.move, Worker.scheduleFinish] at hmove
      split at hmove
      next hat =>
          split at hmove <;> cases hmove
          all_goals
            exact ⟨by simpa [workerLoad] using hinline, rfl, by simp [movesLeft, hat], rfl, rfl⟩
      · cases hmove
  | finish =>
      simp only [Worker.move, Worker.finish] at hmove
      split at hmove
      next hat =>
          cases hmove
          exact ⟨by simpa [workerLoad] using hinline, rfl, by simp [movesLeft, hat], rfl, rfl⟩
      · cases hmove
  | incDeferred =>
      simp only [Worker.move, Worker.incDeferred] at hmove
      split at hmove
      next hat => simp [hat] at hpc
      · cases hmove

/-- The steps that are left when no node is. -/
def stepsLeft (state : ExecutorState ν ω γ) : ℕ :=
  total movesLeft state.workers + 2 * state.shared.numDeferredOps.toNat +
    state.shared.finishingDeferred

/-- Once the set of outstanding nodes is empty it stays empty, and the run ends. -/
theorem stepsLeft_decreases {label : ExecutorStep ω} (hnone : NoOutstandingNodes state)
    (hstep : state.step items label = some after) :
    NoOutstandingNodes after ∧ stepsLeft after < stepsLeft state := by
  cases label with
  | worker index move =>
      obtain ⟨worker, shared, next, spawned, hworker, hmove, rfl⟩ :=
        ExecutorState.worker_step hstep
      obtain ⟨hload, rfl, hless, hdeferred, hfinishing⟩ :=
        movesLeft_decreases (hnone worker (List.mem_of_getElem? hworker)) hmove
      refine ⟨fun other hmem => ?_, ?_⟩
      · rw [List.append_nil] at hmem
        obtain hold | rfl := List.mem_or_eq_of_mem_set hmem
        · exact hnone other hold
        · exact hload
      · simp only [stepsLeft, total_move _ hworker, total_nil, total_eq_add movesLeft hworker,
          hdeferred, hfinishing]
        omega
  | decDeferred =>
      obtain ⟨shared, hdec, rfl⟩ := Option.map_eq_some_iff.mp hstep
      simp only [Shared.decDeferred, Option.ite_none_right_eq_some, Option.some.injEq] at hdec
      obtain ⟨hsome, rfl⟩ := hdec
      refine ⟨hnone, ?_⟩
      simp only [stepsLeft]
      split <;> omega
  | finishDeferred =>
      obtain ⟨shared, hfinish, rfl⟩ := Option.map_eq_some_iff.mp hstep
      simp only [Shared.finishDeferred, Option.ite_none_right_eq_some, Option.some.injEq]
        at hfinish
      obtain ⟨hsome, rfl⟩ := hfinish
      refine ⟨hnone, ?_⟩
      simp only [stepsLeft]
      omega

/-- Where nothing can move any more every closure has ended, every deferred
operation was released and every call of `Finish` was made. -/
theorem ended_of_blocked (hcounted : Counted state) (hnone : NoOutstandingNodes state)
    (hblocked : ∀ label, state.step items label = none) :
    (∀ worker ∈ state.workers, worker.pc = .ended) ∧ state.shared.numDeferredOps = 0 ∧
      state.shared.finishingDeferred = 0 := by
  refine ⟨fun worker hmem => ?_, ?_, ?_⟩
  · by_contra hrunning
    obtain ⟨index, hworker⟩ := List.getElem?_of_mem hmem
    obtain ⟨move, moved, hmove⟩ :=
      @move_of_load_eq_zero ν ω γ items worker (hnone worker hmem) hrunning state.shared
    have hstep := hblocked (.worker index move)
    simp [ExecutorState.step, hworker, hmove] at hstep
  · have hstep := hblocked .decDeferred
    have hnot : ¬ 0 < state.shared.numDeferredOps := by
      simpa [ExecutorState.step, Shared.decDeferred] using hstep
    exact le_antisymm (not_lt.mp hnot) hcounted.deferred
  · have hstep := hblocked .finishDeferred
    simpa [ExecutorState.step, Shared.finishDeferred] using hstep

/-- **`Finish` runs exactly once.** It is called at most once; when it has been
called no node and no deferred operation is left; and once the set of outstanding
nodes is empty, every step leads to the end of the run, where it has been called. -/
theorem finish_exactly_once (hroots : roots ≠ [])
    (hreached : (runAsync items roots frames).Reaches Machine.Unguarded state) :
    state.shared.finishCalls ≤ 1 ∧
      (state.shared.finishCalls = 1 →
        NoOutstandingNodes state ∧ state.shared.numDeferredOps = 0) ∧
      (NoOutstandingNodes state →
        (∀ label after, state.step items label = some after →
          NoOutstandingNodes after ∧ stepsLeft after < stepsLeft state) ∧
        ((∀ label, state.step items label = none) → state.shared.finishCalls = 1)) := by
  have hcounted := counted_of_reaches hroots hreached
  obtain ⟨-, hbusy, hidle, -, -, hreleased⟩ := id hcounted
  simp only [finishers] at hbusy hidle
  refine ⟨?_, fun hcalled => ⟨fun worker hmem => ?_, ?_⟩, fun hnone =>
    ⟨fun label after hstep => stepsLeft_decreases hnone hstep, fun hblocked => ?_⟩⟩
  · omega
  · obtain ⟨index, hworker⟩ := List.getElem?_of_mem hmem
    have hload := total_eq_add workerLoad hworker
    omega
  · exact hreleased (by omega)
  · obtain ⟨hended, hdeferred, hfinishing⟩ := ended_of_blocked hcounted hnone hblocked
    have hclosing : total workerClosing state.workers = 0 := by
      refine List.sum_eq_zero fun closing hclosing => ?_
      obtain ⟨worker, hmem, rfl⟩ := List.mem_map.mp hclosing
      simp [workerClosing, hended worker hmem]
    have hleft : leftToDeferred state.shared = 0 := by simp [leftToDeferred, hdeferred]
    have hone := hidle (total_load_eq_zero hnone)
    omega

end Runs

/-! ## A run -/

/-- Two nodes: the first makes the second ready, and the second is asynchronous. -/
def twoNodes : Items Bool Unit Unit where
  isTransferNode := fun _ => false
  kernelIsAsync := id
  isExpensive := fun _ => true
  emptyOutputs := fun _ => ()
  clearInputs := fun _ _ => ()
  propagateOutputs := fun tagged _ _ => ((), if tagged.node then [] else [⟨true, false⟩])

/-- The asynchronous node defers an operation that is released after the node failed. -/
theorem deferred_finish_once : ∃ state : ExecutorState Bool Unit Unit,
    (state.shared.finishCalls = 1 ∧ state.shared.statusOk = false) ∧
      state.shared.finishCalls ≤ 1 := by
  have hrun : ∃ state, (runAsync twoNodes [⟨false, false⟩] ()).Reaches Machine.Unguarded state ∧
      decide (state.shared.finishCalls = 1 ∧ state.shared.statusOk = false) = true :=
    Machine.exists_reaches_unguarded
      [.worker 0 .dispatch, .worker 0 .dispatch, .worker 0 .leave, .worker 1 (.process true),
        .worker 1 (.compute (some ())), .worker 1 .propagate, .worker 1 (.nodeDone true),
        .worker 1 .dispatch, .worker 1 (.process true), .worker 2 .incDeferred,
        .worker 2 (.compute none), .worker 2 .propagate, .worker 1 .leave,
        .worker 2 (.nodeDone true), .worker 2 .dispatch, .worker 2 .leave,
        .worker 2 .scheduleFinish, .decDeferred, .finishDeferred]
      (by decide +kernel)
  obtain ⟨state, hreached, hfinished⟩ := hrun
  exact ⟨state, of_decide_eq_true hfinished, (finish_exactly_once (by simp) hreached).1⟩

end ContainerScheduler.Analysis
