/-
# When a failure is handled once

At most one thread of a container is in charge of it: one that has neither ended
nor declared a failure. While a `Restart` is queued or running there is none. As
long as the threads that declared a failure do nothing more to the scheduler, each
incarnation is failed, restarted and freed at most once.
-/

import ContainerScheduler.Wire.Incarnations
import Mathlib.Data.List.Count

namespace ContainerScheduler.Analysis

open Math Wire

/-- Since its last start the container has been declared failed at most once, at
most one `Restart` for it is queued or running, and its cores were freed at most
once. -/
structure HandledOnce (state : Incarnations) : Prop where
  failures : state.failures ≤ 1
  restarts : state.restarts ≤ 1
  freed : state.freed ≤ 1

/-- A thread that declared a failure neither declares another nor removes the
container. -/
def IncarnationStepOk (state : Incarnations) (label : IncarnationStep) : Prop :=
  ∀ index ∈ Incarnations.threadOf label, ∀ thread ∈ state.threads[index]?,
    ∀ moved ∈ state.onStep thread label,
      moved.2 = .fail ∨ moved.2 = .finish → thread.declared = false

instance (state : Incarnations) (label : IncarnationStep) :
    Decidable (IncarnationStepOk state label) := by
  unfold IncarnationStepOk
  infer_instance

/-- The thread is in charge of the container. -/
def inCharge (thread : ClientThread) : Bool := !thread.declared && thread.pc ≠ .ended

/-- One thread is in charge, or one `Restart` is on its way, or neither; and an
incarnation with a thread in charge is untouched. -/
structure OneInCharge (state : Incarnations) : Prop where
  atMostOne : state.threads.countP inCharge + state.restarts ≤ 1
  failures : state.failures ≤ 1
  freed : state.freed ≤ 1
  untouched : 0 < state.threads.countP inCharge → state.failures = 0 ∧ state.freed = 0

/-! ## One step -/

section Steps

variable {state : Incarnations} {index : ℕ} {thread : ClientThread} {label : IncarnationStep}
  {moved : ThreadPc × Effect}

theorem countP_set_inCharge {threads : List ClientThread}
    (hthread : threads[index]? = some thread) (next : ClientThread) :
    (threads.set index next).countP inCharge + (inCharge thread).toNat =
      threads.countP inCharge + (inCharge next).toNat := by
  obtain ⟨hindex, hget⟩ := List.getElem?_eq_some_iff.mp hthread
  have hpos : inCharge thread = true → 0 < threads.countP inCharge := fun hcharge =>
    List.countP_pos_iff.mpr ⟨thread, List.mem_of_getElem? hthread, hcharge⟩
  rw [List.countP_set hindex, hget]
  cases hold : inCharge thread <;> cases hnew : inCharge next <;> simp <;>
    have := hpos hold <;> omega

/-- A thread that moves has not ended, and goes on unless it acts. -/
theorem pc_of_onStep (hmoved : state.onStep thread label = some moved) :
    thread.pc ≠ .ended ∧ (moved.2 = .finish → moved.1 = .ended) := by
  cases label with
  | begin _ =>
      obtain ⟨hstarting, hmove⟩ := Option.ite_none_right_eq_some.mp hmoved
      obtain rfl := Option.some.inj hmove
      simp [hstarting]
  | message _ epochsReadable message =>
      simp only [Incarnations.onStep] at hmoved
      cases hpc : thread.pc <;> cases message <;>
        simp only [hpc, ThreadPc.onMessage, reduceCtorEq] at hmoved <;>
        first
          | (split at hmoved <;> obtain rfl := Option.some.inj hmoved <;> simp)
          | (obtain rfl := Option.some.inj hmoved; simp)
  | timeout _ =>
      simp only [Incarnations.onStep] at hmoved
      cases hpc : thread.pc <;> simp only [hpc, ThreadPc.onTimeout, reduceCtorEq] at hmoved <;>
        first
          | (split at hmoved <;> obtain rfl := Option.some.inj hmoved <;> simp)
          | (obtain rfl := Option.some.inj hmoved; simp)
  | restart => cases hmoved

section

variable (hone : OneInCharge state) (hthread : state.threads[index]? = some thread)

include hone hthread

/-- A thread in charge is the only one, and its incarnation is untouched. -/
theorem alone_of_inCharge (hcharge : inCharge thread = true) :
    state.threads.countP inCharge = 1 ∧ state.restarts = 0 ∧ state.failures = 0 ∧
      state.freed = 0 := by
  have hpos : 0 < state.threads.countP inCharge :=
    List.countP_pos_iff.mpr ⟨thread, List.mem_of_getElem? hthread, hcharge⟩
  obtain ⟨hfailures, hfreed⟩ := hone.untouched hpos
  have hatMost := hone.atMostOne
  exact ⟨by omega, by omega, hfailures, hfreed⟩

/-- After the thread in charge has acted there is none. -/
theorem none_of_set (hcharge : inCharge thread = true) {next : ClientThread}
    (hnext : inCharge next = false) :
    (state.threads.set index next).countP inCharge = 0 := by
  have hcount := countP_set_inCharge hthread next
  obtain ⟨hlone, -⟩ := alone_of_inCharge hone hthread hcharge
  rw [hcharge, hnext, hlone] at hcount
  simp only [Bool.toNat_true, Bool.toNat_false] at hcount
  omega

/-- A thread that only goes on is in charge afterwards at most if it was. -/
theorem oneInCharge_of_quiet (hrunning : thread.pc ≠ .ended) (pc : ThreadPc) :
    OneInCharge { state with threads := state.threads.set index { thread with pc := pc } } := by
  have hcount := countP_set_inCharge hthread { thread with pc := pc }
  have hless : (inCharge { thread with pc := pc }).toNat ≤ (inCharge thread).toNat := by
    cases hdeclared : thread.declared <;> simp [inCharge, hdeclared, hrunning, Bool.toNat_le]
  have hatMost := hone.atMostOne
  exact ⟨by simp only; omega, hone.failures, hone.freed,
    fun hpos => hone.untouched (by simp only at hpos; omega)⟩

theorem oneInCharge_of_move (hmoved : state.onStep thread label = some moved)
    (hok : moved.2 = .fail ∨ moved.2 = .finish → thread.declared = false) :
    OneInCharge (state.move index thread moved) := by
  obtain ⟨hrunning, hfinish⟩ := pc_of_onStep hmoved
  have hcharge : moved.2 = .fail ∨ moved.2 = .finish → inCharge thread = true := fun hacts => by
    simp [inCharge, hok hacts, hrunning]
  obtain ⟨pc, effect⟩ := moved
  cases effect with
  | nothing => exact oneInCharge_of_quiet hone hthread hrunning pc
  | sendProbe => exact oneInCharge_of_quiet hone hthread hrunning pc
  | finish =>
      have hended : pc = .ended := hfinish rfl
      obtain ⟨-, hrestarts, hfailures, hfreed⟩ :=
        alone_of_inCharge hone hthread (hcharge (.inr rfl))
      have hnone := none_of_set hone hthread (hcharge (.inr rfl))
        (show inCharge { thread with pc := pc } = false by simp [inCharge, hended])
      simp only [Incarnations.move]
      exact ⟨by simp [hnone, hrestarts], hone.failures, by simp [hfreed],
        fun hpos => absurd hpos (by simp [hnone])⟩
  | fail =>
      obtain ⟨-, hrestarts, hfailures, hfreed⟩ :=
        alone_of_inCharge hone hthread (hcharge (.inl rfl))
      simp only [Incarnations.move]
      split
      · have hnone := none_of_set hone hthread (hcharge (.inl rfl))
          (show inCharge ⟨pc, true⟩ = false by simp [inCharge])
        exact ⟨by simp [hnone, hrestarts], by simp [hfailures], by simp [hfreed],
          fun hpos => absurd hpos (by simp [hnone])⟩
      · have hnone := none_of_set hone hthread (hcharge (.inl rfl))
          (show inCharge ⟨.ended, true⟩ = false by simp [inCharge])
        exact ⟨by simp [hnone, hrestarts], by simp [hfailures], hone.freed,
          fun hpos => absurd hpos (by simp [hnone])⟩

end

/-- The next start: a new thread takes charge, and nothing has happened yet. -/
theorem oneInCharge_restarted (hone : OneInCharge state) (hrestarts : 0 < state.restarts) :
    OneInCharge state.restarted := by
  have hatMost := hone.atMostOne
  have hnone : state.threads.countP inCharge = 0 := by omega
  exact ⟨by simp [Incarnations.restarted, hnone, inCharge]; omega, by simp [Incarnations.restarted],
    by simp [Incarnations.restarted], fun _ => ⟨rfl, rfl⟩⟩

theorem oneInCharge_of_step {after : Incarnations} (hone : OneInCharge state)
    (hok : IncarnationStepOk state label) (hstep : state.step label = some after) :
    OneInCharge after := by
  unfold Incarnations.step at hstep
  split at hstep
  · obtain ⟨hrestarts, hafter⟩ := Option.ite_none_right_eq_some.mp hstep
    obtain rfl := Option.some.inj hafter
    exact oneInCharge_restarted hone hrestarts
  next index hindex =>
      obtain ⟨thread, hthread, hmove⟩ := Option.bind_eq_some_iff.mp hstep
      obtain ⟨moved, hmoved, rfl⟩ := Option.map_eq_some_iff.mp hmove
      exact oneInCharge_of_move hone hthread hmoved (hok index hindex thread hthread moved hmoved)

end Steps

/-! ## Whole runs -/

/-- **Failures are handled once.** As long as no thread acts after it declared a
failure, each incarnation is failed, restarted and freed at most once. -/
theorem handledOnce_of_reaches {state : Incarnations}
    (hreached : incarnations.Reaches IncarnationStepOk state) : HandledOnce state := by
  have hone : OneInCharge state := by
    refine hreached.invariant (P := OneInCharge) ?_ ?_
    · exact ⟨by decide, by decide, by decide, by decide⟩
    · exact fun source label target _ hsource hok hstep => oneInCharge_of_step hsource hok hstep
  have hatMost := hone.atMostOne
  exact ⟨hone.failures, by omega, hone.freed⟩

/-- The first message never comes; the container is started again and lives. -/
theorem restarted_after_silence : ∃ state : Incarnations,
    state.threads = [⟨.waitInit 1, true⟩, ⟨.waitMessage, false⟩] ∧ state.failures = 0 ∧
      HandledOnce state := by
  have hrun : ∃ state, incarnations.Reaches IncarnationStepOk state ∧
      decide (state.threads = [⟨.waitInit 1, true⟩, ⟨.waitMessage, false⟩] ∧
        state.failures = 0) = true :=
    Machine.exists_reaches
      (.begin 0 :: List.replicate 10 (.timeout 0) ++
        [.timeout 0, .restart, .begin 1, .message 1 true .init, .timeout 1,
          .message 1 true .live])
      (by decide) (by decide)
  obtain ⟨state, hreached, hstate⟩ := hrun
  obtain ⟨hthreads, hfailures⟩ := of_decide_eq_true hstate
  exact ⟨state, hthreads, hfailures, handledOnce_of_reaches hreached⟩

/-- A thread that goes on waiting for the first message declares the failure again. -/
theorem silence_declared_twice :
    ¬ ∀ state, incarnations.Reaches Machine.Unguarded state → HandledOnce state := by
  intro hclaim
  have hrun : ∃ state, incarnations.Reaches Machine.Unguarded state ∧
      decide (state.failures = 2 ∧ state.restarts = 2 ∧ state.freed = 2) = true :=
    Machine.exists_reaches_unguarded (.begin 0 :: List.replicate 20 (.timeout 0)) (by decide)
  obtain ⟨state, hreached, hstate⟩ := hrun
  obtain ⟨hfailures, -, -⟩ := of_decide_eq_true hstate
  have honce := (hclaim state hreached).failures
  omega

end ContainerScheduler.Analysis
