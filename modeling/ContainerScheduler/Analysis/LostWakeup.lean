/-
# When no wake-up is lost

A notify of the last thread that had one to perform is the last chance to wake the
attention thread. It is not lost when that thread sleeps, and it is not needed
when that thread has still to read what was queued, or when there is nothing to
do. A pass has to leave nothing behind that it could have attended.
-/

import ContainerScheduler.Analysis.Finishing
import ContainerScheduler.Wire.Wakeup

namespace ContainerScheduler.Analysis

open Host Math Wire

/-- The notifies that other threads have still to perform. -/
def dueNotifies (state : Wakeup) : ℕ :=
  (state.clients.map ClientPc.due).sum + state.generator.due

/-- There is nothing to do: no share waits to be freed, and no queued request
could be attended with the free cores. -/
def NothingToDo (state : Wakeup) : Prop :=
  state.qFinishContainer = [] ∧
    ∀ request ∈ state.pending ++ state.new, ¬ CanAttend state.free request

instance (state : Wakeup) : Decidable (NothingToDo state) := by
  unfold NothingToDo
  infer_instance

/-- The attention thread does not sleep over something to do when nobody is left
to wake it. -/
def NoLostWakeup (state : Wakeup) : Prop :=
  state.attention = .waiting → dueNotifies state = 0 → NothingToDo state

instance (state : Wakeup) : Decidable (NoLostWakeup state) := by
  unfold NoLostWakeup
  infer_instance

/-- The attention thread has still to read everything in this pass. -/
def WillRead (state : Wakeup) : Prop :=
  match state.attention with
  | .draining | .joining _ => True
  | .attending => state.qFinishContainer = []
  | _ => False

instance (state : Wakeup) : Decidable (WillRead state) := by
  unfold WillRead
  cases state.attention <;> infer_instance

/-- A notify that is not lost: another one follows, or the attention thread sleeps
or has still to read everything, or there is nothing to do. -/
def NotifyOk (state : Wakeup) : Prop :=
  1 < dueNotifies state ∨ state.attention = .waiting ∨ WillRead state ∨ NothingToDo state

/-- Of the first requests that a pass tries, none that fits is refused, and none
that is attended gives cores back. -/
def AttendsFirst (env : PassEnv) (count : ℕ) : Prop :=
  ∀ tried < count, env.refused tried = false ∧ 0 ≤ env.charges tried

/-- A pass attends what it can: a notify follows anyway, or none of the queued
requests is refused although it fits or gives cores back. -/
def PassSettles (state : Wakeup) (env : PassEnv) : Prop :=
  0 < dueNotifies state ∨
    AttendsFirst env (state.pending.length + state.new.length) ∧ 0 ≤ env.reassigned

instance (state : Wakeup) : Decidable (NotifyOk state) := by
  unfold NotifyOk
  infer_instance

instance (state : Wakeup) (env : PassEnv) : Decidable (PassSettles state env) := by
  unfold PassSettles AttendsFirst
  infer_instance

/-- The condition on a step. -/
def WakeupStepOk (state : Wakeup) : WakeupStep → Prop
  | .attend env => PassSettles state env
  | .notify | .clientNotify _ => NotifyOk state
  | _ => True

instance (state : Wakeup) (step : WakeupStep) : Decidable (WakeupStepOk state step) := by
  unfold WakeupStepOk
  cases step <;> infer_instance

/-! ## The requests of the scheduler -/

/-! ## A pass -/

theorem canAttend_mono {free more : ℤ} {request : QueuedRequest} (hmore : free ≤ more)
    (hcan : CanAttend free request) : CanAttend more request :=
  ⟨hcan.1, hcan.2.trans hmore⟩

/-- A loop that attends what it can leaves nothing behind that fits. -/
theorem serveAll_settles {env : PassEnv} {free : ℤ} {tried : ℕ} {requests : List QueuedRequest}
    (henv : AttendsFirst env (tried + requests.length)) :
    (serveAll env free tried requests).free ≤ free ∧
      (serveAll env free tried requests).tried = tried + requests.length ∧
      ∀ request ∈ (serveAll env free tried requests).kept,
        ¬ CanAttend (serveAll env free tried requests).free request := by
  induction requests generalizing free tried with
  | nil => simp [serveAll]
  | cons request requests ih =>
      have hlength : tried + (request :: requests).length = tried + 1 + requests.length := by
        rw [List.length_cons]
        omega
      rw [hlength] at henv ⊢
      obtain ⟨hattended, hcharge⟩ := henv tried (by omega)
      rw [serveAll]
      split
      next =>
          obtain ⟨hless, htried, hkept⟩ := @ih (free - env.charges tried) (tried + 1) henv
          exact ⟨by simp only; omega, htried, hkept⟩
      next hnot =>
          obtain ⟨hless, htried, hkept⟩ := @ih free (tried + 1) henv
          have hunfit : ¬ CanAttend free request := fun hcan => hnot ⟨hcan, hattended⟩
          refine ⟨hless, htried, fun other hmem => ?_⟩
          obtain rfl | hold := List.mem_cons.mp hmem
          · exact fun hcan => hunfit (canAttend_mono hless hcan)
          · exact hkept other hold

theorem not_canAttend_of_nonpos {free : ℤ} (hfree : ¬ 0 < free) (request : QueuedRequest) :
    ¬ CanAttend free request := by
  rintro ⟨hneeds, hfits⟩
  omega

section Pass

variable {cores : ℤ} {env : PassEnv} {state : Wakeup}

theorem attendPending_settles (henv : AttendsFirst env state.pending.length) :
    (state.attendPending env).2 ≤ state.pending.length ∧
      (state.attendPending env).1.new = state.new ∧
      ∀ request ∈ (state.attendPending env).1.pending,
        ¬ CanAttend (state.attendPending env).1.free request := by
  unfold Wakeup.attendPending
  split
  · have hloop : AttendsFirst env (0 + state.pending.length) := by rwa [Nat.zero_add]
    obtain ⟨-, htried, hkept⟩ := @serveAll_settles env state.free 0 state.pending hloop
    exact ⟨(htried.trans (Nat.zero_add _)).le, rfl, hkept⟩
  next hfree =>
      exact ⟨Nat.zero_le _, rfl, fun request _ => not_canAttend_of_nonpos hfree request⟩

theorem attendNew_settles {tried : ℕ} (henv : AttendsFirst env (tried + state.new.length))
    (hpending : ∀ request ∈ state.pending, ¬ CanAttend state.free request) :
    ∀ request ∈ (state.attendNew cores env tried).pending ++ (state.attendNew cores env tried).new,
      ¬ CanAttend (state.attendNew cores env tried).free request := by
  unfold Wakeup.attendNew
  split
  · obtain ⟨hless, -, hkept⟩ := @serveAll_settles env state.free tried state.new henv
    intro request hmem hcan
    rw [Wakeup.launch, List.append_nil] at hmem
    obtain hold | hnew := List.mem_append.mp hmem
    · exact hpending request hold (canAttend_mono hless hcan)
    · exact hkept request (List.mem_filter.mp hnew).1 hcan
  next hfree => exact fun request _ => not_canAttend_of_nonpos hfree request

theorem attend_settles (henv : AttendsFirst env (state.pending.length + state.new.length))
    (hreassigned : 0 ≤ env.reassigned) :
    ∀ request ∈ (state.attend cores env).pending ++ (state.attend cores env).new,
      ¬ CanAttend (state.attend cores env).free request := by
  obtain ⟨htried, hnew, hpending⟩ := @attendPending_settles env state fun tried hfirst =>
    henv tried (by omega)
  have hrest : AttendsFirst env
      ((state.attendPending env).2 + (state.attendPending env).1.new.length) := by
    rw [hnew]
    exact fun tried hfirst => henv tried (by omega)
  intro request hmem hcan
  refine attendNew_settles hrest hpending request hmem (canAttend_mono ?_ hcan)
  simp only [Wakeup.attend]
  omega

/-- What no pass changes: the finished containers, and the notifies that are due.
New client threads have none. -/
structure SameNotifies (before after : Wakeup) : Prop where
  qFinishContainer : after.qFinishContainer = before.qFinishContainer
  due : dueNotifies after = dueNotifies before

theorem SameNotifies.trans {first second third : Wakeup} (hfirst : SameNotifies first second)
    (hsecond : SameNotifies second third) : SameNotifies first third :=
  ⟨hsecond.qFinishContainer.trans hfirst.qFinishContainer, hsecond.due.trans hfirst.due⟩

theorem attendPending_sameNotifies : SameNotifies state (state.attendPending env).1 := by
  unfold Wakeup.attendPending
  split
  · exact ⟨rfl, by simp [dueNotifies, Wakeup.launch, ClientPc.due]⟩
  · exact ⟨rfl, rfl⟩

theorem attendNew_sameNotifies (tried : ℕ) :
    SameNotifies state (state.attendNew cores env tried) := by
  unfold Wakeup.attendNew
  split
  · exact ⟨rfl, by simp [dueNotifies, Wakeup.launch, ClientPc.due]⟩
  · exact ⟨rfl, rfl⟩

theorem attend_sameNotifies : SameNotifies state (state.attend cores env) := by
  have hserved : SameNotifies state
      (Wakeup.attendNew cores (state.attendPending env).1 env (state.attendPending env).2) :=
    attendPending_sameNotifies.trans (attendNew_sameNotifies _)
  exact ⟨hserved.qFinishContainer, hserved.due⟩

end Pass

/-! ## The invariant -/

/-- What is to be done will be seen: by the pass under way, or after a notify. -/
def Covered (state : Wakeup) : Prop :=
  0 < dueNotifies state ∨ WillRead state ∨ NothingToDo state

/-- Moving one client thread changes the due notifies by what that thread owes. -/
theorem sum_due_set {clients : List ClientPc} {client : ℕ} {pc : ClientPc}
    (hpc : clients[client]? = some pc) (moved : ClientPc) :
    ((clients.set client moved).map ClientPc.due).sum + pc.due =
      (clients.map ClientPc.due).sum + moved.due := by
  induction clients generalizing client with
  | nil => simp at hpc
  | cons first clients ih =>
      cases client with
      | zero =>
          obtain rfl : first = pc := by simpa using hpc
          simp only [List.set_cons_zero, List.map_cons, List.sum_cons]
          omega
      | succ client =>
          have hrest := ih (by simpa using hpc)
          simp only [List.set_cons_succ, List.map_cons, List.sum_cons]
          omega

theorem dueNotifies_setClient {state : Wakeup} {client : ℕ} {pc : ClientPc}
    (hpc : state.clients[client]? = some pc) (moved : ClientPc) :
    dueNotifies (state.setClient client moved) + pc.due = dueNotifies state + moved.due := by
  have hsum := sum_due_set hpc moved
  simp only [dueNotifies, Wakeup.setClient]
  omega

/-- A thread that has performed a notify, with everything else as it was. -/
structure Notified (before after : Wakeup) : Prop where
  attention : after.attention = before.attention
  qFinishContainer : after.qFinishContainer = before.qFinishContainer
  free : after.free = before.free
  new : after.new = before.new
  pending : after.pending = before.pending
  due : dueNotifies after + 1 = dueNotifies before

/-- A notify that is not lost keeps the invariant. -/
theorem covered_wake {before after : Wakeup} (hnotified : Notified before after)
    (hok : NotifyOk before) : Covered after.wake := by
  by_cases hwaiting : after.attention = .waiting
  · refine .inr (.inl ?_)
    simp [Wakeup.wake, WillRead, hwaiting]
  · rw [Wakeup.wake, if_neg hwaiting]
    obtain hdue | hsleeps | hreads | hnothing := hok
    · have hone := hnotified.due
      exact .inl (by omega)
    · exact absurd (hnotified.attention.trans hsleeps) hwaiting
    · refine .inr (.inl ?_)
      rw [WillRead, hnotified.attention, hnotified.qFinishContainer]
      exact hreads
    · refine .inr (.inr ?_)
      rw [NothingToDo, hnotified.qFinishContainer, hnotified.free, hnotified.new,
        hnotified.pending]
      exact hnothing

theorem notified_setClient {state : Wakeup} {client : ℕ} {pc moved : ClientPc}
    (hpc : state.clients[client]? = some pc) (howes : pc.due = moved.due + 1) :
    Notified state (state.setClient client moved) where
  attention := rfl
  qFinishContainer := rfl
  free := rfl
  new := rfl
  pending := rfl
  due := by
    have hdue := dueNotifies_setClient hpc moved
    omega

/-- A thread that owes a notify covers everything. -/
theorem covered_setClient {state : Wakeup} {client : ℕ} {pc moved : ClientPc}
    (hpc : state.clients[client]? = some pc) (hmoved : 0 < moved.due) :
    Covered (state.setClient client moved) := by
  have hdue := dueNotifies_setClient hpc moved
  have hothers : dueNotifies (state.setClient client .ended) + pc.due = dueNotifies state :=
    dueNotifies_setClient hpc .ended
  have hpos : 0 < dueNotifies (state.setClient client moved) := by omega
  exact .inl hpos

section Steps

variable {cores : ℤ} {state after : Wakeup}

/-- A pass that attends what it can leaves nothing to do, or a notify follows. -/
theorem covered_of_settled {env : PassEnv} (hcovered : Covered state)
    (hattending : state.attention = .attending) (hok : PassSettles state env) :
    Covered (state.attend cores env) := by
  have hsame : SameNotifies state (state.attend cores env) := attend_sameNotifies
  by_cases hdue : 0 < dueNotifies state
  · exact .inl (hsame.due ▸ hdue)
  · have hempty : state.qFinishContainer = [] := by
      obtain hpos | hreads | hnothing := hcovered
      · exact absurd hpos hdue
      · simpa [WillRead, hattending] using hreads
      · exact hnothing.1
    obtain hpos | ⟨henv, hreassigned⟩ := hok
    · exact absurd hpos hdue
    · exact .inr (.inr ⟨hsame.qFinishContainer.trans hempty, attend_settles henv hreassigned⟩)

theorem covered_of_step {step : WakeupStep} (hcovered : Covered state)
    (hok : WakeupStepOk state step) (hstep : state.step cores step = some after) :
    Covered after := by
  cases step with
  | evaluate =>
      obtain ⟨hpc, hafter⟩ := Option.ite_none_right_eq_some.mp hstep
      obtain rfl := Option.some.inj hafter
      refine hcovered.imp_right (Or.imp_left fun hreads => ?_)
      simp [WillRead, hpc] at hreads
  | wait =>
      obtain ⟨hpc, hafter⟩ := Option.ite_none_right_eq_some.mp hstep
      obtain rfl := Option.some.inj hafter
      refine hcovered.imp_right (Or.imp_left fun hreads => ?_)
      simp [WillRead, hpc] at hreads
  | popFinished =>
      simp only [Wakeup.step] at hstep
      split at hstep
      · obtain rfl := Option.some.inj hstep
        exact .inr (.inl trivial)
      · cases hstep
  | join =>
      simp only [Wakeup.step] at hstep
      split at hstep
      · obtain ⟨-, hafter⟩ := Option.ite_none_right_eq_some.mp hstep
        obtain rfl := Option.some.inj hafter
        exact .inr (.inl trivial)
      · cases hstep
  | drained reassigned =>
      obtain ⟨⟨-, hempty⟩, hafter⟩ := Option.ite_none_right_eq_some.mp hstep
      obtain rfl := Option.some.inj hafter
      exact .inr (.inl hempty)
  | attend env =>
      obtain ⟨hpc, hafter⟩ := Option.ite_none_right_eq_some.mp hstep
      obtain rfl := Option.some.inj hafter
      exact covered_of_settled hcovered hpc hok
  | enqueue request =>
      obtain ⟨-, hafter⟩ := Option.ite_none_right_eq_some.mp hstep
      obtain rfl := Option.some.inj hafter
      exact .inl (by simp [dueNotifies, GeneratorPc.due])
  | notify =>
      obtain ⟨hpc, hafter⟩ := Option.ite_none_right_eq_some.mp hstep
      obtain rfl := Option.some.inj hafter
      have hnotified : Notified state { state with generator := .idle } :=
        ⟨rfl, rfl, rfl, rfl, rfl, by simp [dueNotifies, hpc, GeneratorPc.due]⟩
      exact covered_wake hnotified hok
  | terminate =>
      obtain ⟨hpc, hafter⟩ := Option.ite_none_right_eq_some.mp hstep
      obtain rfl := Option.some.inj hafter
      simpa [Covered, dueNotifies, GeneratorPc.due, WillRead, NothingToDo, hpc] using hcovered
  | exit client share =>
      obtain ⟨hpc, hafter⟩ := Option.ite_none_right_eq_some.mp hstep
      obtain rfl := Option.some.inj hafter
      exact covered_setClient hpc (by decide)
  | fail client share restart =>
      obtain ⟨⟨hpc, -⟩, hafter⟩ := Option.ite_none_right_eq_some.mp hstep
      obtain rfl := Option.some.inj hafter
      exact covered_setClient hpc (by decide)
  | clientNotify client =>
      simp only [Wakeup.step] at hstep
      split at hstep
      next hpc =>
          obtain rfl := Option.some.inj hstep
          exact covered_wake (notified_setClient hpc rfl) hok
      next hpc =>
          obtain rfl := Option.some.inj hstep
          exact covered_wake (notified_setClient hpc rfl) hok
      next hpc =>
          obtain rfl := Option.some.inj hstep
          exact covered_wake (notified_setClient hpc rfl) hok
      next => cases hstep
  | dropName client =>
      obtain ⟨hpc, hafter⟩ := Option.ite_none_right_eq_some.mp hstep
      obtain rfl := Option.some.inj hafter
      exact covered_setClient hpc (by decide)

end Steps

/-! ## Whole runs -/

/-- A pass in which every request is attended and charged two cores. -/
def twoCoresEach : PassEnv := ⟨fun _ => 2, fun _ => false, 0⟩

/-- A launch that needs two cores. -/
def twoCoreStart : QueuedRequest := ⟨.start, 2, 2⟩

end ContainerScheduler.Analysis
