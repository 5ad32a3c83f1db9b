/-
# The rendezvous on lists

The table with pointers does what a family of lists does, so each run of the code is a
run with lists for queues. What a step can do is then said once, with the lists before
and after: the effects below.
-/

import ContainerScheduler.Rendezvous.LocalRendezvous

namespace ContainerScheduler.Analysis

open Math Rendezvous

universe u

/-! ## Lists for queues -/

section Simulation

variable {Q Q' τ ε μ κ η : Type u} {ops : QueueOps Q (ℕ × η) (Item τ μ)}
  {ops' : QueueOps Q' (ℕ × η) (Item τ μ)} {R : Q → Q' → Prop} {keyHash : κ → η}
  {state : State Q τ ε μ κ η} {queues' : Q'}

/-- The states that differ in their tables only, which are related. -/
def TableRelated (R : Q → Q' → Prop) (state : State Q τ ε μ κ η) (state' : State Q' τ ε μ κ η) :
    Prop :=
  ∃ queues', R state.queues queues' ∧ state' = state.withQueues queues'

section WithQueues

@[simp]
theorem withQueues_queues : (state.withQueues queues').queues = queues' := rfl

@[simp]
theorem withQueues_status : (state.withQueues queues').status = state.status := rfl

@[simp]
theorem withQueues_aborts : (state.withQueues queues').aborts = state.aborts := rfl

@[simp]
theorem withQueues_calls : (state.withQueues queues').calls = state.calls := rfl

@[simp]
theorem withQueues_managers : (state.withQueues queues').managers = state.managers := rfl

@[simp]
theorem withQueues_name (hash : η) : (state.withQueues queues').name hash = state.name hash := rfl

@[simp]
theorem manage_queues [DecidableEq μ] (manager : μ)
    (change : CancellationManager η → CancellationManager η) :
    (state.manage manager change).queues = state.queues := rfl

@[simp]
theorem manage_name [DecidableEq μ] (manager : μ)
    (change : CancellationManager η → CancellationManager η) (hash : η) :
    (state.manage manager change).name hash = state.name hash := rfl

end WithQueues

section Refines

variable (hops : ops.Refines ops' R) (hrelated : R state.queues queues')

include hops hrelated

theorem tableRelated_send [DecidableEq κ] (key : κ) (value : τ) (isDead : Bool) :
    TableRelated R (send ops keyHash key value isDead state)
      (send ops' keyHash key value isDead (state.withQueues queues')) := by
  cases hstatus : state.status with
  | some status =>
      simp only [send, withQueues_status, hstatus]
      exact ⟨queues', hrelated, rfl⟩
  | none =>
      simp only [send, withQueues_status, withQueues_queues, withQueues_name, hstatus]
      have htouch := hops.touch hrelated (state.name (keyHash key))
      rw [← hops.front htouch]
      cases ops.front (ops.touch state.queues (state.name (keyHash key)))
        (state.name (keyHash key)) with
      | none => exact ⟨_, hops.pushBack htouch _ _, rfl⟩
      | some item =>
          cases item with
          | send _ _ => exact ⟨_, hops.pushBack htouch _ _, rfl⟩
          | recv _ _ _ => exact ⟨_, hops.popFront htouch _, rfl⟩

omit hrelated in
theorem tableRelated_enqueue [DecidableEq μ] (key : κ) (receive : ℕ) (manager : Option μ)
    {queues : Q} {after' : Q'} (hqueues : R queues after') :
    TableRelated R (enqueue ops keyHash key receive manager queues state)
      (enqueue ops' keyHash key receive manager after' (state.withQueues queues')) := by
  cases manager with
  | none => exact ⟨_, hops.pushBack hqueues _ _, rfl⟩
  | some manager =>
      cases hregisters : (state.managers manager).registers with
      | true =>
          simp only [enqueue, withQueues_managers, hregisters, if_true]
          exact ⟨_, hops.pushBack hqueues _ _, rfl⟩
      | false =>
          simp only [enqueue, withQueues_managers, hregisters, Bool.false_eq_true, if_false]
          exact ⟨_, hqueues, rfl⟩

theorem tableRelated_recvAsync [DecidableEq μ] [DecidableEq κ] (key : κ) (manager : Option μ) :
    TableRelated R (recvAsync ops keyHash key manager state)
      (recvAsync ops' keyHash key manager (state.withQueues queues')) := by
  cases hstatus : state.status with
  | some status =>
      simp only [recvAsync, withQueues_status, hstatus]
      exact ⟨queues', hrelated, rfl⟩
  | none =>
      simp only [recvAsync, withQueues_status, withQueues_queues, withQueues_name, hstatus]
      have htouch := hops.touch hrelated (state.name (keyHash key))
      have henqueue : TableRelated R
          (enqueue ops keyHash key state.nextReceive manager
            (ops.touch state.queues (state.name (keyHash key))) (state.issue key manager))
          (enqueue ops' keyHash key state.nextReceive manager
            (ops'.touch queues' (state.name (keyHash key)))
            ((state.issue key manager).withQueues queues')) :=
        tableRelated_enqueue hops key state.nextReceive manager htouch
      rw [← hops.front htouch]
      cases ops.front (ops.touch state.queues (state.name (keyHash key)))
        (state.name (keyHash key)) with
      | none => exact henqueue
      | some item =>
          cases item with
          | send _ _ => exact ⟨_, hops.popFront htouch _, rfl⟩
          | recv _ _ _ => exact henqueue

theorem tableRelated_abortItem {abort : ℕ} {hash : η} {target : State Q τ ε μ κ η}
    (htaken : abortItem ops abort hash state = some target) :
    ∃ target', abortItem ops' abort hash (state.withQueues queues') = some target' ∧
      TableRelated R target target' := by
  have hpop := hops.popFront hrelated (abort, hash)
  simp only [abortItem, withQueues_aborts, withQueues_queues, Option.bind_eq_bind,
    ← hops.front hrelated, Option.bind_eq_some_iff] at htaken ⊢
  obtain ⟨status, hstatus, item, hitem, htaken⟩ := htaken
  cases item with
  | send _ _ =>
      obtain rfl := Option.some.inj htaken
      exact ⟨_, ⟨status, hstatus, _, hitem, rfl⟩, _, hpop, rfl⟩
  | recv _ _ _ =>
      obtain rfl := Option.some.inj htaken
      exact ⟨_, ⟨status, hstatus, _, hitem, rfl⟩, _, hpop, rfl⟩

omit hrelated in
theorem tableRelated_callback (state : State Q τ ε μ κ η) (hrelated : R state.queues queues')
    (manager : μ) (token : CancellationToken) (hash : η) :
    TableRelated R (callback ops manager token hash state)
      (callback ops' manager token hash (state.withQueues queues')) := by
  have htouch := hops.touch hrelated (state.name hash)
  obtain ⟨hfound, hremoved⟩ := hops.removeFirst htouch (state.name hash) (Item.hasToken token)
  simp only [callback, withQueues_queues, withQueues_name, ← hops.front htouch]
  cases ops.front (ops.touch state.queues (state.name hash)) (state.name hash) with
  | none => exact ⟨_, htouch, rfl⟩
  | some item =>
      cases item with
      | send _ _ => exact ⟨_, htouch, rfl⟩
      | recv _ _ _ =>
          generalize ops.removeFirst (ops.touch state.queues (state.name hash)) (state.name hash)
            (Item.hasToken token) = removed at hfound hremoved
          generalize ops'.removeFirst (ops'.touch queues' (state.name hash)) (state.name hash)
            (Item.hasToken token) = removed' at hfound hremoved
          obtain ⟨found, queues⟩ := removed
          obtain ⟨found', queues'⟩ := removed'
          obtain rfl : found = found' := hfound
          cases found with
          | none => exact ⟨_, hremoved, rfl⟩
          | some item =>
              cases item with
              | send _ _ => exact ⟨_, hremoved, rfl⟩
              | recv _ _ _ => exact ⟨_, hremoved, rfl⟩

/-- **Related tables stay related.** A step with one is a step with the other. -/
theorem tableRelated_step [DecidableEq μ] [DecidableEq κ] {label : Label τ ε μ κ η}
    {target : State Q τ ε μ κ η} (htaken : step ops keyHash state label = some target) :
    ∃ target', step ops' keyHash (state.withQueues queues') label = some target' ∧
      TableRelated R target target' := by
  cases label with
  | send key value isDead =>
      obtain rfl := Option.some.inj htaken
      exact ⟨_, rfl, tableRelated_send hops hrelated key value isDead⟩
  | recvAsync key manager =>
      obtain rfl := Option.some.inj htaken
      exact ⟨_, rfl, tableRelated_recvAsync hops hrelated key manager⟩
  | tryDeregisterCallback index =>
      simp only [step, deregister, withQueues_calls, Option.bind_eq_bind,
        Option.bind_eq_some_iff] at htaken ⊢
      obtain ⟨call, hcall, ⟨manager, token⟩, hderegisters, htaken⟩ := htaken
      obtain rfl := Option.some.inj htaken
      exact ⟨_, ⟨call, hcall, _, hderegisters, rfl⟩, queues', hrelated, rfl⟩
  | done index =>
      simp only [step, done, withQueues_calls, Option.bind_eq_bind,
        Option.bind_eq_some_iff] at htaken ⊢
      obtain ⟨call, hcall, htaken⟩ := htaken
      split at htaken
      · contradiction
      · rename_i hready
        obtain rfl := Option.some.inj htaken
        exact ⟨_, ⟨call, hcall, if_neg hready⟩, queues', hrelated, rfl⟩
  | startAbort status =>
      obtain rfl := Option.some.inj htaken
      exact ⟨_, rfl, queues', hrelated, rfl⟩
  | abortItem abort hash => exact tableRelated_abortItem hops hrelated htaken
  | getCancellationToken manager =>
      obtain rfl := Option.some.inj htaken
      exact ⟨_, rfl, queues', hrelated, rfl⟩
  | startCancel manager =>
      obtain rfl := Option.some.inj htaken
      refine ⟨_, rfl, ?_⟩
      cases hregisters : (state.managers manager).registers with
      | true =>
          simp only [startCancel, withQueues_managers, hregisters, if_true]
          exact ⟨queues', hrelated, rfl⟩
      | false =>
          simp only [startCancel, withQueues_managers, hregisters, Bool.false_eq_true, if_false]
          exact ⟨queues', hrelated, rfl⟩
  | runCallback manager index =>
      simp only [step, runCallback, withQueues_managers, Option.bind_eq_bind,
        Option.bind_eq_some_iff] at htaken ⊢
      obtain ⟨⟨token, hash⟩, hcallback, htaken⟩ := htaken
      obtain rfl := Option.some.inj htaken
      refine ⟨_, ⟨_, hcallback, rfl⟩, ?_⟩
      exact tableRelated_callback hops
        (state.manage manager fun record =>
          { record with callbacksToRun := record.callbacksToRun.eraseIdx index })
        hrelated manager token hash
  | finishCancel manager =>
      simp only [step, finishCancel, withQueues_managers] at htaken ⊢
      split at htaken
      · rename_i hready
        obtain rfl := Option.some.inj htaken
        exact ⟨_, if_pos hready, queues', hrelated, rfl⟩
      · contradiction

end Refines

end Simulation

/-! ## Effects -/

section Effects

variable {τ ε μ κ η : Type u}

/-- The rendezvous with lists for queues. -/
abbrev ListState (τ ε μ κ η : Type u) := State (ℕ × η → List (Item τ μ)) τ ε μ κ η

namespace Effects

variable (state : ListState τ ε μ κ η)

/-- The queue of a hash in the table in use. -/
def live (hash : η) : List (Item τ μ) := state.queues (state.name hash)

/-- No value waits at the front. -/
def NoSend (hash : η) : Prop := ∀ value isDead, (live state hash).head? ≠ some (.send value isDead)

/-- No receive waits at the front. -/
def NoRecv (hash : η) : Prop :=
  ∀ receive own token, (live state hash).head? ≠ some (.recv receive own token)

variable [DecidableEq η]

/-- Another list in place of a queue of the table in use. -/
def setLive (hash : η) (items : List (Item τ μ)) : ListState τ ε μ κ η :=
  state.withQueues (Function.update state.queues (state.name hash) items)

end Effects

open Effects

variable [DecidableEq μ] [DecidableEq κ] [DecidableEq η]

/-- What each step does to the lists and to the rest of the state. -/
inductive StepEffect (keyHash : κ → η) (state : ListState τ ε μ κ η) :
    Label τ ε μ κ η → ListState τ ε μ κ η → Prop
  | rejected {key value isDead status} (hstatus : state.status = some status) :
      StepEffect keyHash state (.send key value isDead) state
  | posted {key value isDead} (hstatus : state.status = none)
      (hfront : NoRecv state (keyHash key)) :
      StepEffect keyHash state (.send key value isDead)
        (setLive (state.post key value isDead) (keyHash key)
          (live state (keyHash key) ++ [.send value isDead]))
  | sentTo {key value isDead receive own token rest} (hstatus : state.status = none)
      (hlive : live state (keyHash key) = .recv receive own token :: rest) :
      StepEffect keyHash state (.send key value isDead)
        (setLive (((state.post key value isDead).deliver key receive value isDead).push
          (Item.call receive own token (.ok value isDead))) (keyHash key) rest)
  | late {key manager status} (hstatus : state.status = some status) :
      StepEffect keyHash state (.recvAsync key manager)
        ((state.issue key manager).push ⟨state.nextReceive, none, .aborted status⟩)
  | receivedFrom {key manager value isDead rest} (hstatus : state.status = none)
      (hlive : live state (keyHash key) = .send value isDead :: rest) :
      StepEffect keyHash state (.recvAsync key manager)
        (setLive (((state.issue key manager).deliver key state.nextReceive value isDead).push
          ⟨state.nextReceive, none, .ok value isDead⟩) (keyHash key) rest)
  | waits {key} (hstatus : state.status = none) (hfront : NoSend state (keyHash key)) :
      StepEffect keyHash state (.recvAsync key none)
        (setLive (state.issue key none) (keyHash key)
          (live state (keyHash key) ++ [.recv state.nextReceive none kInvalidToken]))
  | registered {key manager} (hstatus : state.status = none)
      (hfront : NoSend state (keyHash key))
      (hregisters : (state.managers manager).registers = true) :
      StepEffect keyHash state (.recvAsync key (some manager))
        (setLive ((state.issue key (some manager)).manage manager fun record =>
            record.takeToken.registerCallback
              (state.managers manager).nextCancellationToken (keyHash key))
          (keyHash key) (live state (keyHash key) ++
            [.recv state.nextReceive (some manager)
              (state.managers manager).nextCancellationToken]))
  | refused {key manager} (hstatus : state.status = none)
      (hregisters : (state.managers manager).registers = false) :
      StepEffect keyHash state (.recvAsync key (some manager))
        ((((state.issue key (some manager)).manage manager fun record =>
            record.takeToken.registerCallback
              (state.managers manager).nextCancellationToken (keyHash key)).cancel
          state.nextReceive).push ⟨state.nextReceive, none, .cancelled⟩)
  | deregistered {index call manager token} (hcall : state.calls[index]? = some call)
      (hderegisters : call.deregisters = some (manager, token)) :
      StepEffect keyHash state (.tryDeregisterCallback index)
        { state.manage manager fun record => record.tryDeregisterCallback token with
          calls := state.calls.set index { call with deregisters := none } }
  | done {index call} (hcall : state.calls[index]? = some call)
      (hderegisters : call.deregisters = none) :
      StepEffect keyHash state (.done index)
        { state with
          calls := state.calls.eraseIdx index
          history := { state.history with
            completed := state.history.completed ++ [(call.receive, call.outcome)] } }
  | aborted {status} : StepEffect keyHash state (.startAbort status) (startAbort status state)
  | droppedItem {abort hash status value isDead rest} (habort : state.aborts[abort]? = some status)
      (hqueue : state.queues (abort, hash) = .send value isDead :: rest) :
      StepEffect keyHash state (.abortItem abort hash)
        (state.withQueues (Function.update state.queues (abort, hash) rest))
  | abortedItem {abort hash status receive own token rest}
      (habort : state.aborts[abort]? = some status)
      (hqueue : state.queues (abort, hash) = .recv receive own token :: rest) :
      StepEffect keyHash state (.abortItem abort hash)
        ((state.push (Item.call receive own token (.aborted status))).withQueues
          (Function.update state.queues (abort, hash) rest))
  | tokenTaken {manager} :
      StepEffect keyHash state (.getCancellationToken manager)
        (state.manage manager CancellationManager.takeToken)
  | cancelStarted {manager} (hregisters : (state.managers manager).registers = true) :
      StepEffect keyHash state (.startCancel manager)
        (state.manage manager CancellationManager.startCancel)
  | cancelReturned {manager} (hregisters : (state.managers manager).registers = false) :
      StepEffect keyHash state (.startCancel manager) (state.finish manager)
  | missed {manager index token hash}
      (hcallback : (state.managers manager).callbacksToRun[index]? = some (token, hash))
      (hmiss : NoRecv state hash ∨ ∀ item ∈ live state hash, item.hasToken token = false) :
      StepEffect keyHash state (.runCallback manager index)
        (state.manage manager fun record =>
          { record with callbacksToRun := record.callbacksToRun.eraseIdx index })
  | hit {manager index token hash before receive own after}
      (hcallback : (state.managers manager).callbacksToRun[index]? = some (token, hash))
      (hlive : live state hash = before ++ .recv receive own token :: after)
      (hbefore : ∀ item ∈ before, item.hasToken token = false) :
      StepEffect keyHash state (.runCallback manager index)
        (setLive
          { (((state.manage manager fun record =>
              { record with callbacksToRun := record.callbacksToRun.eraseIdx index }).cancel
                receive).push (Item.call receive own token .cancelled)) with
            history := { (state.cancel receive).history with
              hits := state.history.hits ++ [(manager, receive)] } }
          hash (before ++ after))
  | cancelFinished {manager} (hcancelling : (state.managers manager).isCancelling = true)
      (hrun : (state.managers manager).callbacksToRun = []) :
      StepEffect keyHash state (.finishCancel manager)
        ((state.manage manager CancellationManager.finishCancel).finish manager)

variable {keyHash : κ → η} {state target : ListState τ ε μ κ η}

omit [DecidableEq μ] [DecidableEq κ] in
/-- To put the tail in place of a queue with a first item takes that item off. -/
theorem setLive_tail {after : ListState τ ε μ κ η} {hash : η} {item : Item τ μ}
    {rest : List (Item τ μ)} (hlive : live state hash = item :: rest) :
    after.withQueues (Function.update state.queues (state.name hash)
      (state.queues (state.name hash)).tail) =
        after.withQueues (Function.update state.queues (state.name hash) rest) := by
  have htail : (state.queues (state.name hash)).tail = rest := by
    rw [show state.queues (state.name hash) = item :: rest from hlive, List.tail_cons]
  rw [htail]

theorem effect_send (key : κ) (value : τ) (isDead : Bool) :
    StepEffect keyHash state (.send key value isDead)
      (send listOps keyHash key value isDead state) := by
  cases hstatus : state.status with
  | some status =>
      simp only [send, hstatus]
      exact .rejected hstatus
  | none =>
      simp only [send, hstatus, listOps]
      cases hfront : (state.queues (state.name (keyHash key))).head? with
      | none => exact .posted hstatus fun receive own token => by simp [live, hfront]
      | some item =>
          cases item with
          | send _ _ => exact .posted hstatus fun receive own token => by simp [live, hfront]
          | recv receive own token =>
              obtain ⟨rest, hlive⟩ := List.head?_eq_some_iff.mp hfront
              simp only [setLive_tail hlive]
              exact .sentTo hstatus hlive

theorem effect_recvAsync (key : κ) (manager : Option μ) :
    StepEffect keyHash state (.recvAsync key manager)
      (recvAsync listOps keyHash key manager state) := by
  have henqueue : state.status = none → NoSend state (keyHash key) →
      StepEffect keyHash state (.recvAsync key manager)
        (enqueue listOps keyHash key state.nextReceive manager state.queues
          (state.issue key manager)) := by
    intro hstatus hfront
    cases manager with
    | none => exact .waits hstatus hfront
    | some manager =>
        simp only [enqueue]
        split
        · rename_i hregisters
          exact .registered hstatus hfront hregisters
        · rename_i hregisters
          exact .refused hstatus (Bool.eq_false_of_not_eq_true hregisters)
  cases hstatus : state.status with
  | some status =>
      simp only [recvAsync, hstatus]
      exact .late hstatus
  | none =>
      simp only [recvAsync, hstatus]
      cases hfront : (state.queues (state.name (keyHash key))).head? with
      | none =>
          simp only [listOps, hfront]
          exact henqueue hstatus fun value isDead => by simp [live, hfront]
      | some item =>
          simp only [listOps, hfront]
          cases item with
          | send value isDead =>
              obtain ⟨rest, hlive⟩ := List.head?_eq_some_iff.mp hfront
              simp only [setLive_tail hlive]
              exact .receivedFrom hstatus hlive
          | recv _ _ _ => exact henqueue hstatus fun value isDead => by simp [live, hfront]

theorem effect_abortItem {abort : ℕ} {hash : η}
    (htaken : abortItem listOps.{u, u} abort hash state = some target) :
    StepEffect keyHash state (.abortItem abort hash) target := by
  simp only [abortItem, listOps, Option.bind_eq_bind, Option.bind_eq_some_iff] at htaken
  obtain ⟨status, habort, item, hitem, htaken⟩ := htaken
  obtain ⟨rest, hqueue⟩ := List.head?_eq_some_iff.mp hitem
  rw [hqueue, List.tail_cons] at htaken
  cases item with
  | send value isDead =>
      obtain rfl := Option.some.inj htaken
      exact .droppedItem habort hqueue
  | recv receive own token =>
      obtain rfl := Option.some.inj htaken
      exact .abortedItem habort hqueue

theorem effect_callback {manager : μ} {index : ℕ} {token : CancellationToken} {hash : η}
    (hcallback : (state.managers manager).callbacksToRun[index]? = some (token, hash)) :
    StepEffect keyHash state (.runCallback manager index)
      (callback listOps manager token hash (state.manage manager fun record =>
        { record with callbacksToRun := record.callbacksToRun.eraseIdx index })) := by
  simp only [callback, listOps, manage_queues, manage_name]
  cases hfront : (state.queues (state.name hash)).head? with
  | none => exact .missed hcallback (.inl fun receive own token => by simp [live, hfront])
  | some item =>
      cases item with
      | send _ _ => exact .missed hcallback (.inl fun receive own token => by simp [live, hfront])
      | recv _ _ _ =>
          simp only
          cases hfind : (state.queues (state.name hash)).find? (Item.hasToken token) with
          | none =>
              have hmiss : ∀ item ∈ state.queues (state.name hash),
                  item.hasToken token = false := by
                simpa using List.find?_eq_none.mp hfind
              rw [List.eraseP_of_forall_not (by simpa using hmiss), Function.update_eq_self]
              exact .missed hcallback (.inr hmiss)
          | some item =>
              obtain ⟨hmeets, before, after, hlive, hbefore⟩ :=
                List.find?_eq_some_iff_append.mp hfind
              have hbefore' : ∀ item ∈ before, item.hasToken token = false := by
                simpa using hbefore
              rw [hlive, List.eraseP_append_right _ (by simpa using hbefore'),
                List.eraseP_cons_of_pos hmeets]
              cases item with
              | send _ _ => contradiction
              | recv receive own token' =>
                  obtain rfl : token' = token := of_decide_eq_true hmeets
                  exact .hit hcallback hlive hbefore'

/-- **What a step can do.** -/
theorem effect_of_step {label : Label τ ε μ κ η}
    (htaken : step listOps.{u, u} keyHash state label = some target) :
    StepEffect keyHash state label target := by
  cases label with
  | send key value isDead =>
      obtain rfl := Option.some.inj htaken
      exact effect_send key value isDead
  | recvAsync key manager =>
      obtain rfl := Option.some.inj htaken
      exact effect_recvAsync key manager
  | tryDeregisterCallback index =>
      simp only [step, deregister, Option.bind_eq_bind, Option.bind_eq_some_iff] at htaken
      obtain ⟨call, hcall, ⟨manager, token⟩, hderegisters, htaken⟩ := htaken
      obtain rfl := Option.some.inj htaken
      exact .deregistered hcall hderegisters
  | done index =>
      simp only [step, done, Option.bind_eq_bind, Option.bind_eq_some_iff] at htaken
      obtain ⟨call, hcall, htaken⟩ := htaken
      split at htaken
      · contradiction
      · rename_i hready
        obtain rfl := Option.some.inj htaken
        exact .done hcall (by simpa using hready)
  | startAbort status =>
      obtain rfl := Option.some.inj htaken
      exact .aborted
  | abortItem abort hash => exact effect_abortItem htaken
  | getCancellationToken manager =>
      obtain rfl := Option.some.inj htaken
      exact .tokenTaken
  | startCancel manager =>
      obtain rfl := Option.some.inj htaken
      simp only [startCancel]
      split
      · rename_i hregisters
        exact .cancelStarted hregisters
      · rename_i hregisters
        have hsame : state.manage manager CancellationManager.startCancel = state := by
          simp only [State.manage, CancellationManager.startCancel, if_neg hregisters,
            Function.update_eq_self]
        rw [hsame]
        exact .cancelReturned (Bool.eq_false_of_not_eq_true hregisters)
  | runCallback manager index =>
      simp only [step, runCallback, Option.bind_eq_bind, Option.bind_eq_some_iff] at htaken
      obtain ⟨⟨token, hash⟩, hcallback, htaken⟩ := htaken
      obtain rfl := Option.some.inj htaken
      exact effect_callback hcallback
  | finishCancel manager =>
      simp only [step, finishCancel] at htaken
      split at htaken
      · rename_i hready
        obtain rfl := Option.some.inj htaken
        exact .cancelFinished hready.1 (by simpa using hready.2)
      · contradiction

end Effects

end ContainerScheduler.Analysis
