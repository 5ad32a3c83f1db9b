/-
# Whose receives a cancellation completes

The callback that a receive registers with its manager looks for its token in the
queue, and tokens are unique for one manager only. With two managers the callback of
one can complete a receive of the other, which leaves its own in the queue for good.
Also `StartCancel` returns at once when another call is still at work.

Where neither happens, every receive that a callback completes is of the manager that
is cancelled, and none of a manager's receives is queued once its `StartCancel` has
returned. What carries this is that each queued receive has its callback, registered
or still to run, under a token that no other receive of the manager has.
-/

import ContainerScheduler.Analysis.RendezvousMatching

namespace ContainerScheduler.Analysis

open Math Rendezvous Effects

universe u

/-! ## One manager -/

section Managers

variable {η : Type u} {record : CancellationManager η} {token other : CancellationToken}
  {hash hash' : η} {index : ℕ}

/-- A manager has a callback that will look for a token under a hash: it is registered,
or still to run once the manager is being cancelled. -/
def Registered (record : CancellationManager η) (token : CancellationToken) (hash : η) : Prop :=
  record.isCancelled = false ∧
    if record.isCancelling then (token, hash) ∈ record.callbacksToRun
    else (token, hash) ∈ record.callbacks

theorem registers_iff :
    record.registers = true ↔ record.isCancelled = false ∧ record.isCancelling = false := by
  simp [CancellationManager.registers]

theorem Registered.takeToken (hregistered : Registered record token hash) :
    Registered record.takeToken token hash := hregistered

theorem registered_registerCallback (hregisters : record.registers = true) :
    Registered (record.takeToken.registerCallback token hash) token hash := by
  obtain ⟨hcancelled, hcancelling⟩ := registers_iff.mp hregisters
  have hregisters' : record.takeToken.registers = true := hregisters
  rw [CancellationManager.registerCallback, if_pos hregisters']
  refine ⟨hcancelled, ?_⟩
  rw [if_neg (by simp [CancellationManager.takeToken, hcancelling])]
  exact List.mem_cons_self

section

variable (hregistered : Registered record token hash)

include hregistered

/-- Another token's callback stays. -/
theorem Registered.registerCallback (hne : token ≠ other) :
    Registered (record.registerCallback other hash') token hash := by
  rw [CancellationManager.registerCallback]
  split
  · rename_i hregisters
    obtain ⟨hcancelled, hcancelling⟩ := registers_iff.mp hregisters
    obtain ⟨-, hmem⟩ := hregistered
    rw [if_neg (by simp [hcancelling])] at hmem
    refine ⟨hcancelled, ?_⟩
    rw [if_neg (by simp [hcancelling])]
    exact List.mem_cons_of_mem _ (List.mem_filter.mpr ⟨hmem, by simpa using hne⟩)
  · exact hregistered

theorem Registered.tryDeregisterCallback (hne : token ≠ other) :
    Registered (record.tryDeregisterCallback other) token hash := by
  rw [CancellationManager.tryDeregisterCallback]
  split
  · rename_i hregisters
    obtain ⟨hcancelled, hcancelling⟩ := registers_iff.mp hregisters
    obtain ⟨-, hmem⟩ := hregistered
    rw [if_neg (by simp [hcancelling])] at hmem
    refine ⟨hcancelled, ?_⟩
    rw [if_neg (by simp [hcancelling])]
    exact List.mem_filter.mpr ⟨hmem, by simpa using hne⟩
  · exact hregistered

theorem Registered.startCancel : Registered record.startCancel token hash := by
  rw [CancellationManager.startCancel]
  split
  · rename_i hregisters
    obtain ⟨hcancelled, hcancelling⟩ := registers_iff.mp hregisters
    obtain ⟨-, hmem⟩ := hregistered
    rw [if_neg (by simp [hcancelling])] at hmem
    refine ⟨hcancelled, ?_⟩
    rw [if_pos rfl]
    exact hmem
  · exact hregistered

/-- Another callback is run. -/
theorem Registered.eraseCallback (hne : record.callbacksToRun[index]? ≠ some (token, hash)) :
    Registered { record with callbacksToRun := record.callbacksToRun.eraseIdx index } token
      hash := by
  obtain ⟨hcancelled, hmem⟩ := hregistered
  refine ⟨hcancelled, ?_⟩
  split
  · rename_i hcancelling
    rw [if_pos hcancelling] at hmem
    obtain ⟨other, hother⟩ := List.mem_iff_getElem?.mp hmem
    refine List.mem_eraseIdx_iff_getElem?.mpr ⟨other, ?_, hother⟩
    rintro rfl
    exact hne hother
  · rename_i hcancelling
    rwa [if_neg hcancelling] at hmem

end

/-- Once the last callback has run none is registered. -/
theorem not_registered_of_finished (hcancelling : record.isCancelling = true)
    (hrun : record.callbacksToRun = []) : ¬ Registered record token hash := by
  rintro ⟨-, hmem⟩
  rw [if_pos hcancelling, hrun] at hmem
  exact List.not_mem_nil hmem

@[simp]
theorem registerCallback_next :
    (record.registerCallback token hash).nextCancellationToken = record.nextCancellationToken := by
  rw [CancellationManager.registerCallback]
  split <;> rfl

@[simp]
theorem registerCallback_registers :
    (record.registerCallback token hash).registers = record.registers := by
  rw [CancellationManager.registerCallback]
  split <;> rfl

@[simp]
theorem tryDeregisterCallback_next :
    (record.tryDeregisterCallback token).nextCancellationToken =
      record.nextCancellationToken := by
  rw [CancellationManager.tryDeregisterCallback]
  split <;> rfl

@[simp]
theorem tryDeregisterCallback_registers :
    (record.tryDeregisterCallback token).registers = record.registers := by
  rw [CancellationManager.tryDeregisterCallback]
  split <;> rfl

@[simp]
theorem startCancel_next :
    record.startCancel.nextCancellationToken = record.nextCancellationToken := by
  rw [CancellationManager.startCancel]
  split <;> rfl

/-- Tokens are handed out upwards, and a manager that refuses callbacks goes on to. -/
structure Onward (record record' : CancellationManager η) : Prop where
  next_le : record.nextCancellationToken ≤ record'.nextCancellationToken
  refuses : record.registers = false → record'.registers = false

theorem Onward.refl (record : CancellationManager η) : Onward record record :=
  ⟨le_rfl, fun hrefuses => hrefuses⟩

theorem Onward.takeToken (record : CancellationManager η) : Onward record record.takeToken :=
  ⟨Int.le_of_lt (Int.lt_succ _), fun hrefuses => hrefuses⟩

theorem Onward.registerCallback (record : CancellationManager η) (token : CancellationToken)
    (hash : η) : Onward record (record.takeToken.registerCallback token hash) := by
  refine ⟨?_, fun hrefuses => ?_⟩
  · rw [registerCallback_next]
    exact (Onward.takeToken record).next_le
  · rw [registerCallback_registers]
    exact hrefuses

end Managers

/-! ## The receives of a manager -/

section Waiters

variable {τ ε μ κ η : Type u} [DecidableEq μ] [DecidableEq κ] [DecidableEq η] {keyHash : κ → η}
  {state target : ListState τ ε μ κ η} {label : Label τ ε μ κ η} {name : ℕ × η} {receive : ℕ}
  {own : Option μ} {manager : μ} {token : CancellationToken}

/-- A receive has a token of a manager: it is queued, or its waiter was called and has
not deregistered. -/
def Waiter (state : ListState τ ε μ κ η) (receive : ℕ) (manager : μ) (token : CancellationToken) :
    Prop :=
  (∃ name, .recv receive (some manager) token ∈ state.queues name) ∨
    ∃ call ∈ state.calls, call.receive = receive ∧ call.deregisters = some (manager, token)

/-- What a step adds to a queue: the receive that is issued, with its manager's next
token, at a manager that registers its callback. -/
structure IsNew (state target : ListState τ ε μ κ η) (name : ℕ × η) (receive : ℕ)
    (own : Option μ) (token : CancellationToken) : Prop where
  receive_eq : receive = state.nextReceive
  issued_eq : target.history.issued = state.history.issued ++ [own]
  token_eq : ∀ manager, own = some manager →
    token = (state.managers manager).nextCancellationToken
  registered : ∀ manager, own = some manager → (state.managers manager).registers = true ∧
    ∃ hash, name = state.name hash ∧ target.managers manager =
      (state.managers manager).takeToken.registerCallback token hash

omit [DecidableEq μ] [DecidableEq κ] in
theorem mem_update {items : List (Item τ μ)} {item : Item τ μ} {other : ℕ × η} (name : ℕ × η)
    (hmem : item ∈ Function.update state.queues name items other) :
    other = name ∧ item ∈ items ∨ item ∈ state.queues other := by
  by_cases hother : other = name
  · subst hother
    rw [Function.update_self] at hmem
    exact .inl ⟨rfl, hmem⟩
  · rw [Function.update_of_ne hother] at hmem
    exact .inr hmem

omit [DecidableEq μ] [DecidableEq κ] in
/-- A queue that loses items gains none. -/
theorem mem_of_update {items : List (Item τ μ)} {item : Item τ μ} {other : ℕ × η} (name : ℕ × η)
    (hitems : item ∈ items → item ∈ state.queues name)
    (hmem : item ∈ Function.update state.queues name items other) : item ∈ state.queues other := by
  obtain ⟨rfl, hitem⟩ | hold := mem_update name hmem
  · exact hitems hitem
  · exact hold

omit [DecidableEq μ] [DecidableEq κ] [DecidableEq η] in
theorem mem_of_live {items : List (Item τ μ)} {item : Item τ μ} {hash : η}
    (hlive : live state hash = items) (hmem : item ∈ items) :
    item ∈ state.queues (state.name hash) := by
  rw [← hlive] at hmem
  exact hmem

theorem queued_of_effect (heffect : StepEffect keyHash state label target)
    (hmem : .recv receive own token ∈ target.queues name) :
    .recv receive own token ∈ state.queues name ∨ IsNew state target name receive own token := by
  cases heffect with
  | @posted key value isDead _ _ =>
      refine .inl (mem_of_update (state.name (keyHash key)) (fun hitem => ?_) hmem)
      simpa [live] using hitem
  | @sentTo key _ _ _ _ _ _ _ hlive =>
      exact .inl (mem_of_update (state.name (keyHash key))
        (fun hitem => mem_of_live hlive (List.mem_cons_of_mem _ hitem)) hmem)
  | @receivedFrom key _ _ _ _ _ hlive =>
      exact .inl (mem_of_update (state.name (keyHash key))
        (fun hitem => mem_of_live hlive (List.mem_cons_of_mem _ hitem)) hmem)
  | @waits key _ _ =>
      obtain ⟨rfl, hitem⟩ | hold := mem_update (state.name (keyHash key)) hmem
      · obtain hitem | heq := List.mem_append.mp hitem
        · exact .inl hitem
        · obtain ⟨rfl, rfl, rfl⟩ := Item.recv.inj (List.mem_singleton.mp heq)
          exact .inr ⟨rfl, rfl, fun _ hsome => (Option.some_ne_none _ hsome.symm).elim,
            fun _ hsome => (Option.some_ne_none _ hsome.symm).elim⟩
      · exact .inl hold
  | @registered key manager _ _ hregisters =>
      obtain ⟨rfl, hitem⟩ | hold := mem_update (state.name (keyHash key)) hmem
      · obtain hitem | heq := List.mem_append.mp hitem
        · exact .inl hitem
        · obtain ⟨rfl, rfl, rfl⟩ := Item.recv.inj (List.mem_singleton.mp heq)
          refine .inr ⟨rfl, rfl, fun other hother => ?_, fun other hother => ?_⟩
          · rw [← Option.some.inj hother]
          · rw [← Option.some.inj hother]
            exact ⟨hregisters, keyHash key, rfl, Function.update_self ..⟩
      · exact .inl hold
  | @droppedItem abort hash _ _ _ _ _ hqueue =>
      exact .inl (mem_of_update (abort, hash)
        (fun hitem => hqueue ▸ List.mem_cons_of_mem _ hitem) hmem)
  | @abortedItem abort hash _ _ _ _ _ _ hqueue =>
      exact .inl (mem_of_update (abort, hash)
        (fun hitem => hqueue ▸ List.mem_cons_of_mem _ hitem) hmem)
  | @hit _ _ _ hash _ _ _ _ _ hlive _ =>
      exact .inl (mem_of_update (state.name hash) (fun hitem => mem_of_live hlive
        (((List.sublist_cons_self _ _).append_left _).subset hitem)) hmem)
  | rejected _ | late _ | refused _ _ | deregistered _ _ | done _ _ | aborted | tokenTaken
  | cancelStarted _ | cancelReturned _ | missed _ _ | cancelFinished _ _ => exact .inl hmem

omit [DecidableEq μ] [DecidableEq κ] [DecidableEq η] in
theorem waiter_of_item {item : ℕ} {own : Option μ} {token' : CancellationToken}
    {outcome : Outcome τ ε} (hitem : .recv item own token' ∈ state.queues name) {call : Call τ ε μ}
    (hcall : call ∈ state.calls ++ [Item.call item own token' outcome])
    (hderegisters : call.deregisters = some (manager, token)) :
    Waiter state call.receive manager token := by
  obtain hold | hlast := List.mem_append.mp hcall
  · exact .inr ⟨call, hold, rfl, hderegisters⟩
  · obtain rfl := List.mem_singleton.mp hlast
    obtain ⟨_, rfl, heq⟩ := Option.map_eq_some_iff.mp hderegisters
    obtain ⟨rfl, rfl⟩ := Prod.mk.inj heq
    exact .inl ⟨name, hitem⟩

omit [DecidableEq μ] [DecidableEq κ] [DecidableEq η] in
/-- A call without a waiter deregisters nothing. -/
theorem waiter_of_push {last : Call τ ε μ} (hlast : last.deregisters = none) {call : Call τ ε μ}
    (hcall : call ∈ state.calls ++ [last])
    (hderegisters : call.deregisters = some (manager, token)) :
    Waiter state call.receive manager token := by
  obtain hold | heq := List.mem_append.mp hcall
  · exact .inr ⟨call, hold, rfl, hderegisters⟩
  · obtain rfl := List.mem_singleton.mp heq
    exact nomatch hlast.symm.trans hderegisters

theorem called_of_effect (heffect : StepEffect keyHash state label target) {call : Call τ ε μ}
    (hcall : call ∈ target.calls) (hderegisters : call.deregisters = some (manager, token)) :
    Waiter state call.receive manager token := by
  have hold : call ∈ state.calls → Waiter state call.receive manager token :=
    fun hmem => .inr ⟨call, hmem, rfl, hderegisters⟩
  cases heffect with
  | sentTo _ hlive =>
      exact waiter_of_item (mem_of_live hlive List.mem_cons_self) hcall hderegisters
  | late _ => exact waiter_of_push rfl hcall hderegisters
  | receivedFrom _ _ => exact waiter_of_push rfl hcall hderegisters
  | refused _ _ => exact waiter_of_push rfl hcall hderegisters
  | deregistered _ _ =>
      obtain hmem | rfl := List.mem_or_eq_of_mem_set hcall
      · exact hold hmem
      · exact nomatch hderegisters
  | done _ _ => exact hold (List.mem_of_mem_eraseIdx hcall)
  | @abortedItem abort hash _ _ _ _ _ _ hqueue =>
      have hitem : _ ∈ state.queues (abort, hash) := hqueue ▸ List.mem_cons_self
      exact waiter_of_item hitem hcall hderegisters
  | hit _ hlive _ =>
      exact waiter_of_item (mem_of_live hlive (List.mem_append_right _ List.mem_cons_self)) hcall
        hderegisters
  | rejected _ | posted _ _ | waits _ _ | registered _ _ _ | aborted | droppedItem _ _ | tokenTaken
  | cancelStarted _ | cancelReturned _ | missed _ _ | cancelFinished _ _ => exact hold hcall

/-- A waiter was there before, or is new. -/
theorem waiter_of_effect (heffect : StepEffect keyHash state label target)
    (hwaiter : Waiter target receive manager token) :
    Waiter state receive manager token ∨
      ∃ name, IsNew state target name receive (some manager) token := by
  obtain ⟨name, hmem⟩ | ⟨call, hcall, rfl, hderegisters⟩ := hwaiter
  · obtain hold | hnew := queued_of_effect heffect hmem
    · exact .inl (.inl ⟨name, hold⟩)
    · exact .inr ⟨name, hnew⟩
  · exact .inl (called_of_effect heffect hcall hderegisters)

end Waiters

/-! ## Runs of callbacks that find their own -/

section Runs

variable {τ ε μ κ η : Type u} [DecidableEq μ] [DecidableEq κ] [DecidableEq η] {keyHash : κ → η}
  {state target : ListState τ ε μ κ η} {label : Label τ ε μ κ η} {receive : ℕ} {manager : μ}
  {token : CancellationToken} {hash : η}

/-- The manager of a receive. -/
def owner : Item τ μ → Option μ
  | .send .. => none
  | .recv _ own _ => own

/-- The first receive with a callback's token under its key, if there is one, is of the
manager that is cancelled; and a call of `StartCancel` that returns because another is at
work leaves no callback to run that would find a receive of the manager. -/
def OwnFirst (state : ListState τ ε μ κ η) : Label τ ε μ κ η → Prop
  | .runCallback manager index =>
      ∀ callback ∈ (state.managers manager).callbacksToRun[index]?,
        ∀ item ∈ (live state callback.2).find? (Item.hasToken callback.1),
          owner item = some manager
  | .startCancel manager => (state.managers manager).isCancelling = true →
      ∀ callback ∈ (state.managers manager).callbacksToRun, ∀ item ∈ live state callback.2,
        owner item = some manager → item.hasToken callback.1 = false
  | _ => True

instance decidableOwnFirst (state : ListState τ ε μ κ η) :
    ∀ label, Decidable (OwnFirst state label)
  | .runCallback manager index => inferInstanceAs (Decidable
      (∀ callback ∈ (state.managers manager).callbacksToRun[index]?,
        ∀ item ∈ (live state callback.2).find? (Item.hasToken callback.1),
          owner item = some manager))
  | .startCancel manager => inferInstanceAs (Decidable
      ((state.managers manager).isCancelling = true →
        ∀ callback ∈ (state.managers manager).callbacksToRun, ∀ item ∈ live state callback.2,
          owner item = some manager → item.hasToken callback.1 = false))
  | .send .. => .isTrue trivial
  | .recvAsync .. => .isTrue trivial
  | .tryDeregisterCallback _ => .isTrue trivial
  | .done _ => .isTrue trivial
  | .startAbort _ => .isTrue trivial
  | .abortItem .. => .isTrue trivial
  | .getCancellationToken _ => .isTrue trivial
  | .finishCancel _ => .isTrue trivial

/-- What holds of managers and their receives. -/
structure Owned (state : ListState τ ε μ κ η) : Prop where
  issued : ∀ name receive own token, .recv receive own token ∈ state.queues name →
    state.history.issued[receive]? = some own
  bound : ∀ receive manager token, Waiter state receive manager token →
    token < (state.managers manager).nextCancellationToken
  unique : ∀ first second manager token, Waiter state first manager token →
    Waiter state second manager token → first = second
  registered : ∀ hash receive manager token, .recv receive (some manager) token ∈ live state hash →
    Registered (state.managers manager) token hash
  returned : ∀ manager, state.history.returned manager = true →
    (state.managers manager).registers = false ∧
      ∀ hash receive token, .recv receive (some manager) token ∉ live state hash
  hits : ∀ manager receive, (manager, receive) ∈ state.history.hits →
    state.history.issued[receive]? = some (some manager)

omit [DecidableEq μ] [DecidableEq κ] [DecidableEq η] in
theorem mem_waiting {items : List (Item τ μ)} {own : Option μ}
    (hitem : .recv receive own token ∈ items) : receive ∈ waiting items :=
  List.mem_filterMap.mpr ⟨_, hitem, rfl⟩

/-- While the rendezvous is open the table in use is the same. -/
theorem name_of_effect (heffect : StepEffect keyHash state label target)
    (hopen : target.status = none) (hash : η) : target.name hash = state.name hash := by
  cases heffect with
  | aborted => exact absurd hopen (by simp [startAbort])
  | rejected _ | posted _ _ | sentTo _ _ | late _ | receivedFrom _ _ | waits _ _ | registered _ _ _
  | refused _ _ | deregistered _ _ | done _ _ | droppedItem _ _ | abortedItem _ _ | tokenTaken
  | cancelStarted _ | cancelReturned _ | missed _ _ | hit _ _ _ | cancelFinished _ _ => rfl

omit [DecidableEq κ] [DecidableEq η] in
/-- One manager changes. -/
theorem registered_manage {other : μ} {record : CancellationManager η}
    (hmanagers : target.managers = Function.update state.managers other record)
    (hregistered : Registered (state.managers manager) token hash)
    (hchange : manager = other → Registered record token hash) :
    Registered (target.managers manager) token hash := by
  rw [hmanagers]
  by_cases hother : manager = other
  · subst hother
    rw [Function.update_self]
    exact hchange rfl
  · rwa [Function.update_of_ne hother]

omit [DecidableEq μ] [DecidableEq κ] [DecidableEq η] in
/-- The receive that a callback completes is the first that its search meets. -/
theorem find?_of_hit {items before after : List (Item τ μ)} {own : Option μ}
    (hitems : items = before ++ .recv receive own token :: after)
    (hbefore : ∀ item ∈ before, item.hasToken token = false) :
    items.find? (Item.hasToken token) = some (.recv receive own token) := by
  refine List.find?_eq_some_iff_append.mpr ⟨by simp [Item.hasToken], before, after, hitems, ?_⟩
  simpa using hbefore

omit [DecidableEq μ] [DecidableEq κ] [DecidableEq η] in
/-- A receive that is taken off is not left in its queue. -/
theorem Located.not_left (hlocated : Located state) {before after : List (Item τ μ)}
    {own own' : Option μ} {token' : CancellationToken}
    (hlive : live state hash = before ++ .recv receive own token :: after) :
    .recv receive own' token' ∉ before ++ after := by
  intro hrest
  have hnodup := hlocated.nodup (state.name hash)
  have hwaiting : waiting (before ++ .recv receive own token :: after) =
      waiting before ++ receive :: waiting after := by simp [waiting]
  rw [show state.queues (state.name hash) = _ from hlive, hwaiting, List.nodup_middle,
    List.nodup_cons] at hnodup
  refine hnodup.1 ?_
  simpa [waiting] using mem_waiting hrest

/-- A queued receive keeps its callback. -/
theorem Owned.registered_effect (htidy : Tidy state) (hlocated : Located state)
    (howned : Owned state) (hguard : OwnFirst state label)
    (heffect : StepEffect keyHash state label target)
    (hitem : .recv receive (some manager) token ∈ state.queues (state.name hash))
    (hkept : .recv receive (some manager) token ∈ target.queues (state.name hash)) :
    Registered (target.managers manager) token hash := by
  have hregistered := howned.registered hash receive manager token hitem
  have hwaiter : Waiter state receive manager token := .inl ⟨_, hitem⟩
  have hne := (howned.bound receive manager token hwaiter).ne
  cases heffect with
  | registered _ _ _ =>
      refine registered_manage rfl hregistered ?_
      rintro rfl
      exact hregistered.takeToken.registerCallback hne
  | refused _ _ =>
      refine registered_manage rfl hregistered ?_
      rintro rfl
      exact hregistered.takeToken.registerCallback hne
  | @deregistered _ call other token' hcall hderegisters =>
      refine registered_manage rfl hregistered ?_
      rintro rfl
      refine hregistered.tryDeregisterCallback ?_
      rintro rfl
      have hmem := List.mem_of_getElem? hcall
      obtain rfl := howned.unique receive call.receive manager token hwaiter
        (.inr ⟨call, hmem, rfl, hderegisters⟩)
      refine hlocated.apart _ (mem_waiting hitem) (List.mem_map.mpr ⟨(call.receive, call.outcome),
        List.mem_append_left _ (List.mem_map_of_mem hmem), rfl⟩)
  | tokenTaken =>
      refine registered_manage rfl hregistered ?_
      rintro rfl
      exact hregistered.takeToken
  | cancelStarted _ =>
      refine registered_manage rfl hregistered ?_
      rintro rfl
      exact hregistered.startCancel
  | @missed other index token' hash' hcallback hmiss =>
      refine registered_manage rfl hregistered ?_
      rintro rfl
      refine hregistered.eraseCallback fun heq => ?_
      obtain ⟨rfl, rfl⟩ := Prod.mk.inj (Option.some.inj (hcallback.symm.trans heq))
      obtain hfront | hmiss := hmiss
      · exact nomatch htidy.sends hfront _ hitem
      · exact absurd (hmiss _ hitem) (by simp [Item.hasToken])
  | @hit other index token' hash' before receive' own after hcallback hlive hbefore =>
      refine registered_manage rfl hregistered ?_
      rintro rfl
      refine hregistered.eraseCallback fun heq => ?_
      obtain ⟨rfl, rfl⟩ := Prod.mk.inj (Option.some.inj (hcallback.symm.trans heq))
      obtain rfl : own = some manager := hguard _ hcallback _ (find?_of_hit hlive hbefore)
      have hfirst := mem_of_live hlive (List.mem_append_right _ List.mem_cons_self)
      obtain rfl := howned.unique receive receive' _ _ hwaiter (.inl ⟨_, hfirst⟩)
      have hrest : Item.recv receive (some manager) token' ∈ Function.update state.queues
          (state.name hash') (before ++ after) (state.name hash') := hkept
      rw [Function.update_self] at hrest
      exact hlocated.not_left hlive hrest
  | cancelFinished hcancelling hrun =>
      refine registered_manage rfl hregistered ?_
      rintro rfl
      exact absurd hregistered (not_registered_of_finished hcancelling hrun)
  | rejected _ | posted _ _ | sentTo _ _ | late _ | receivedFrom _ _ | waits _ _ | done _ _
  | aborted | droppedItem _ _ | abortedItem _ _ | cancelReturned _ => exact hregistered

/-- What was issued stays. -/
theorem issued_of_effect (heffect : StepEffect keyHash state label target) {own : Option μ}
    (hissued : state.history.issued[receive]? = some own) :
    target.history.issued[receive]? = some own := by
  have happend : ∀ more, (state.history.issued ++ more)[receive]? = some own := fun more =>
    (List.getElem?_append_left (List.getElem?_eq_some_iff.mp hissued).1).trans hissued
  cases heffect with
  | late _ => exact happend _
  | receivedFrom _ _ => exact happend _
  | waits _ _ => exact happend _
  | registered _ _ _ => exact happend _
  | refused _ _ => exact happend _
  | rejected _ | posted _ _ | sentTo _ _ | deregistered _ _ | done _ _ | aborted | droppedItem _ _
  | abortedItem _ _ | tokenTaken | cancelStarted _ | cancelReturned _ | missed _ _ | hit _ _ _
  | cancelFinished _ _ => exact hissued

omit [DecidableEq κ] [DecidableEq η] in
theorem onward_manage {other : μ} {record : CancellationManager η}
    (hmanagers : target.managers = Function.update state.managers other record)
    (honward : Onward (state.managers other) record) (manager : μ) :
    Onward (state.managers manager) (target.managers manager) := by
  rw [hmanagers]
  by_cases hother : manager = other
  · subst hother
    rwa [Function.update_self]
  · rw [Function.update_of_ne hother]
    exact .refl _

/-- A step moves each manager onward. -/
theorem onward_of_effect (heffect : StepEffect keyHash state label target) (manager : μ) :
    Onward (state.managers manager) (target.managers manager) := by
  cases heffect with
  | registered _ _ _ => exact onward_manage rfl (.registerCallback _ _ _) manager
  | refused _ _ => exact onward_manage rfl (.registerCallback _ _ _) manager
  | deregistered _ _ => exact onward_manage rfl ⟨by simp, by simp⟩ manager
  | tokenTaken => exact onward_manage rfl (.takeToken _) manager
  | cancelStarted hregisters =>
      refine onward_manage rfl ⟨by simp, fun hrefuses => ?_⟩ manager
      exact nomatch hregisters.symm.trans hrefuses
  | missed _ _ =>
      refine onward_manage rfl ?_ manager
      exact ⟨le_rfl, fun hrefuses => hrefuses⟩
  | hit _ _ _ =>
      refine onward_manage rfl ?_ manager
      exact ⟨le_rfl, fun hrefuses => hrefuses⟩
  | cancelFinished _ _ =>
      refine onward_manage rfl ?_ manager
      exact ⟨le_rfl, fun _ => rfl⟩
  | rejected _ | posted _ _ | sentTo _ _ | late _ | receivedFrom _ _ | waits _ _ | done _ _
  | aborted | droppedItem _ _ | abortedItem _ _ | cancelReturned _ => exact .refl _

/-- A receive in the table in use was there, with the rendezvous open, or is new. -/
theorem live_of_effect (htidy : Tidy state) (heffect : StepEffect keyHash state label target)
    (hitem : .recv receive (some manager) token ∈ live target hash) :
    target.name hash = state.name hash ∧
      (.recv receive (some manager) token ∈ live state hash ∨
        IsNew state target (state.name hash) receive (some manager) token) := by
  have hopen : target.status = none := by
    by_contra habort
    rw [(htidy.effect heffect).aborted habort hash] at hitem
    exact List.not_mem_nil hitem
  have hname := name_of_effect heffect hopen hash
  refine ⟨hname, ?_⟩
  rw [live, hname] at hitem
  exact queued_of_effect heffect hitem

theorem Owned.effect_returned (htidy : Tidy state) (howned : Owned state)
    (hguard : OwnFirst state label) (heffect : StepEffect keyHash state label target)
    (hreturned : target.history.returned manager = true) :
    (target.managers manager).registers = false ∧
      ∀ hash receive token, .recv receive (some manager) token ∉ live target hash := by
  have hkept : (state.managers manager).registers = false →
      (∀ hash receive token, .recv receive (some manager) token ∉ live state hash) →
        (target.managers manager).registers = false ∧
          ∀ hash receive token, .recv receive (some manager) token ∉ live target hash := by
    intro hrefuses hnone
    refine ⟨(onward_of_effect heffect manager).refuses hrefuses, fun hash receive token hitem => ?_⟩
    obtain ⟨-, hold | hnew⟩ := live_of_effect htidy heffect hitem
    · exact hnone hash receive token hold
    · exact nomatch (hnew.registered manager rfl).1.symm.trans hrefuses
  have hbefore : state.history.returned manager = true →
      (target.managers manager).registers = false ∧
        ∀ hash receive token, .recv receive (some manager) token ∉ live target hash :=
    fun hold => hkept (howned.returned manager hold).1 (howned.returned manager hold).2
  cases heffect with
  | @cancelReturned other hregisters =>
      by_cases hother : manager = other
      · subst hother
        refine hkept hregisters fun hash receive token hitem => ?_
        obtain ⟨hcancelled, hmem⟩ := howned.registered hash receive manager token hitem
        have hcancelling : (state.managers manager).isCancelling = true := by
          simpa [CancellationManager.registers, hcancelled] using hregisters
        rw [if_pos hcancelling] at hmem
        have hmiss := hguard hcancelling (token, hash) hmem _ hitem rfl
        exact absurd hmiss (by simp [Item.hasToken])
      · exact hbefore ((Function.update_of_ne hother _ _).symm.trans hreturned)
  | @cancelFinished other hcancelling hrun =>
      by_cases hother : manager = other
      · subst hother
        refine ⟨?_, fun hash receive token hitem => ?_⟩
        · simp [State.finish, State.manage, CancellationManager.finishCancel,
            CancellationManager.registers]
        · exact not_registered_of_finished hcancelling hrun
            (howned.registered hash receive manager token hitem)
      · exact hbefore ((Function.update_of_ne hother _ _).symm.trans hreturned)
  | rejected _ | posted _ _ | sentTo _ _ | late _ | receivedFrom _ _ | waits _ _ | registered _ _ _
  | refused _ _ | deregistered _ _ | done _ _ | aborted | droppedItem _ _ | abortedItem _ _
  | tokenTaken | cancelStarted _ | missed _ _ | hit _ _ _ => exact hbefore hreturned

/-- **Each step that meets the condition keeps what holds.** -/
theorem Owned.effect (htidy : Tidy state) (hlocated : Located state) (howned : Owned state)
    (hguard : OwnFirst state label) (heffect : StepEffect keyHash state label target) :
    Owned target where
  issued := by
    intro name receive own token hitem
    obtain hold | hnew := queued_of_effect heffect hitem
    · exact issued_of_effect heffect (howned.issued name receive own token hold)
    · rw [hnew.issued_eq, hnew.receive_eq]
      exact List.getElem?_concat_length
  bound := by
    intro receive manager token hwaiter
    obtain hold | ⟨name, hnew⟩ := waiter_of_effect heffect hwaiter
    · exact (howned.bound receive manager token hold).trans_le
        (onward_of_effect heffect manager).next_le
    · obtain ⟨-, hash, -, hmanager⟩ := hnew.registered manager rfl
      rw [hmanager, registerCallback_next, hnew.token_eq manager rfl]
      exact Int.lt_succ _
  unique := by
    intro first second manager token hfirst hsecond
    obtain hfirst | ⟨_, hfirst⟩ := waiter_of_effect heffect hfirst
    · obtain hsecond | ⟨_, hsecond⟩ := waiter_of_effect heffect hsecond
      · exact howned.unique first second manager token hfirst hsecond
      · exact absurd (hsecond.token_eq manager rfl) (howned.bound first manager token hfirst).ne
    · obtain hsecond | ⟨_, hsecond⟩ := waiter_of_effect heffect hsecond
      · exact absurd (hfirst.token_eq manager rfl) (howned.bound second manager token hsecond).ne
      · exact hfirst.receive_eq.trans hsecond.receive_eq.symm
  registered := by
    intro hash receive manager token hitem
    obtain ⟨hname, hold | hnew⟩ := live_of_effect htidy heffect hitem
    · rw [live, hname] at hitem
      exact howned.registered_effect htidy hlocated hguard heffect hold hitem
    · obtain ⟨hregisters, hash', hhash, hmanager⟩ := hnew.registered manager rfl
      obtain rfl : hash = hash' := congrArg Prod.snd hhash
      rw [hmanager]
      exact registered_registerCallback hregisters
  returned manager := howned.effect_returned htidy hguard heffect
  hits := by
    intro manager receive hhit
    have hbefore : (manager, receive) ∈ state.history.hits →
        target.history.issued[receive]? = some (some manager) :=
      fun hold => issued_of_effect heffect (howned.hits manager receive hold)
    cases heffect with
    | @hit other index token hash before receive' own after hcallback hlive hfirst =>
        obtain hold | heq := List.mem_append.mp hhit
        · exact hbefore hold
        · obtain ⟨rfl, rfl⟩ := Prod.mk.inj (List.mem_singleton.mp heq)
          obtain rfl : own = some manager := hguard _ hcallback _ (find?_of_hit hlive hfirst)
          exact howned.issued _ receive _ token
            (mem_of_live hlive (List.mem_append_right _ List.mem_cons_self))
    | rejected _ | posted _ _ | sentTo _ _ | late _ | receivedFrom _ _ | waits _ _
    | registered _ _ _ | refused _ _ | deregistered _ _ | done _ _ | aborted | droppedItem _ _
    | abortedItem _ _ | tokenTaken | cancelStarted _ | cancelReturned _ | missed _ _
    | cancelFinished _ _ => exact hbefore hhit

/-- What holds in every state reached by such steps, with lists for queues. -/
theorem owned_of_reaches {bornCancelled : μ → Bool}
    (hreached : (listRendezvous keyHash bornCancelled).Reaches OwnFirst state) : Owned state := by
  have hkept : Tidy state ∧ Located state ∧ Owned state := by
    refine hreached.invariant (P := fun state => Tidy state ∧ Located state ∧ Owned state) ?_ ?_
    · have hqueues : ∀ name, (listRendezvous keyHash bornCancelled :
          Machine (ListState τ ε μ κ η) _).init.queues name = [] := fun _ => rfl
      have hwaiter : ∀ receive manager token, ¬ Waiter (listRendezvous keyHash bornCancelled :
          Machine (ListState τ ε μ κ η) _).init receive manager token := by
        rintro receive manager token (⟨name, hmem⟩ | ⟨call, hmem, -⟩)
        · rw [hqueues] at hmem
          exact List.not_mem_nil hmem
        · exact List.not_mem_nil hmem
      refine ⟨tidy_initial bornCancelled, located_initial bornCancelled, fun name _ _ _ hmem => ?_,
        fun _ _ _ hmem => absurd hmem (hwaiter _ _ _),
        fun _ _ _ _ hmem => absurd hmem (hwaiter _ _ _), fun hash _ _ _ hmem => ?_,
        fun _ hreturned => (nomatch hreturned), fun _ _ hmem => absurd hmem List.not_mem_nil⟩
      · rw [hqueues] at hmem
        exact absurd hmem List.not_mem_nil
      · rw [live, hqueues] at hmem
        exact absurd hmem List.not_mem_nil
    · rintro source label target - ⟨htidy, hlocated, howned⟩ hguard htaken
      have heffect := effect_of_step htaken
      exact ⟨htidy.effect heffect, hlocated.effect heffect,
        howned.effect htidy hlocated hguard heffect⟩
  exact hkept.2.2

end Runs

/-! ## The claim -/

section Pointers

variable {τ ε μ κ η : Type u} [DecidableEq μ] [DecidableEq κ] [DecidableEq η] {keyHash : κ → η}
  {bornCancelled : μ → Bool} {state : State (Table τ μ η) τ ε μ κ η}

/-- A receive that a callback completed is of the manager that was cancelled, and no
receive of a manager is queued once its `StartCancel` has returned. -/
structure CancelsOwn (state : State (Table τ μ η) τ ε μ κ η) : Prop where
  hits : ∀ manager receive, (manager, receive) ∈ state.history.hits →
    state.history.issued[receive]? = some (some manager)
  returned : ∀ manager, state.history.returned manager = true → ∀ receive,
    state.history.issued[receive]? = some (some manager) → ∀ hash,
      receive ∉ waiting (state.queues.contents (state.name hash))

/-- **Where each callback finds its own first, cancellation completes its own.** -/
theorem cancellation_hits_own
    (hreached : (localRendezvous keyHash bornCancelled).Reaches
      (fun state => OwnFirst (read state)) state) : CancelsOwn state := by
  have howned := owned_of_reaches (reaches_read OwnFirst hreached).1
  refine ⟨howned.hits, fun manager hreturned receive hissued hash hmem => ?_⟩
  obtain ⟨item, hitem, hreceive⟩ := List.mem_filterMap.mp hmem
  cases item with
  | send _ _ => exact nomatch hreceive
  | recv _ own token =>
      obtain rfl := Option.some.inj hreceive
      have hown := (howned.issued (state.name hash) _ own token hitem).symm.trans hissued
      obtain rfl := Option.some.inj hown
      exact (howned.returned manager hreturned).2 hash _ token hitem

end Pointers

/-- Two managers, and each callback finds its own. -/
theorem each_finds_its_own :
    ∃ state : State (Table ℕ Bool ℕ) ℕ ℕ Bool ℕ ℕ,
      (localRendezvous id fun _ => false).Reaches (fun state => OwnFirst (read state)) state ∧
        (state.history.hits = [(true, 1)] ∧ state.history.returned true = true) ∧
        CancelsOwn state := by
  have hrun : ∃ state : State (Table ℕ Bool ℕ) ℕ ℕ Bool ℕ ℕ,
      (localRendezvous id fun _ => false).Reaches (fun state => OwnFirst (read state)) state ∧
        decide (state.history.hits = [(true, 1)] ∧ state.history.returned true = true) = true :=
    Machine.exists_reaches
      [.recvAsync 7 (some false), .getCancellationToken true, .recvAsync 7 (some true),
        .startCancel true, .runCallback true 0, .finishCancel true]
      (by decide +kernel) (by decide +kernel)
  obtain ⟨state, hreached, hstate⟩ := hrun
  exact ⟨state, hreached, of_decide_eq_true hstate, cancellation_hits_own hreached⟩

/-- Two managers have a receive each under one key, with token 0. The callback of the
second completes the receive of the first, and its own waits for good. -/
theorem callback_hits_another :
    ∃ state : State (Table ℕ Bool ℕ) ℕ ℕ Bool ℕ ℕ,
      (localRendezvous id fun _ => false).Reaches Machine.Unguarded state ∧
        ((true, 0) ∈ state.history.hits ∧ state.history.issued[0]? = some (some false)) ∧
        (state.history.returned true = true ∧ state.history.issued[1]? = some (some true) ∧
          1 ∈ waiting (state.queues.contents (state.name 7))) ∧ ¬ CancelsOwn state := by
  have hrun : ∃ state : State (Table ℕ Bool ℕ) ℕ ℕ Bool ℕ ℕ,
      (localRendezvous id fun _ => false).Reaches Machine.Unguarded state ∧
        decide (((true, 0) ∈ state.history.hits ∧ state.history.issued[0]? = some (some false)) ∧
          state.history.returned true = true ∧ state.history.issued[1]? = some (some true) ∧
            1 ∈ waiting (state.queues.contents (state.name 7))) = true :=
    Machine.exists_reaches_unguarded
      [.recvAsync 7 (some false), .recvAsync 7 (some true), .startCancel true,
        .runCallback true 0, .finishCancel true]
      (by decide +kernel)
  obtain ⟨state, hreached, hstate⟩ := hrun
  obtain ⟨hhit, hreturned⟩ := of_decide_eq_true hstate
  refine ⟨state, hreached, hhit, hreturned, fun howns => ?_⟩
  exact howns.returned true hreturned.1 1 hreturned.2.1 7 hreturned.2.2

end ContainerScheduler.Analysis
