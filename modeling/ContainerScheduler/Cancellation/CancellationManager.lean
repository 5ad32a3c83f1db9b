/-
# Cancellation managers

A cancellation manager runs the callbacks that are registered with it when it is cancelled, and then
cancels its children. Children are kept in a doubly linked list whose pointers lie in the children.
A cancellation has two critical sections: the first takes the callbacks and the children away, the
second comes when all of them are done, and after it those who wait for the cancellation are
notified.

Each critical section is a step, and so are the start and the end of each callback and of the
cancellation of each child. At most one `StartCancel` of a manager gets past its first test, so its
local variables are kept in the manager. Callbacks call no manager, and are known by their tokens;
each token is registered at most once. A pointer to a state that was never created is not followed:
the step that would do so is a fault, after which nothing happens.
-/

import ContainerScheduler.Math.SiblingLists
import ContainerScheduler.Math.Transition

namespace ContainerScheduler.Cancellation

open Math

/-! ## One manager -/

/-- `State`, which is created when it is first needed. -/
structure State where
  notified : Bool
  callbacks : List ℕ
  firstChild : Option ℕ

/-- How far the `StartCancel` that performs a cancellation has come: between its critical sections,
after them, and back at its caller. -/
inductive Stage
  | running
  | marked
  | returned
  deriving DecidableEq

/-- The local variables of the `StartCancel` that performs a cancellation, the callback that runs,
and the child whose cancellation it performs. The last two fields record what the first critical
section has found. -/
structure Cancel where
  callbacksToRun : List ℕ
  inCallback : Option ℕ
  childrenToCancel : List ℕ
  inChild : Option ℕ
  notifies : Bool
  stage : Stage
  taken : List ℕ
  linked : List ℕ

/-- How far the destructor has come: it waits for a cancellation of the parent, and may cancel. -/
inductive Life
  | alive
  | waiting
  | left
  | cancelling
  | freed
  deriving DecidableEq

/-- A manager. The last fields record the tokens that were given to `RegisterCallback`, those that
it accepted, those of accepted ones for which a deregistration returned true, and the callbacks that
were started and finished. -/
structure CancellationManager where
  isCancelling : Bool
  isCancelled : Bool
  nextCancellationToken : ℕ
  parent : Option ℕ
  isRemovedFromParent : Bool
  prevSibling : Option ℕ
  nextSibling : Option ℕ
  state : Option State
  cancel : Option Cancel
  life : Life
  used : List ℕ
  registered : List ℕ
  deregistered : List ℕ
  started : List ℕ
  finished : List ℕ

namespace CancellationManager

/-- The constructor, before a parent is asked. -/
def construct (parent : Option ℕ) : CancellationManager where
  isCancelling := false
  isCancelled := false
  nextCancellationToken := 0
  parent := parent
  isRemovedFromParent := false
  prevSibling := none
  nextSibling := none
  state := none
  cancel := none
  life := .alive
  used := []
  registered := []
  deregistered := []
  started := []
  finished := []

variable (manager : CancellationManager)

/-- Cancelled, or about to be. -/
def isClosed : Bool := manager.isCancelled || manager.isCancelling

def callbacks : List ℕ := (manager.state.map State.callbacks).getD []

def firstChild : Option ℕ := manager.state.bind State.firstChild

/-- `if (!state_) state_ = make_unique<State>()` -/
def createState : State := manager.state.getD ⟨false, [], none⟩

@[simp] theorem createState_callbacks : manager.createState.callbacks = manager.callbacks := by
  cases hstate : manager.state <;> simp [createState, callbacks, hstate]

@[simp] theorem createState_firstChild : manager.createState.firstChild = manager.firstChild := by
  cases hstate : manager.state <;> simp [createState, firstChild, hstate]

def getCancellationToken : CancellationManager :=
  { manager with nextCancellationToken := manager.nextCancellationToken + 1 }

def registerCallback (token : ℕ) : CancellationManager :=
  if manager.isClosed then { manager with used := token :: manager.used }
  else
    { manager with
      state := some { manager.createState with
        callbacks := token :: manager.createState.callbacks }
      used := token :: manager.used
      registered := token :: manager.registered }

/-- The critical section of a deregistration that returns true. -/
def eraseCallback (token : ℕ) : CancellationManager :=
  { manager with
    state := manager.state.map fun state =>
      { state with callbacks := state.callbacks.erase token }
    deregistered :=
      if token ∈ manager.registered then token :: manager.deregistered else manager.deregistered }

/-- The first critical section of `StartCancel`. The children are visited from the last one on. -/
def beginCancel (children : List ℕ) : CancellationManager :=
  { manager with
    isCancelling := true
    state := manager.state.map fun state => { state with callbacks := [], firstChild := none }
    cancel := some {
      callbacksToRun := manager.callbacks
      inCallback := none
      childrenToCancel := children.reverse
      inChild := none
      notifies := manager.state.isSome
      stage := .running
      taken := manager.callbacks
      linked := children } }

def startCallback (cancel : Cancel) (token : ℕ) : CancellationManager :=
  { manager with
    cancel := some { cancel with
      callbacksToRun := cancel.callbacksToRun.erase token, inCallback := some token }
    started := token :: manager.started }

def finishCallback (cancel : Cancel) (token : ℕ) : CancellationManager :=
  { manager with
    cancel := some { cancel with inCallback := none }
    finished := token :: manager.finished }

/-- The second critical section of `StartCancel`. -/
def complete (cancel : Cancel) : CancellationManager :=
  { manager with
    isCancelling := false
    isCancelled := true
    cancel := some { cancel with stage := .marked } }

/-- Notify those who wait, if there is a notification, and return. -/
def notify (cancel : Cancel) : CancellationManager :=
  { manager with
    state := if cancel.notifies then manager.state.map fun state => { state with notified := true }
      else manager.state
    cancel := some { cancel with stage := .returned } }

/-- The notification of the manager has been notified. -/
def isNotified : Bool := manager.state.any State.notified

@[simp] theorem createState_notified : manager.createState.notified = manager.isNotified := by
  cases hstate : manager.state <;> simp [createState, isNotified, hstate]

/-- The cancellation has returned. -/
def hasReturned : Bool := manager.cancel.any fun cancel => cancel.stage = .returned

end CancellationManager

/-! ## All managers -/

/-- The managers that were made, numbered in this order, the calls of `DeregisterCallback` that
wait, those that have returned false, and whether a null state was followed. -/
structure Managers where
  managers : ℕ → CancellationManager
  count : ℕ
  waiters : List (ℕ × ℕ)
  refused : List (ℕ × ℕ)
  fault : Bool

namespace Managers

variable (all : Managers)

def set (m : ℕ) (manager : CancellationManager) : Managers :=
  { all with managers := Function.update all.managers m manager }

section Set

variable {all} {m other : ℕ} {manager : CancellationManager}

@[simp] theorem set_self : (all.set m manager).managers m = manager := Function.update_self ..

@[simp] theorem set_of_ne (hne : other ≠ m) :
    (all.set m manager).managers other = all.managers other :=
  Function.update_of_ne hne ..

@[simp] theorem set_count : (all.set m manager).count = all.count := rfl

end Set

/-- A caller may use the manager: it is made, and not being destroyed. -/
def Usable (m : ℕ) : Prop := m < all.count ∧ (all.managers m).life = .alive

instance (m : ℕ) : Decidable (all.Usable m) := inferInstanceAs (Decidable (_ ∧ _))

/-- A manager outlives its children. -/
def Outlives (m : ℕ) : Prop :=
  ∀ c < all.count, (all.managers c).parent = some m → (all.managers c).life = .freed

instance (m : ℕ) : Decidable (all.Outlives m) := inferInstanceAs (Decidable (∀ _ < _, _ → _))

/-- The children reached from a pointer. The loop ends at a null pointer. -/
def siblings : ℕ → Option ℕ → Option (List ℕ)
  | _, none => some []
  | 0, some _ => none
  | rounds + 1, some child =>
      (siblings rounds (all.managers child).nextSibling).map (child :: ·)

/-- Mark the children as removed. -/
def removeChildren (children : List ℕ) : Managers :=
  { all with managers := fun m =>
      if m ∈ children then { all.managers m with isRemovedFromParent := true }
      else all.managers m }

/-- The first critical section of a `StartCancel` that performs the cancellation. -/
def beginCancel (m : ℕ) : Option Managers :=
  (all.siblings all.count (all.managers m).firstChild).map fun children =>
    let removed := all.removeChildren children
    removed.set m ((removed.managers m).beginCancel children)

/-- `StartCancel` up to the end of its first critical section. -/
def startCancel (m : ℕ) : Option Managers :=
  if (all.managers m).isClosed then some all else all.beginCancel m

/-- `RegisterChild` for the next manager, in its constructor. -/
def registerChild (p : ℕ) : Managers :=
  let child := all.count
  let parent := all.managers p
  if parent.isClosed then
    { all with
      count := child + 1
      managers := Function.update all.managers child
        { CancellationManager.construct (some p) with
          isCancelled := true, isRemovedFromParent := true } }
  else
    let head := parent.createState.firstChild
    { all with
      count := child + 1
      managers := fun m =>
        if m = child then { CancellationManager.construct (some p) with nextSibling := head }
        else
          let manager := if head = some m then { all.managers m with prevSibling := some child }
            else all.managers m
          if m = p then
            { manager with state := some { parent.createState with firstChild := some child } }
          else manager }

/-- Take a child out of the list of its parent. -/
def unlink (p m : ℕ) : Managers :=
  let child := all.managers m
  { all with managers := fun other =>
      let manager := all.managers other
      let manager := if child.prevSibling = some other then
        { manager with nextSibling := child.nextSibling } else manager
      let manager := if child.nextSibling = some other then
        { manager with prevSibling := child.prevSibling } else manager
      let manager := if other = p ∧ child.prevSibling = none then
        { manager with state := manager.state.map fun state =>
            { state with firstChild := child.nextSibling } } else manager
      if other = m then { manager with isRemovedFromParent := true } else manager }

section Places

variable {all} {p m c : ℕ}

theorem removeChildren_managers (children : List ℕ) :
    (all.removeChildren children).managers c =
      if c ∈ children then { all.managers c with isRemovedFromParent := true }
      else all.managers c := rfl

/-- What an open manager's new child changes of the managers made before. -/
theorem registerChild_of_ne (hopen : (all.managers p).isClosed = false) (c : ℕ)
    (hc : c ≠ all.count) : (all.registerChild p).managers c =
      { all.managers c with
        prevSibling := if (all.managers p).firstChild = some c then some all.count
          else (all.managers c).prevSibling
        state := if c = p then
            some { (all.managers p).createState with firstChild := some all.count }
          else (all.managers c).state } := by
  simp only [registerChild, hopen, Bool.false_eq_true, if_false, if_neg hc,
    CancellationManager.createState_firstChild]
  split_ifs <;> rfl

/-- What taking a child out changes of each manager. -/
theorem unlink_managers : (all.unlink p m).managers c =
    { all.managers c with
      nextSibling := if (all.managers m).prevSibling = some c then (all.managers m).nextSibling
        else (all.managers c).nextSibling
      prevSibling := if (all.managers m).nextSibling = some c then (all.managers m).prevSibling
        else (all.managers c).prevSibling
      state := if c = p ∧ (all.managers m).prevSibling = none then
          (all.managers c).state.map fun state =>
            { state with firstChild := (all.managers m).nextSibling }
        else (all.managers c).state
      isRemovedFromParent := if c = m then true else (all.managers c).isRemovedFromParent } := by
  simp only [unlink]
  split_ifs <;> rfl

end Places

/-- `DeregisterChild` follows the pointer to the state of the parent. -/
def ReadsState (p m : ℕ) : Prop :=
  (all.managers m).isRemovedFromParent = false ∨ (all.managers p).isCancelling = true

instance (p m : ℕ) : Decidable (all.ReadsState p m) := inferInstanceAs (Decidable (_ ∨ _))

/-- The critical section of `DeregisterChild`, called by the destructor of the child. -/
def deregisterChild (p m : ℕ) : Managers :=
  if all.ReadsState p m ∧ (all.managers p).state = none then { all with fault := true }
  else
    let unlinked := if (all.managers m).isRemovedFromParent then all else all.unlink p m
    unlinked.set m { unlinked.managers m with
      life := if (all.managers p).isCancelling then .waiting else .left }

end Managers

/-! ## The machine -/

inductive Action
  | newRoot
  | newChild (p : ℕ)
  | getCancellationToken (m : ℕ)
  | registerCallback (m token : ℕ)
  | deregisterCallback (m token : ℕ)
  | tryDeregisterCallback (m token : ℕ)
  /-- a waiting `DeregisterCallback` returns -/
  | wake (index : ℕ)
  | startCancel (m : ℕ)
  | startCallback (m token : ℕ)
  | finishCallback (m : ℕ)
  | nextChild (m : ℕ)
  | childReturned (m : ℕ)
  | complete (m : ℕ)
  | notify (m : ℕ)
  /-- the destructor, up to the end of `DeregisterChild`'s critical section -/
  | destroy (m : ℕ)
  | leave (m : ℕ)
  | lastCancel (m : ℕ)
  | free (m : ℕ)

namespace Managers

variable (all : Managers)

/-- `DeregisterCallback` waits for the notification, if there is one. -/
def deregisterCallback (m token : ℕ) : Managers :=
  let manager := all.managers m
  if manager.isCancelled then { all with refused := (m, token) :: all.refused }
  else if manager.isCancelling then
    if manager.state.isSome then { all with waiters := (m, token) :: all.waiters }
    else { all with refused := (m, token) :: all.refused }
  else all.set m (manager.eraseCallback token)

def tryDeregisterCallback (m token : ℕ) : Managers :=
  if (all.managers m).isClosed then all else all.set m ((all.managers m).eraseCallback token)

/-- The callbacks and the children of a running cancellation are all done. -/
def IsDone (cancel : Cancel) : Prop :=
  cancel.stage = .running ∧ cancel.callbacksToRun = [] ∧ cancel.inCallback = none ∧
    cancel.childrenToCancel = [] ∧ cancel.inChild = none

instance (cancel : Cancel) : Decidable (IsDone cancel) :=
  inferInstanceAs (Decidable (_ ∧ _ ∧ _ ∧ _ ∧ _))

/-- What `StartCancel` does between its critical sections, and after them. -/
def stepCancel (m : ℕ) (cancel : Cancel) : Action → Option Managers
  | .startCallback _ token =>
      if cancel.stage = .running ∧ cancel.inCallback = none ∧ token ∈ cancel.callbacksToRun then
        some (all.set m ((all.managers m).startCallback cancel token))
      else none
  | .finishCallback _ =>
      cancel.inCallback.map fun token => all.set m ((all.managers m).finishCallback cancel token)
  | .nextChild _ =>
      -- the callbacks come first
      if cancel.stage = .running ∧ cancel.callbacksToRun = [] ∧ cancel.inCallback = none ∧
          cancel.inChild = none then
        match cancel.childrenToCancel with
        | [] => none
        | child :: children =>
            if (all.managers child).life = .freed then none
            else if (all.managers child).isClosed then
              some (all.set m { all.managers m with
                cancel := some { cancel with childrenToCancel := children } })
            else
              (all.set m { all.managers m with
                cancel := some { cancel with
                  childrenToCancel := children, inChild := some child } }).beginCancel child
      else none
  | .childReturned _ =>
      cancel.inChild.bind fun child =>
        if (all.managers child).hasReturned then
          some (all.set m { all.managers m with cancel := some { cancel with inChild := none } })
        else none
  | .complete _ =>
      if IsDone cancel then some (all.set m ((all.managers m).complete cancel)) else none
  | .notify _ =>
      if cancel.stage = .marked then some (all.set m ((all.managers m).notify cancel)) else none
  | _ => none

/-- What the destructor does after `DeregisterChild`'s critical section. -/
def stepDestructor (m : ℕ) : Action → Option Managers
  | .leave _ =>
      if (all.managers m).life = .waiting ∧
          (all.managers m).parent.any fun p => (all.managers p).isNotified then
        some (all.set m { all.managers m with life := .left })
      else none
  | .lastCancel _ =>
      if (all.managers m).life = .left then
        if (all.managers m).state = none ∨ (all.managers m).isClosed then
          some (all.set m { all.managers m with life := .freed })
        else (all.set m { all.managers m with life := .cancelling }).beginCancel m
      else none
  | .free _ =>
      if (all.managers m).life = .cancelling ∧ (all.managers m).hasReturned then
        some (all.set m { all.managers m with life := .freed })
      else none
  | _ => none

def step : Action → Option Managers
  | .newRoot =>
      some { all with
        count := all.count + 1
        managers := Function.update all.managers all.count (.construct none) }
  | .newChild p => if all.Usable p then some (all.registerChild p) else none
  | .getCancellationToken m =>
      if all.Usable m then some (all.set m (all.managers m).getCancellationToken) else none
  | .registerCallback m token =>
      if all.Usable m ∧ token < (all.managers m).nextCancellationToken ∧
          token ∉ (all.managers m).used then
        some (all.set m ((all.managers m).registerCallback token))
      else none
  | .deregisterCallback m token =>
      if all.Usable m then some (all.deregisterCallback m token) else none
  | .tryDeregisterCallback m token =>
      if all.Usable m then some (all.tryDeregisterCallback m token) else none
  | .wake index =>
      all.waiters[index]?.bind fun waiter =>
        if (all.managers waiter.1).isNotified then
          some { all with
            waiters := all.waiters.eraseIdx index, refused := waiter :: all.refused }
        else none
  | .startCancel m => if all.Usable m then all.startCancel m else none
  | .destroy m =>
      if all.Usable m ∧ all.Outlives m then
        match (all.managers m).parent with
        | none => some (all.set m { all.managers m with life := .left })
        | some p => some (all.deregisterChild p m)
      else none
  | .leave m => if m < all.count then all.stepDestructor m (.leave m) else none
  | .lastCancel m => if m < all.count then all.stepDestructor m (.lastCancel m) else none
  | .free m => if m < all.count then all.stepDestructor m (.free m) else none
  | .startCallback m token => (all.managers m).cancel.bind fun cancel =>
      all.stepCancel m cancel (.startCallback m token)
  | .finishCallback m => (all.managers m).cancel.bind fun cancel =>
      all.stepCancel m cancel (.finishCallback m)
  | .nextChild m => (all.managers m).cancel.bind fun cancel =>
      all.stepCancel m cancel (.nextChild m)
  | .childReturned m => (all.managers m).cancel.bind fun cancel =>
      all.stepCancel m cancel (.childReturned m)
  | .complete m => (all.managers m).cancel.bind fun cancel =>
      all.stepCancel m cancel (.complete m)
  | .notify m => (all.managers m).cancel.bind fun cancel =>
      all.stepCancel m cancel (.notify m)

end Managers

/-- Any number of trees of managers. After a fault nothing happens. -/
def cancellation : Machine Managers Action where
  init := ⟨fun _ => .construct none, 0, [], [], false⟩
  step all action := if all.fault then none else all.step action

end ContainerScheduler.Cancellation
