/-
# The callbacks of a cancellation

The tokens that a manager accepted and that were not deregistered are those in its map, those that
its cancellation has still to run, and those that were started. An accepted callback is started at
most once, and never after a deregistration that returned true. When a manager is cancelled, all of
them have finished; a deregistration returns false only then, or when there was nothing to run.

The invariant of the tokens is about one manager at a time. Beside it a cancellation knows which of
the children it has found are still to be visited: the others are closed. A child that another call
cancels already is passed over, so it need not be cancelled when the cancellation of its parent
returns.
-/

import ContainerScheduler.Analysis.ChildLists

namespace ContainerScheduler.Analysis

open Math
open Cancellation

/-! ## The tokens of one manager -/

/-- The callbacks that the cancellation has not started. -/
def toRun (manager : CancellationManager) : List ℕ :=
  (manager.cancel.map Cancel.callbacksToRun).getD []

/-- The tokens that were accepted and not deregistered, by where they are. -/
def heldTokens (manager : CancellationManager) : List ℕ :=
  manager.started ++ (toRun manager ++ manager.callbacks)

/-- How far a cancellation has come with its callbacks. -/
structure Progress (manager : CancellationManager) (cancel : Cancel) : Prop where
  finished : ∀ t ∈ manager.started, t ∈ manager.finished ∨ cancel.inCallback = some t
  taken : ∀ t ∈ cancel.taken, t ∈ cancel.callbacksToRun ∨ t ∈ manager.started
  cancelled : manager.isCancelled = true ↔ cancel.stage ≠ .running
  closed : manager.isClosed = true
  settled : cancel.stage ≠ .running → cancel.callbacksToRun = [] ∧ cancel.inCallback = none ∧
    cancel.childrenToCancel = [] ∧ cancel.inChild = none

structure TokenInv (manager : CancellationManager) : Prop where
  nodup : (heldTokens manager).Nodup
  mem_held : ∀ t, t ∈ heldTokens manager ↔ t ∈ manager.registered ∧ t ∉ manager.deregistered
  used : ∀ t ∈ manager.registered, t ∈ manager.used
  dropped : ∀ t ∈ manager.deregistered, t ∈ manager.registered
  stateless : manager.state = none → manager.registered = []
  emptied : manager.isClosed = true → manager.callbacks = []
  idle : manager.cancel = none → manager.started = []
  progress : ∀ cancel ∈ manager.cancel, Progress manager cancel
  notified : manager.isNotified = true → manager.isCancelled = true

/-- Two records of a manager with the same tokens. -/
structure SameTokens (old new : CancellationManager) : Prop where
  cancelling : new.isCancelling = old.isCancelling
  cancelled : new.isCancelled = old.isCancelled
  callbacks : new.callbacks = old.callbacks
  state : new.state = none → old.state = none
  notified : new.isNotified = old.isNotified
  cancel : new.cancel = old.cancel
  used : new.used = old.used
  registered : new.registered = old.registered
  deregistered : new.deregistered = old.deregistered
  started : new.started = old.started
  finished : new.finished = old.finished

section OneManager

variable {manager after : CancellationManager} {cancel : Cancel} {t token : ℕ}

theorem SameTokens.refl (manager : CancellationManager) : SameTokens manager manager :=
  ⟨rfl, rfl, rfl, id, rfl, rfl, rfl, rfl, rfl, rfl, rfl⟩

theorem SameTokens.closed (hsame : SameTokens manager after) :
    after.isClosed = manager.isClosed := by
  rw [CancellationManager.isClosed, hsame.cancelled, hsame.cancelling, CancellationManager.isClosed]

theorem SameTokens.held (hsame : SameTokens manager after) :
    heldTokens after = heldTokens manager := by
  rw [heldTokens, toRun, hsame.started, hsame.cancel, hsame.callbacks, heldTokens, toRun]

theorem TokenInv.congr (inv : TokenInv manager) (hsame : SameTokens manager after) :
    TokenInv after where
  nodup := hsame.held.symm ▸ inv.nodup
  mem_held t := by rw [hsame.held, hsame.registered, hsame.deregistered, inv.mem_held]
  used := by rw [hsame.registered, hsame.used]; exact inv.used
  dropped := by rw [hsame.registered, hsame.deregistered]; exact inv.dropped
  stateless hnone := by rw [hsame.registered]; exact inv.stateless (hsame.state hnone)
  emptied hclosed := by rw [hsame.callbacks]; exact inv.emptied (hsame.closed ▸ hclosed)
  idle hnone := by rw [hsame.started]; exact inv.idle (hsame.cancel ▸ hnone)
  progress cancel hcancel := by
    have hold := inv.progress cancel (hsame.cancel ▸ hcancel)
    constructor
    · rw [hsame.started, hsame.finished]
      exact hold.finished
    · rw [hsame.started]
      exact hold.taken
    · rw [hsame.cancelled]
      exact hold.cancelled
    · rw [hsame.closed]
      exact hold.closed
    · exact hold.settled
  notified := by rw [hsame.notified, hsame.cancelled]; exact inv.notified

/-- A new manager has no tokens, whether it is cancelled or not. -/
theorem tokenInv_construct (hcallbacks : manager.callbacks = []) (hcancel : manager.cancel = none)
    (hregistered : manager.registered = []) (hderegistered : manager.deregistered = [])
    (hstarted : manager.started = [])
    (hnotified : manager.isNotified = false) : TokenInv manager := by
  have hheld : heldTokens manager = [] := by
    rw [heldTokens, toRun, hcancel, hstarted, hcallbacks]
    rfl
  constructor
  · rw [hheld]
    exact List.nodup_nil
  · intro t
    simp [hheld, hregistered]
  · simp [hregistered]
  · simp [hderegistered]
  · exact fun _ => hregistered
  · exact fun _ => hcallbacks
  · exact fun _ => hstarted
  · simp [hcancel]
  · simp [hnotified]

theorem TokenInv.cancel_eq_none (inv : TokenInv manager) (hopen : manager.isClosed = false) :
    manager.cancel = none := by
  cases hcancel : manager.cancel with
  | none => rfl
  | some cancel => cases (inv.progress cancel hcancel).closed.symm.trans hopen

/-- **When a manager is cancelled**, what was accepted and not deregistered has finished. -/
theorem TokenInv.finished_of_cancelled (inv : TokenInv manager)
    (hcancelled : manager.isCancelled = true) (ht : t ∈ manager.registered) :
    t ∈ manager.deregistered ∨ t ∈ manager.finished := by
  by_cases hdropped : t ∈ manager.deregistered
  · exact .inl hdropped
  · have hheld := (inv.mem_held t).mpr ⟨ht, hdropped⟩
    have hclosed : manager.isClosed = true := by simp [CancellationManager.isClosed, hcancelled]
    rw [heldTokens, inv.emptied hclosed, List.append_nil, List.mem_append] at hheld
    cases hcancel : manager.cancel with
    | none =>
        rw [inv.idle hcancel, toRun, hcancel] at hheld
        rcases hheld with hmem | hmem <;> cases hmem
    | some cancel =>
        have hprogress := inv.progress cancel hcancel
        rcases hprogress.settled (hprogress.cancelled.mp hcancelled) with ⟨hnone, hidle, -, -⟩
        rw [toRun, hcancel] at hheld
        rcases hheld with hstarted | hleft
        · apply Or.inr
          apply (hprogress.finished t hstarted).resolve_right
          rw [hidle]
          exact (Option.some_ne_none t).symm
        · rw [Option.map_some, Option.getD_some, hnone] at hleft
          cases hleft

/-! ## What the operations do to the tokens -/

/-- An open manager whose map is given. -/
structure OpenWith (manager : CancellationManager) (callbacks : List ℕ) : Prop where
  isOpen : manager.isClosed = false
  cancel : manager.cancel = none
  started : manager.started = []
  notified : manager.isNotified = false
  callbacks : manager.callbacks = callbacks

theorem TokenInv.openWith (inv : TokenInv manager) (hopen : manager.isClosed = false) :
    OpenWith manager manager.callbacks where
  isOpen := hopen
  cancel := inv.cancel_eq_none hopen
  started := inv.idle (inv.cancel_eq_none hopen)
  notified := by
    rw [Bool.eq_false_iff]
    intro hnotified
    simp [CancellationManager.isClosed, inv.notified hnotified] at hopen
  callbacks := rfl

/-- All tokens of an open manager are in its map. -/
theorem OpenWith.held_eq {callbacks : List ℕ} (hopen : OpenWith manager callbacks) :
    heldTokens manager = callbacks := by
  rw [heldTokens, toRun, hopen.cancel, hopen.started, hopen.callbacks]
  rfl

theorem OpenWith.tokenInv {callbacks : List ℕ} (hopen : OpenWith manager callbacks)
    (hnodup : callbacks.Nodup)
    (hmem : ∀ t, t ∈ callbacks ↔ t ∈ manager.registered ∧ t ∉ manager.deregistered)
    (hused : ∀ t ∈ manager.registered, t ∈ manager.used)
    (hdropped : ∀ t ∈ manager.deregistered, t ∈ manager.registered)
    (hstateless : manager.state = none → manager.registered = []) : TokenInv manager where
  nodup := hopen.held_eq.symm ▸ hnodup
  mem_held := hopen.held_eq.symm ▸ hmem
  used := hused
  dropped := hdropped
  stateless := hstateless
  emptied hclosed := by cases hopen.isOpen.symm.trans hclosed
  idle _ := hopen.started
  progress cancel hcancel := by
    rw [hopen.cancel] at hcancel
    cases hcancel
  notified hnotified := by cases hopen.notified.symm.trans hnotified

section

variable (inv : TokenInv manager)

include inv

theorem TokenInv.registerCallback (hfresh : token ∉ manager.used) :
    TokenInv (manager.registerCallback token) := by
  cases hclosed : manager.isClosed with
  | true =>
      rw [CancellationManager.registerCallback, if_pos hclosed]
      exact { inv with
        used := fun t ht => List.mem_cons_of_mem token (inv.used t ht)
        progress := fun cancel hcancel =>
          { inv.progress cancel hcancel with closed := hclosed } }
  | false =>
      have hopen := inv.openWith hclosed
      have hheld := hopen.held_eq
      have hmem : ∀ t, t ∈ manager.callbacks ↔
          t ∈ manager.registered ∧ t ∉ manager.deregistered := hheld ▸ inv.mem_held
      have hnew : token ∉ manager.registered := fun hin => hfresh (inv.used token hin)
      rw [CancellationManager.registerCallback, if_neg (Bool.not_eq_true _ ▸ hclosed)]
      refine OpenWith.tokenInv (show OpenWith _ (token :: manager.callbacks) from ?_) ?_ ?_ ?_ ?_ ?_
      · refine ⟨hclosed, hopen.cancel, hopen.started,
          manager.createState_notified.trans hopen.notified, ?_⟩
        exact congrArg (token :: ·) manager.createState_callbacks
      · exact List.nodup_cons.mpr ⟨fun hin => hnew ((hmem token).mp hin).1, hheld ▸ inv.nodup⟩
      · intro t
        rw [List.mem_cons, hmem, List.mem_cons]
        constructor
        · rintro (rfl | ⟨ht, hkept⟩)
          · exact ⟨.inl rfl, fun hin => hnew (inv.dropped t hin)⟩
          · exact ⟨.inr ht, hkept⟩
        · rintro ⟨rfl | ht, hkept⟩
          · exact .inl rfl
          · exact .inr ⟨ht, hkept⟩
      · intro t ht
        rcases List.mem_cons.mp ht with rfl | ht
        · exact List.mem_cons_self
        · exact List.mem_cons_of_mem token (inv.used t ht)
      · intro t ht
        exact List.mem_cons_of_mem token (inv.dropped t ht)
      · intro hnone
        cases hnone

/-- The map loses a token. -/
theorem TokenInv.eraseCallback (hclosed : manager.isClosed = false) :
    TokenInv (manager.eraseCallback token) := by
  have hopen := inv.openWith hclosed
  have hheld := hopen.held_eq
  have hmem : ∀ t, t ∈ manager.callbacks ↔
      t ∈ manager.registered ∧ t ∉ manager.deregistered := hheld ▸ inv.mem_held
  have hnodup : manager.callbacks.Nodup := hheld ▸ inv.nodup
  have hafter : OpenWith (manager.eraseCallback token) (manager.callbacks.erase token) := by
    refine ⟨hclosed, hopen.cancel, hopen.started, ?_, ?_⟩
    · rw [← hopen.notified]
      cases hstate : manager.state <;>
        simp [CancellationManager.isNotified, CancellationManager.eraseCallback, hstate]
    · cases hstate : manager.state <;>
        simp [CancellationManager.callbacks, CancellationManager.eraseCallback, hstate]
  refine hafter.tokenInv (hnodup.erase token) ?_ inv.used ?_ ?_
  · intro t
    rw [hnodup.mem_erase_iff, hmem, CancellationManager.eraseCallback]
    split_ifs with hin
    · rw [List.mem_cons, not_or, ← and_assoc, ← and_assoc, and_comm (a := t ≠ token)]
    · refine and_iff_right_of_imp ?_
      rintro ⟨ht, -⟩ rfl
      exact hin ht
  · intro t
    rw [CancellationManager.eraseCallback]
    split_ifs with hin
    · intro ht
      rcases List.mem_cons.mp ht with rfl | ht
      · exact hin
      · exact inv.dropped t ht
    · exact inv.dropped t
  · intro hnone
    exact inv.stateless (Option.map_eq_none_iff.mp hnone)

/-- The first critical section of the cancellation moves the map into a local variable. -/
theorem TokenInv.beginCancel (hclosed : manager.isClosed = false) (children : List ℕ) :
    TokenInv (manager.beginCancel children) := by
  have hopen := inv.openWith hclosed
  have hcallbacks : (manager.beginCancel children).callbacks = [] := by
    cases hstate : manager.state <;>
      simp [CancellationManager.callbacks, CancellationManager.beginCancel, hstate]
  have hheld : heldTokens (manager.beginCancel children) = heldTokens manager := by
    rw [heldTokens, hcallbacks, List.append_nil, hopen.held_eq]
    exact congrArg (· ++ manager.callbacks) hopen.started
  have hclosedAfter : (manager.beginCancel children).isClosed = true := by
    simp [CancellationManager.isClosed, CancellationManager.beginCancel]
  refine ⟨hheld ▸ inv.nodup, hheld ▸ inv.mem_held, inv.used, inv.dropped, ?_, ?_, ?_, ?_, ?_⟩
  · intro hnone
    exact inv.stateless (Option.map_eq_none_iff.mp hnone)
  · exact fun _ => hcallbacks
  · intro hnone
    cases hnone
  · rintro cancel hcancel
    obtain rfl := Option.some.inj hcancel
    constructor
    · intro t ht
      rw [show (manager.beginCancel children).started = [] from hopen.started] at ht
      cases ht
    · exact fun t ht => .inl ht
    · have hcancelled : manager.isCancelled = false := (Bool.or_eq_false_iff.mp hclosed).1
      exact iff_of_false (Bool.eq_false_iff.mp hcancelled) fun hstage => hstage rfl
    · exact hclosedAfter
    · exact fun hstage => absurd rfl hstage
  · have hnotified : (manager.beginCancel children).isNotified = manager.isNotified := by
      cases hstate : manager.state <;>
        simp [CancellationManager.isNotified, CancellationManager.beginCancel, hstate]
    intro htrue
    cases hopen.notified.symm.trans (hnotified.symm.trans htrue)

/-- A callback is started. -/
theorem TokenInv.startCallback (hcancel : manager.cancel = some cancel)
    (hstage : cancel.stage = .running) (hidle : cancel.inCallback = none)
    (hmem : token ∈ cancel.callbacksToRun) : TokenInv (manager.startCallback cancel token) := by
  have hprogress := inv.progress cancel hcancel
  have htoRun : toRun manager = cancel.callbacksToRun := by
    rw [toRun, hcancel]
    rfl
  have hheld : (heldTokens (manager.startCallback cancel token)).Perm (heldTokens manager) := by
    rw [heldTokens, heldTokens, htoRun]
    refine List.perm_middle.symm.trans (List.Perm.append_left _ ?_)
    exact List.Perm.append_right _ (List.perm_cons_erase hmem).symm
  refine ⟨hheld.nodup_iff.mpr inv.nodup, fun t => hheld.mem_iff.trans (inv.mem_held t), inv.used,
    inv.dropped, inv.stateless, inv.emptied, ?_, ?_, inv.notified⟩
  · intro hnone
    cases hnone
  · rintro after hafter
    obtain rfl := Option.some.inj hafter
    constructor
    · intro t ht
      rcases List.mem_cons.mp ht with rfl | ht
      · exact .inr rfl
      · refine .inl ((hprogress.finished t ht).resolve_right ?_)
        rw [hidle]
        exact (Option.some_ne_none t).symm
    · intro t ht
      by_cases heq : t = token
      · exact .inr (heq ▸ List.mem_cons_self)
      · rcases hprogress.taken t ht with hleft | hstarted
        · exact .inl ((List.mem_erase_of_ne heq).mpr hleft)
        · exact .inr (List.mem_cons_of_mem token hstarted)
    · exact hprogress.cancelled
    · exact hprogress.closed
    · exact fun hover => absurd hstage hover

theorem TokenInv.finishCallback (hcancel : manager.cancel = some cancel)
    (hrunning : cancel.inCallback = some token) :
    TokenInv (manager.finishCallback cancel token) := by
  have hprogress := inv.progress cancel hcancel
  have hheld : heldTokens (manager.finishCallback cancel token) = heldTokens manager := by
    rw [heldTokens, heldTokens, toRun, toRun, hcancel]
    rfl
  refine ⟨hheld ▸ inv.nodup, hheld ▸ inv.mem_held, inv.used, inv.dropped, inv.stateless,
    inv.emptied, ?_, ?_, inv.notified⟩
  · intro hnone
    cases hnone
  · rintro after hafter
    obtain rfl := Option.some.inj hafter
    constructor
    · intro t ht
      rcases hprogress.finished t ht with hfinished | hin
      · exact .inl (List.mem_cons_of_mem token hfinished)
      · obtain rfl := Option.some.inj (hin.symm.trans hrunning)
        exact .inl List.mem_cons_self
    · exact hprogress.taken
    · exact hprogress.cancelled
    · exact hprogress.closed
    · intro hstage
      have hover := hprogress.settled hstage
      cases hover.2.1.symm.trans hrunning

theorem TokenInv.setChildren (hcancel : manager.cancel = some cancel)
    (hstage : cancel.stage = .running) (children : List ℕ) (inChild : Option ℕ) :
    TokenInv { manager with
      cancel := some { cancel with childrenToCancel := children, inChild := inChild } } := by
  have hprogress := inv.progress cancel hcancel
  have hheld : heldTokens { manager with
      cancel := some { cancel with childrenToCancel := children, inChild := inChild } } =
        heldTokens manager := by
    rw [heldTokens, heldTokens, toRun, toRun, hcancel]
    rfl
  refine ⟨hheld ▸ inv.nodup, hheld ▸ inv.mem_held, inv.used, inv.dropped, inv.stateless,
    inv.emptied, ?_, ?_, inv.notified⟩
  · intro hnone
    cases hnone
  · rintro after hafter
    obtain rfl := Option.some.inj hafter
    exact ⟨hprogress.finished, hprogress.taken, hprogress.cancelled, hprogress.closed,
      fun hover => absurd hstage hover⟩

/-- The second critical section of the cancellation. -/
theorem TokenInv.complete (hcancel : manager.cancel = some cancel)
    (hdone : Managers.IsDone cancel) : TokenInv (manager.complete cancel) := by
  have hprogress := inv.progress cancel hcancel
  have hheld : heldTokens (manager.complete cancel) = heldTokens manager := by
    rw [heldTokens, heldTokens, toRun, toRun, hcancel]
    rfl
  refine ⟨hheld ▸ inv.nodup, hheld ▸ inv.mem_held, inv.used, inv.dropped, inv.stateless, ?_, ?_,
    ?_, fun _ => rfl⟩
  · exact fun _ => inv.emptied hprogress.closed
  · intro hnone
    cases hnone
  · rintro after hafter
    obtain rfl := Option.some.inj hafter
    refine ⟨hprogress.finished, hprogress.taken, ?_, rfl, fun _ => hdone.2⟩
    exact iff_of_true rfl fun hstage => by cases hstage

theorem TokenInv.notify (hcancel : manager.cancel = some cancel) (hstage : cancel.stage = .marked) :
    TokenInv (manager.notify cancel) := by
  have hprogress := inv.progress cancel hcancel
  have hmarked : cancel.stage ≠ .running := by simp [hstage]
  have hcallbacks : (manager.notify cancel).callbacks = manager.callbacks := by
    cases hstate : manager.state <;> cases hnotifies : cancel.notifies <;>
      simp [CancellationManager.callbacks, CancellationManager.notify, hstate, hnotifies]
  have hheld : heldTokens (manager.notify cancel) = heldTokens manager := by
    rw [heldTokens, heldTokens, hcallbacks, toRun, toRun, hcancel]
    rfl
  refine ⟨hheld ▸ inv.nodup, hheld ▸ inv.mem_held, inv.used, inv.dropped, ?_, ?_, ?_, ?_, ?_⟩
  · intro hnone
    apply inv.stateless
    cases hstate : manager.state with
    | none => rfl
    | some state =>
        cases hnotifies : cancel.notifies <;>
          simp [CancellationManager.notify, hstate, hnotifies] at hnone
  · intro hclosed
    rw [hcallbacks]
    exact inv.emptied hclosed
  · intro hnone
    cases hnone
  · rintro after hafter
    obtain rfl := Option.some.inj hafter
    refine ⟨hprogress.finished, hprogress.taken, ?_, hprogress.closed, fun _ => ?_⟩
    · exact iff_of_true (hprogress.cancelled.mpr hmarked) fun hstage => by cases hstage
    · exact hprogress.settled hmarked
  · exact fun _ => hprogress.cancelled.mpr hmarked

theorem TokenInv.closed_of_returned (hreturned : manager.hasReturned = true) :
    manager.isClosed = true := by
  rcases (Option.any_eq_true _ _).mp hreturned with ⟨cancel, hcancel, -⟩
  exact (inv.progress cancel hcancel).closed

end

end OneManager

/-! ## All managers -/

/-- The children that a cancellation has found: each is still to be visited, or its cancellation is
waited for, or it is closed. -/
def Visits (all : Managers) (cancel : Cancel) : Prop :=
  ∀ child ∈ cancel.linked, child < all.count ∧
    (child ∈ cancel.childrenToCancel ∨ cancel.inChild = some child ∨
      (all.managers child).isClosed = true)

/-- What holds when a deregistration returns false. -/
structure Refused (all : Managers) (m t : ℕ) : Prop where
  made : m < all.count
  closed : (all.managers m).isClosed = true
  finished : t ∈ (all.managers m).registered →
    t ∈ (all.managers m).deregistered ∨ t ∈ (all.managers m).finished

structure CancelInv (all : Managers) : Prop where
  tokens : ∀ m, TokenInv (all.managers m)
  visits : ∀ m, ∀ cancel ∈ (all.managers m).cancel, Visits all cancel
  refused : ∀ call ∈ all.refused, Refused all call.1 call.2
  waiters : ∀ call ∈ all.waiters, call.1 < all.count

/-- What is never taken back in the record of a manager. -/
structure Grows (old new : CancellationManager) : Prop where
  closed : old.isClosed = true → new.isClosed = true
  registered : old.isClosed = true → ∀ t ∈ new.registered, t ∈ old.registered
  deregistered : ∀ t ∈ old.deregistered, t ∈ new.deregistered
  finished : ∀ t ∈ old.finished, t ∈ new.finished

theorem Grows.refl (manager : CancellationManager) : Grows manager manager :=
  ⟨id, fun _ _ => id, fun _ => id, fun _ => id⟩

theorem SameTokens.grows {old new : CancellationManager} (hsame : SameTokens old new) :
    Grows old new := by
  refine ⟨fun h => hsame.closed.trans h, fun _ t ht => ?_, fun t ht => ?_, fun t ht => ?_⟩
  · exact hsame.registered ▸ ht
  · exact hsame.deregistered.symm ▸ ht
  · exact hsame.finished.symm ▸ ht

section AllManagers

variable {all after : Managers} {m p t token : ℕ} {manager : CancellationManager} {cancel : Cancel}

theorem Visits.mono (hvisits : Visits all cancel) (hcount : all.count ≤ after.count)
    (hgrows : ∀ m < all.count, Grows (all.managers m) (after.managers m)) :
    Visits after cancel := by
  intro child hchild
  rcases hvisits child hchild with ⟨hmade, hfate⟩
  refine ⟨Nat.lt_of_lt_of_le hmade hcount, ?_⟩
  exact hfate.imp_right (Or.imp_right (hgrows child hmade).closed)

theorem Refused.mono (hrefused : Refused all m t) (hcount : all.count ≤ after.count)
    (hgrows : ∀ m < all.count, Grows (all.managers m) (after.managers m)) :
    Refused after m t := by
  have hm := hgrows m hrefused.made
  refine ⟨Nat.lt_of_lt_of_le hrefused.made hcount, hm.closed hrefused.closed, fun ht => ?_⟩
  have hold := hrefused.finished (hm.registered hrefused.closed t ht)
  exact hold.imp (hm.deregistered t) (hm.finished t)

/-- **The rule for a step**: the records keep their tokens and grow, and what is new is in order. -/
theorem CancelInv.mono (inv : CancelInv all) (hcount : all.count ≤ after.count)
    (htokens : ∀ m, TokenInv (after.managers m))
    (hgrows : ∀ m < all.count, Grows (all.managers m) (after.managers m))
    (hvisits : ∀ m, ∀ cancel ∈ (after.managers m).cancel,
      cancel ∈ (all.managers m).cancel ∨ Visits after cancel)
    (hrefused : ∀ call ∈ after.refused, call ∈ all.refused ∨ Refused after call.1 call.2)
    (hwaiters : ∀ call ∈ after.waiters, call ∈ all.waiters ∨ call.1 < all.count) :
    CancelInv after := by
  refine ⟨htokens, fun m cancel hcancel => ?_, fun call hcall => ?_, fun call hcall => ?_⟩
  · rcases hvisits m cancel hcancel with hold | hnew
    · exact (inv.visits m cancel hold).mono hcount hgrows
    · exact hnew
  · rcases hrefused call hcall with hold | hnew
    · exact (inv.refused call hold).mono hcount hgrows
    · exact hnew
  · rcases hwaiters call hcall with hold | hnew
    · exact Nat.lt_of_lt_of_le (inv.waiters call hold) hcount
    · exact Nat.lt_of_lt_of_le hnew hcount

/-- Steps that change no tokens. -/
theorem CancelInv.congr (inv : CancelInv all) (hcount : after.count = all.count)
    (hsame : ∀ m, SameTokens (all.managers m) (after.managers m))
    (hrefused : ∀ call ∈ after.refused, call ∈ all.refused ∨ Refused all call.1 call.2)
    (hwaiters : ∀ call ∈ after.waiters, call ∈ all.waiters ∨ call.1 < all.count) :
    CancelInv after := by
  have hgrows : ∀ m < all.count, Grows (all.managers m) (after.managers m) :=
    fun m _ => (hsame m).grows
  refine inv.mono (Nat.le_of_eq hcount.symm) (fun m =>
    (inv.tokens m).congr (hsame m)) hgrows ?_ ?_ hwaiters
  · intro m cancel hcancel
    exact .inl ((hsame m).cancel ▸ hcancel)
  · intro call hcall
    exact (hrefused call hcall).imp_right fun h => h.mono (Nat.le_of_eq hcount.symm) hgrows

/-- One manager is changed. -/
theorem CancelInv.set (inv : CancelInv all) (htokens : TokenInv manager)
    (hgrows : Grows (all.managers m) manager)
    (hvisits : ∀ cancel ∈ manager.cancel, cancel ∈ (all.managers m).cancel ∨ Visits all cancel) :
    CancelInv (all.set m manager) := by
  have hgrowsAll : ∀ c < all.count, Grows (all.managers c) ((all.set m manager).managers c) := by
    intro c _
    rcases eq_or_ne c m with rfl | hne
    · rw [Managers.set_self]
      exact hgrows
    · rw [Managers.set_of_ne hne]
      exact .refl _
  refine inv.mono (Nat.le_refl _) ?_ hgrowsAll ?_ (fun call => .inl) (fun call => .inl)
  · intro c
    rcases eq_or_ne c m with rfl | hne
    · rw [Managers.set_self]
      exact htokens
    · rw [Managers.set_of_ne hne]
      exact inv.tokens c
  · intro c cancel hcancel
    rcases eq_or_ne c m with rfl | hne
    · rw [Managers.set_self] at hcancel
      exact (hvisits cancel hcancel).imp_right fun h => h.mono (Nat.le_refl _) hgrowsAll
    · rw [Managers.set_of_ne hne] at hcancel
      exact .inl hcancel

theorem CancelInv.setSame (inv : CancelInv all) (hsame : SameTokens (all.managers m) manager) :
    CancelInv (all.set m manager) := by
  refine inv.set ((inv.tokens m).congr hsame) hsame.grows fun cancel hcancel => ?_
  exact .inl (hsame.cancel ▸ hcancel)

/-- A manager without tokens is made. -/
theorem CancelInv.add (inv : CancelInv all) (hcount : after.count = all.count + 1)
    (hself : after.managers all.count = manager) (htokens : TokenInv manager)
    (hcancel : manager.cancel = none)
    (hother : ∀ c ≠ all.count, SameTokens (all.managers c) (after.managers c))
    (hrefused : after.refused = all.refused) (hwaiters : after.waiters = all.waiters) :
    CancelInv after := by
  refine inv.mono (by omega) ?_ ?_ ?_ ?_ ?_
  · intro c
    rcases eq_or_ne c all.count with rfl | hne
    · rw [hself]
      exact htokens
    · exact (inv.tokens c).congr (hother c hne)
  · intro c hc
    exact (hother c (Nat.ne_of_lt hc)).grows
  · intro c cancel hmem
    rcases eq_or_ne c all.count with rfl | hne
    · rw [hself, hcancel] at hmem
      cases hmem
    · exact .inl ((hother c hne).cancel ▸ hmem)
  · exact fun call hcall => .inl (hrefused ▸ hcall)
  · exact fun call hcall => .inl (hwaiters ▸ hcall)

/-! ## The steps -/

theorem CancelInv.beginCancel (inv : CancelInv all) (hlists : ListInv all)
    (hopen : (all.managers m).isClosed = false) (htaken : all.beginCancel m = some after) :
    CancelInv after := by
  rcases hlists.lists m with ⟨list, hlist⟩
  rw [hlist.beginCancel_eq, Option.some.injEq] at htaken
  subst htaken
  have hsame : ∀ c, SameTokens (all.managers c) ((all.removeChildren list).managers c) := by
    intro c
    rw [Managers.removeChildren_managers]
    split_ifs <;> exact ⟨rfl, rfl, rfl, id, rfl, rfl, rfl, rfl, rfl, rfl, rfl⟩
  have hremoved : CancelInv (all.removeChildren list) :=
    inv.congr rfl hsame (fun call => .inl) (fun call => .inl)
  have hopen : ((all.removeChildren list).managers m).isClosed = false :=
      (hsame m).closed.trans hopen
  refine hremoved.set ((hremoved.tokens m).beginCancel hopen list) ?_ ?_
  · refine ⟨fun hclosed => ?_, fun _ t => id, fun t => id, fun t => id⟩
    cases hopen.symm.trans hclosed
  · rintro cancel hcancel
    obtain rfl := Option.some.inj hcancel
    refine .inr fun child hchild => ⟨((hlist.2.2 child).mp hchild).made, .inl ?_⟩
    exact List.mem_reverse.mpr hchild

theorem sameTokens_registerChild (hopen : (all.managers p).isClosed = false) {c : ℕ}
    (hc : c ≠ all.count) : SameTokens (all.managers c) ((all.registerChild p).managers c) := by
  rw [Managers.registerChild_of_ne hopen c hc]
  rcases eq_or_ne c p with rfl | hne
  · refine ⟨rfl, rfl, ?_, ?_, ?_, rfl, rfl, rfl, rfl, rfl, rfl⟩
    · simp [CancellationManager.callbacks]
    · simp
    · simp [CancellationManager.isNotified]
  · simp only [if_neg hne]
    exact ⟨rfl, rfl, rfl, id, rfl, rfl, rfl, rfl, rfl, rfl, rfl⟩

theorem sameTokens_unlink (c : ℕ) :
    SameTokens (all.managers c) ((all.unlink p m).managers c) := by
  rw [Managers.unlink_managers]
  by_cases hhead : c = p ∧ (all.managers m).prevSibling = none
  · simp only [if_pos hhead]
    refine ⟨rfl, rfl, ?_, Option.map_eq_none_iff.mp, ?_, rfl, rfl, rfl, rfl, rfl, rfl⟩
    · cases hstate : (all.managers c).state <;> simp [CancellationManager.callbacks, hstate]
    · cases hstate : (all.managers c).state <;> simp [CancellationManager.isNotified, hstate]
  · simp only [if_neg hhead]
    exact ⟨rfl, rfl, rfl, id, rfl, rfl, rfl, rfl, rfl, rfl, rfl⟩

section

variable (inv : CancelInv all)

include inv

theorem CancelInv.deregisterChild : CancelInv (all.deregisterChild p m) := by
  rw [Managers.deregisterChild]
  by_cases hnull : all.ReadsState p m ∧ (all.managers p).state = none
  · rw [if_pos hnull]
    exact inv.congr rfl (fun c => .refl _) (fun call => .inl) (fun call => .inl)
  · rw [if_neg hnull]
    have hunlinked : CancelInv
        (if (all.managers m).isRemovedFromParent then all else all.unlink p m) := by
      split_ifs
      · exact inv
      · exact inv.congr rfl sameTokens_unlink (fun call => .inl) (fun call => .inl)
    exact hunlinked.setSame ⟨rfl, rfl, rfl, id, rfl, rfl, rfl, rfl, rfl, rfl, rfl⟩

theorem CancelInv.registerChild : CancelInv (all.registerChild p) := by
  cases hclosed : (all.managers p).isClosed with
  | true =>
      have hself : (all.registerChild p).managers all.count =
          { CancellationManager.construct (some p) with
            isCancelled := true, isRemovedFromParent := true } := by
        simp [Managers.registerChild, hclosed]
      have hother : ∀ c ≠ all.count, (all.registerChild p).managers c = all.managers c := by
        intro c hc
        simp [Managers.registerChild, hclosed, hc]
      refine inv.add ?_ hself (tokenInv_construct rfl rfl rfl rfl rfl rfl) rfl ?_ ?_ ?_
      · simp [Managers.registerChild, hclosed]
      · intro c hc
        rw [hother c hc]
        exact .refl _
      · simp [Managers.registerChild, hclosed]
      · simp [Managers.registerChild, hclosed]
  | false =>
      have hself : (all.registerChild p).managers all.count =
          { CancellationManager.construct (some p) with
            nextSibling := (all.managers p).firstChild } := by
        simp [Managers.registerChild, hclosed]
      refine inv.add ?_ hself (tokenInv_construct rfl rfl rfl rfl rfl rfl) rfl ?_ ?_ ?_
      · simp [Managers.registerChild, hclosed]
      · exact fun c hc => sameTokens_registerChild hclosed hc
      · simp [Managers.registerChild, hclosed]
      · simp [Managers.registerChild, hclosed]

theorem CancelInv.startCancel (hlists : ListInv all) (htaken : all.startCancel m = some after) :
    CancelInv after := by
  rw [Managers.startCancel] at htaken
  split_ifs at htaken with hclosed
  · obtain rfl := Option.some.inj htaken
    exact inv
  · exact inv.beginCancel hlists (Bool.not_eq_true _ ▸ hclosed) htaken

theorem CancelInv.nextChild (hlists : ListInv all)
    (hcancel : (all.managers m).cancel = some cancel)
    (htaken : all.stepCancel m cancel (.nextChild m) = some after) : CancelInv after := by
  rcases Option.ite_none_right_eq_some.mp htaken with ⟨⟨hstage, -, -, hidle⟩, htaken⟩
  have hvisits := inv.visits m cancel hcancel
  cases hchildren : cancel.childrenToCancel with
  | nil =>
      rw [hchildren] at htaken
      cases htaken
  | cons child children =>
      rw [hchildren] at htaken
      rcases Option.ite_none_left_eq_some.mp htaken with ⟨-, htaken⟩
      -- Whichever way it goes on, the other children are visited as before.
      have hset : ∀ inChild, (inChild = some child ∨ (all.managers child).isClosed = true) →
          CancelInv (all.set m { all.managers m with
            cancel := some { cancel with childrenToCancel := children, inChild := inChild } }) := by
        intro inChild hfate
        refine inv.set ((inv.tokens m).setChildren hcancel hstage children inChild)
          ⟨id, fun _ _ => id, fun _ => id, fun _ => id⟩ ?_
        intro after hafter
        obtain rfl := Option.some.inj hafter
        refine .inr fun other hother => ⟨(hvisits other hother).1, ?_⟩
        rcases (hvisits other hother).2 with hleft | hwaits | hclosed
        · rw [hchildren] at hleft
          rcases List.mem_cons.mp hleft with rfl | hleft
          · exact .inr hfate
          · exact .inl hleft
        · cases hidle.symm.trans hwaits
        · exact .inr (.inr hclosed)
      by_cases hclosed : (all.managers child).isClosed = true
      · rw [if_pos hclosed] at htaken
        obtain rfl := Option.some.inj htaken
        exact hset cancel.inChild (.inr hclosed)
      · rw [if_neg hclosed] at htaken
        refine (hset (some child) (.inl rfl)).beginCancel ?_ ?_ htaken
        · exact hlists.set ⟨rfl, rfl, rfl, rfl, rfl, fun _ _ => id⟩
        · rw [Bool.not_eq_true] at hclosed
          rcases eq_or_ne child m with rfl | hne
          · rw [Managers.set_self]
            exact hclosed
          · rw [Managers.set_of_ne hne]
            exact hclosed

theorem CancelInv.stepCancel (hlists : ListInv all)
    (hcancel : (all.managers m).cancel = some cancel) {action : Action}
    (htaken : all.stepCancel m cancel action = some after) : CancelInv after := by
  have htokens := inv.tokens m
  have hvisits := inv.visits m cancel hcancel
  cases action with
  | startCallback _ token =>
      rcases Option.ite_none_right_eq_some.mp htaken with ⟨⟨hstage, hidle, hmem⟩, ⟨⟩⟩
      refine inv.set (htokens.startCallback hcancel hstage hidle hmem)
        ⟨id, fun _ _ => id, fun _ => id, fun _ => id⟩ fun after hafter => .inr ?_
      obtain rfl := Option.some.inj hafter
      exact hvisits
  | finishCallback _ =>
      rcases Option.map_eq_some_iff.mp htaken with ⟨token, hrunning, rfl⟩
      refine inv.set (htokens.finishCallback hcancel hrunning)
        ⟨id, fun _ _ => id, fun _ => id, fun t => List.mem_cons_of_mem token⟩
        fun after hafter => .inr ?_
      obtain rfl := Option.some.inj hafter
      exact hvisits
  | nextChild _ => exact inv.nextChild hlists hcancel htaken
  | childReturned _ =>
      rcases Option.bind_eq_some_iff.mp htaken with ⟨child, hchild, htaken⟩
      rcases Option.ite_none_right_eq_some.mp htaken with ⟨hreturned, ⟨⟩⟩
      have hprogress := htokens.progress cancel hcancel
      have hstage : cancel.stage = .running := by
        by_contra hover
        cases (hprogress.settled hover).2.2.2.symm.trans hchild
      have hclosed := (inv.tokens child).closed_of_returned hreturned
      refine inv.set (htokens.setChildren hcancel hstage cancel.childrenToCancel none)
        ⟨id, fun _ _ => id, fun _ => id, fun _ => id⟩ fun after hafter => .inr ?_
      obtain rfl := Option.some.inj hafter
      intro other hother
      refine ⟨(hvisits other hother).1, ?_⟩
      rcases (hvisits other hother).2 with hleft | hwaits | hother
      · exact .inl hleft
      · obtain rfl := Option.some.inj (hwaits.symm.trans hchild)
        exact .inr (.inr hclosed)
      · exact .inr (.inr hother)
  | complete _ =>
      rcases Option.ite_none_right_eq_some.mp htaken with ⟨hdone, ⟨⟩⟩
      refine inv.set (htokens.complete hcancel hdone)
        ⟨fun _ => rfl, fun _ _ => id, fun _ => id, fun _ => id⟩ fun after hafter => .inr ?_
      obtain rfl := Option.some.inj hafter
      exact hvisits
  | notify _ =>
      rcases Option.ite_none_right_eq_some.mp htaken with ⟨hstage, ⟨⟩⟩
      refine inv.set (htokens.notify hcancel hstage)
        ⟨id, fun _ _ => id, fun _ => id, fun _ => id⟩ fun after hafter => .inr ?_
      obtain rfl := Option.some.inj hafter
      exact hvisits
  | _ => cases htaken

theorem CancelInv.setLife (life : Life) :
    CancelInv (all.set m { all.managers m with life := life }) :=
  inv.setSame ⟨rfl, rfl, rfl, id, rfl, rfl, rfl, rfl, rfl, rfl, rfl⟩

/-- What the destructor does after it has left the list of the parent. -/
theorem CancelInv.stepDestructor (hlists : ListInv all) {action : Action}
    (htaken : all.stepDestructor m action = some after) : CancelInv after := by
  cases action with
  | leave _ =>
      rcases Option.ite_none_right_eq_some.mp htaken with ⟨-, ⟨⟩⟩
      exact inv.setLife .left
  | lastCancel _ =>
      rcases Option.ite_none_right_eq_some.mp htaken with ⟨hlife, htaken⟩
      by_cases hfree : (all.managers m).state = none ∨ (all.managers m).isClosed = true
      · rw [if_pos hfree] at htaken
        obtain rfl := Option.some.inj htaken
        exact inv.setLife .freed
      · rw [if_neg hfree] at htaken
        rw [not_or, Bool.not_eq_true] at hfree
        refine (inv.setLife .cancelling).beginCancel ?_ ?_ htaken
        · exact hlists.setLife .cancelling (.inr (.inr (by simp [hlife])))
        · rw [Managers.set_self]
          exact hfree.2
  | free _ =>
      rcases Option.ite_none_right_eq_some.mp htaken with ⟨-, ⟨⟩⟩
      exact inv.setLife .freed
  | _ => cases htaken

end

theorem grows_registerCallback : Grows manager (manager.registerCallback token) := by
  rw [CancellationManager.registerCallback]
  split_ifs with hclosed
  · exact ⟨id, fun _ _ => id, fun _ => id, fun _ => id⟩
  · exact ⟨id, fun h => absurd h hclosed, fun _ => id, fun _ => id⟩

theorem CancelInv.eraseCallback (inv : CancelInv all) (hopen : (all.managers m).isClosed = false) :
    CancelInv (all.set m ((all.managers m).eraseCallback token)) := by
  refine inv.set ((inv.tokens m).eraseCallback hopen) ?_ fun cancel => .inl
  refine ⟨id, fun _ _ => id, fun t ht => ?_, fun _ => id⟩
  rw [CancellationManager.eraseCallback]
  split_ifs
  · exact List.mem_cons_of_mem token ht
  · exact ht

/-- A deregistration returns false when all callbacks have finished, or when there are none. -/
theorem CancelInv.deregisterCallback (inv : CancelInv all) (hm : m < all.count) :
    CancelInv (all.deregisterCallback m token) := by
  have hrefl : ∀ c, SameTokens (all.managers c) (all.managers c) := fun c => .refl _
  have hrefuse : Refused all m token →
      CancelInv { all with refused := (m, token) :: all.refused } := by
    intro hrefused
    refine inv.congr rfl hrefl ?_ fun call => .inl
    intro call hcall
    rcases List.mem_cons.mp hcall with rfl | hold
    · exact .inr hrefused
    · exact .inl hold
  rw [Managers.deregisterCallback]
  by_cases hcancelled : (all.managers m).isCancelled = true
  · rw [if_pos hcancelled]
    refine hrefuse ⟨hm, ?_, (inv.tokens m).finished_of_cancelled hcancelled⟩
    simp [CancellationManager.isClosed, hcancelled]
  · rw [if_neg hcancelled]
    by_cases hcancelling : (all.managers m).isCancelling = true
    · rw [if_pos hcancelling]
      by_cases hstate : (all.managers m).state.isSome = true
      · rw [if_pos hstate]
        refine inv.congr rfl hrefl (fun call => .inl) ?_
        intro call hcall
        rcases List.mem_cons.mp hcall with rfl | hold
        · exact .inr hm
        · exact .inl hold
      · rw [if_neg hstate]
        refine hrefuse ⟨hm, ?_, fun ht => ?_⟩
        · simp [CancellationManager.isClosed, hcancelling]
        · rw [(inv.tokens m).stateless (Option.not_isSome_iff_eq_none.mp hstate)] at ht
          cases ht
    · rw [if_neg hcancelling]
      apply inv.eraseCallback
      simp [CancellationManager.isClosed, hcancelled, hcancelling]

/-- **One step.** -/
theorem CancelInv.step (inv : CancelInv all) (hlists : ListInv all) {action : Action}
    (htaken : all.step action = some after) : CancelInv after := by
  cases action with
  | newRoot =>
      obtain rfl := Option.some.inj htaken
      refine inv.add rfl (Function.update_self ..) (tokenInv_construct rfl rfl rfl rfl rfl rfl) rfl
        (fun c hc => ?_) rfl rfl
      show SameTokens _ (Function.update all.managers all.count _ c)
      rw [Function.update_of_ne hc]
      exact .refl _
  | newChild p =>
      rcases Option.ite_none_right_eq_some.mp htaken with ⟨-, ⟨⟩⟩
      exact inv.registerChild
  | getCancellationToken m =>
      rcases Option.ite_none_right_eq_some.mp htaken with ⟨-, ⟨⟩⟩
      exact inv.setSame ⟨rfl, rfl, rfl, id, rfl, rfl, rfl, rfl, rfl, rfl, rfl⟩
  | registerCallback m token =>
      rcases Option.ite_none_right_eq_some.mp htaken with ⟨⟨-, -, hfresh⟩, ⟨⟩⟩
      refine inv.set ((inv.tokens m).registerCallback hfresh) grows_registerCallback ?_
      rw [CancellationManager.registerCallback]
      split_ifs <;> exact fun cancel => .inl
  | deregisterCallback m token =>
      rcases Option.ite_none_right_eq_some.mp htaken with ⟨husable, ⟨⟩⟩
      exact inv.deregisterCallback husable.1
  | tryDeregisterCallback m token =>
      rcases Option.ite_none_right_eq_some.mp htaken with ⟨-, ⟨⟩⟩
      rw [Managers.tryDeregisterCallback]
      split_ifs with hclosed
      · exact inv
      · exact inv.eraseCallback (Bool.not_eq_true _ ▸ hclosed)
  | wake index =>
      rcases Option.bind_eq_some_iff.mp htaken with ⟨waiter, hwaiter, htaken⟩
      rcases Option.ite_none_right_eq_some.mp htaken with ⟨hnotified, ⟨⟩⟩
      have hcancelled := (inv.tokens waiter.1).notified hnotified
      have hwaits := inv.waiters waiter (List.mem_of_getElem? hwaiter)
      refine inv.congr rfl (fun c => .refl _) ?_ ?_
      · intro call hcall
        rcases List.mem_cons.mp hcall with rfl | hold
        · refine .inr ⟨hwaits, ?_, (inv.tokens call.1).finished_of_cancelled hcancelled⟩
          simp [CancellationManager.isClosed, hcancelled]
        · exact .inl hold
      · exact fun call hcall => .inl (List.mem_of_mem_eraseIdx hcall)
  | startCancel m =>
      rcases Option.ite_none_right_eq_some.mp htaken with ⟨-, htaken⟩
      exact inv.startCancel hlists htaken
  | destroy m =>
      rcases Option.ite_none_right_eq_some.mp htaken with ⟨-, htaken⟩
      cases hparent : (all.managers m).parent with
      | none =>
          rw [hparent] at htaken
          obtain rfl := Option.some.inj htaken
          exact inv.setLife .left
      | some p =>
          rw [hparent] at htaken
          obtain rfl := Option.some.inj htaken
          exact inv.deregisterChild
  | leave m =>
      exact inv.stepDestructor hlists (Option.ite_none_right_eq_some.mp htaken).2
  | lastCancel m =>
      exact inv.stepDestructor hlists (Option.ite_none_right_eq_some.mp htaken).2
  | free m =>
      exact inv.stepDestructor hlists (Option.ite_none_right_eq_some.mp htaken).2
  | startCallback m token =>
      rcases Option.bind_eq_some_iff.mp htaken with ⟨cancel, hcancel, htaken⟩
      exact inv.stepCancel hlists hcancel htaken
  | finishCallback m =>
      rcases Option.bind_eq_some_iff.mp htaken with ⟨cancel, hcancel, htaken⟩
      exact inv.stepCancel hlists hcancel htaken
  | nextChild m =>
      rcases Option.bind_eq_some_iff.mp htaken with ⟨cancel, hcancel, htaken⟩
      exact inv.stepCancel hlists hcancel htaken
  | childReturned m =>
      rcases Option.bind_eq_some_iff.mp htaken with ⟨cancel, hcancel, htaken⟩
      exact inv.stepCancel hlists hcancel htaken
  | complete m =>
      rcases Option.bind_eq_some_iff.mp htaken with ⟨cancel, hcancel, htaken⟩
      exact inv.stepCancel hlists hcancel htaken
  | notify m =>
      rcases Option.bind_eq_some_iff.mp htaken with ⟨cancel, hcancel, htaken⟩
      exact inv.stepCancel hlists hcancel htaken

theorem cancelInv_init : CancelInv cancellation.init := by
  refine ⟨fun m => tokenInv_construct rfl rfl rfl rfl rfl rfl, ?_, ?_, ?_⟩
  · intro m cancel hcancel
    cases hcancel
  · intro call hcall
    cases hcall
  · intro call hcall
    cases hcall

theorem cancelInv_of_reaches {guard : Managers → Action → Prop}
    (hreached : cancellation.Reaches guard all) : CancelInv all := by
  refine hreached.invariant (P := CancelInv) cancelInv_init ?_
  intro source action target hsource inv _ htaken
  exact inv.step (listInv_of_reaches hsource) (Option.ite_none_left_eq_some.mp htaken).2

end AllManagers

/-! ## What the callers may rely on -/

/-- What a manager promises about its callbacks, and about the children its cancellation finds. -/
structure KeepsPromises (all : Managers) (m : ℕ) : Prop where
  once : (all.managers m).started.Nodup
  accepted : ∀ t ∈ (all.managers m).started, t ∈ (all.managers m).registered
  never : ∀ t ∈ (all.managers m).deregistered, t ∉ (all.managers m).started
  refused : ∀ t, (m, t) ∈ all.refused → t ∈ (all.managers m).registered →
    t ∉ (all.managers m).deregistered → t ∈ (all.managers m).finished
  returned : ∀ cancel ∈ (all.managers m).cancel, cancel.stage = .returned →
    (∀ t ∈ cancel.taken, t ∈ (all.managers m).finished) ∧
      ∀ child ∈ cancel.linked,
        (all.managers child).isCancelled = true ∨ (all.managers child).isCancelling = true

/-- **The promises are kept** in every state of every run. A child that was linked is cancelled when
the cancellation of its parent has returned, unless another call is still cancelling it. -/
theorem keepsPromises_of_reaches {all : Managers}
    (hreached : cancellation.Reaches Machine.Unguarded all) (m : ℕ) : KeepsPromises all m := by
  have inv := cancelInv_of_reaches hreached
  have htokens := inv.tokens m
  have hheld : ∀ t ∈ (all.managers m).started,
      t ∈ (all.managers m).registered ∧ t ∉ (all.managers m).deregistered := by
    intro t ht
    exact (htokens.mem_held t).mp (List.mem_append_left _ ht)
  constructor
  · exact (List.nodup_append.mp htokens.nodup).1
  · exact fun t ht => (hheld t ht).1
  · exact fun t hdropped ht => (hheld t ht).2 hdropped
  · intro t hcall ht hkept
    exact ((inv.refused (m, t) hcall).finished ht).resolve_left hkept
  · intro cancel hcancel hreturned
    have hprogress := htokens.progress cancel hcancel
    have hstage : cancel.stage ≠ .running := by simp [hreturned]
    rcases hprogress.settled hstage with ⟨hnone, hidle, hchildren, hwaits⟩
    constructor
    · intro t ht
      have hstarted : t ∈ (all.managers m).started := by
        simpa [hnone] using hprogress.taken t ht
      simpa [hidle] using hprogress.finished t hstarted
    · intro child hchild
      have hclosed : (all.managers child).isClosed = true := by
        simpa [hchildren, hwaits] using (inv.visits m cancel hcancel child hchild).2
      exact Bool.or_eq_true_iff.mp hclosed

/-- A callback runs in the cancellation of a parent, then the child is cancelled. A deregistration
waits for both. -/
theorem keepsPromises_of_wait : ∃ all, all.refused = [(0, 0)] ∧ (all.managers 0).finished = [0] ∧
    KeepsPromises all 0 := by
  have hrun : ∃ all, cancellation.Reaches Machine.Unguarded all ∧
      decide (all.refused = [(0, 0)] ∧ (all.managers 0).finished = [0]) = true :=
    Machine.exists_reaches_unguarded
      [.newRoot, .newChild 0, .getCancellationToken 0, .registerCallback 0 0, .startCancel 0,
        .deregisterCallback 0 0, .startCallback 0 0, .finishCallback 0, .nextChild 0, .complete 1,
        .notify 1, .childReturned 0, .complete 0, .notify 0, .wake 0] (by decide)
  rcases hrun with ⟨all, hreached, hend⟩
  rcases of_decide_eq_true hend with ⟨hrefused, hfinished⟩
  exact ⟨all, hrefused, hfinished, keepsPromises_of_reaches hreached 0⟩

/-- The cancellation of a manager returns while another call still cancels the child it has found,
and a callback that was deregistered is refused without having run. -/
theorem returns_before_child : ∃ all, cancellation.Reaches Machine.Unguarded all ∧
    ((all.managers 0).cancel.any fun cancel =>
      decide (cancel.stage = .returned ∧ 1 ∈ cancel.linked)) = true ∧
    (all.managers 1).isCancelled = false ∧
    (0, 0) ∈ all.refused ∧ 0 ∈ (all.managers 0).registered ∧ (all.managers 0).finished = [] := by
  have hrun : ∃ all, cancellation.Reaches Machine.Unguarded all ∧
      decide (((all.managers 0).cancel.any fun cancel =>
          decide (cancel.stage = .returned ∧ 1 ∈ cancel.linked)) = true ∧
        (all.managers 1).isCancelled = false ∧
        (0, 0) ∈ all.refused ∧ 0 ∈ (all.managers 0).registered ∧
        (all.managers 0).finished = []) = true :=
    Machine.exists_reaches_unguarded
      [.newRoot, .newChild 0, .getCancellationToken 0, .registerCallback 0 0,
        .tryDeregisterCallback 0 0, .startCancel 1, .startCancel 0, .nextChild 0, .complete 0,
        .notify 0, .deregisterCallback 0 0] (by decide)
  rcases hrun with ⟨all, hreached, hend⟩
  exact ⟨all, hreached, of_decide_eq_true hend⟩

end ContainerScheduler.Analysis
