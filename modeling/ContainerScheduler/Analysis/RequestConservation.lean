/-
# Where the requests go in a pass

Every request that is queued before a pass of the attention thread is in exactly
one place after it: attended, discarded, new or pending. Each loop of the pass is
described by the requests it tried, in service order, and by how it split them.

Nothing is said to hold of the pending queues before the pass. A request that
was tried and not served goes back to the queue of its priority; one that was not
tried stays where it is.
-/

import ContainerScheduler.Analysis.QueueSteps

namespace ContainerScheduler.Analysis

open Host Math

/-- The new requests of a scheduler, in service order. -/
def newIn (scheduler : Scheduler) : List Request := scheduler.schedulerContainer.newRequests

/-- The pending requests of a scheduler, in service order. -/
def pendingIn (scheduler : Scheduler) : List Request :=
  scheduler.schedulerContainer.pendingRequests

/-- The pending queue of a scheduler at a position. -/
def pendingAt (scheduler : Scheduler) (position : ℕ) : List Request :=
  scheduler.schedulerContainer.pendingQueue position

/-- The requests of a list whose priority selects a position. -/
def homedAt (scheduler : Scheduler) (position : ℕ) (requests : List Request) : List Request :=
  requests.filter (scheduler.schedulerContainer.home · = some position)

theorem homedAt_congr {before after : Scheduler} (hsame : SameProgram before after)
    (position : ℕ) (requests : List Request) :
    homedAt after position requests = homedAt before position requests := by
  have hhome : after.schedulerContainer.home = before.schedulerContainer.home := by
    funext request
    simp only [SchedulingPolicy.home]
    rw [hsame.policyClass]
  rw [homedAt, homedAt, hhome]

theorem homedAt_cons (scheduler : Scheduler) (position : ℕ) (request : Request)
    (requests : List Request) : homedAt scheduler position (request :: requests) =
      homedAt scheduler position [request] ++ homedAt scheduler position requests := by
  rw [homedAt, homedAt, homedAt, ← List.filter_append]
  rfl

theorem pendingAt_eq_nil {scheduler : Scheduler} (hnone : pendingIn scheduler = [])
    (position : ℕ) : pendingAt scheduler position = [] :=
  List.sublist_nil.mp (hnone ▸
    scheduler.schedulerContainer.queuePendingArray.queueAt_sublist_stored position)

/-! ## Serving one new request -/

/-- A served request leaves the queues alone. -/
theorem sameSetting_of_served {scheduler after : Scheduler} {request : Request} {port state : ℕ}
    {env : RequestEnv}
    (hserved : serveNew scheduler request port env = .returned (state + 1) after) :
    SameSetting scheduler after := by
  by_cases hpause : ∃ requestId, request = .pause requestId
  · obtain ⟨requestId, rfl⟩ := hpause
    obtain ⟨-, rfl⟩ := Answer.returned.inj hserved
    rw [scheduleResources_eq]
    exact (sameSetting_pausedBy _ _).trans (sameSetting_charge _ _)
  · have hattempt := attempt_sameSetting scheduler request port env
    rw [serveNew_eq fun requestId heq => hpause ⟨requestId, heq⟩] at hserved
    split at hserved
    · split at hserved <;> cases hserved
    · rw [hserved] at hattempt
      exact hattempt

/-- A request that was not served is no `Pause`, and is dropped or postponed. -/
theorem cases_of_refused {scheduler after : Scheduler} {request : Request} {port : ℕ}
    {env : RequestEnv} (hrefused : serveNew scheduler request port env = .returned 0 after) :
    (∀ requestId, request ≠ .pause requestId) ∧
      ((exceedsMachine scheduler request = true ∧ SameSetting scheduler after) ∨
        (exceedsMachine scheduler request = false ∧ ∃ served kept amount,
          SameSetting scheduler served ∧ postpone served request = some kept ∧
            after = kept.freeResources amount)) := by
  have hpause : ∀ requestId, request ≠ .pause requestId := by
    rintro requestId rfl
    cases hrefused
  have hattempt := attempt_sameSetting scheduler request port env
  refine ⟨hpause, ?_⟩
  rw [serveNew_eq hpause] at hrefused
  split at hrefused
  next served hserved =>
      rw [hserved] at hattempt
      have hsame : SameSetting scheduler served := hattempt
      split at hrefused
      · cases hrefused
      next kept hkept =>
          obtain ⟨-, rfl⟩ := Answer.returned.inj hrefused
          obtain ⟨hexceeds, rfl⟩ | ⟨hfits, hpostponed⟩ := keepOrDiscard_cases hkept
          · exact .inl ⟨exceedsMachine_congr hsame request ▸ hexceeds,
              hsame.trans (sameSetting_freeResources _ _)⟩
          · exact .inr ⟨exceedsMachine_congr hsame request ▸ hfits, served, kept, _, hsame,
              hpostponed, rfl⟩
  next answer hnot => exact absurd hrefused (hnot after)

theorem chargesCores_of_exceedsMachine {scheduler : Scheduler} {request : Request}
    (hexceeds : exceedsMachine scheduler request = true)
    (hpause : ∀ requestId, request ≠ .pause requestId) :
    ChargesCores request ∧ scheduler.systemInfo.totalCores < request.totalParallelism := by
  cases request with
  | resume requestId => cases hexceeds
  | pause requestId => exact absurd rfl (hpause requestId)
  | _ => exact ⟨trivial, by simpa [exceedsMachine] using hexceeds⟩

theorem pendingAt_postpone {scheduler kept : Scheduler} {request : Request}
    (hkept : postpone scheduler request = some kept) (position : ℕ) :
    pendingAt kept position =
      pendingAt scheduler position ++ homedAt scheduler position [request] := by
  obtain ⟨policy, hpolicy, rfl⟩ := postpone_eq_some.mp hkept
  exact SchedulingPolicy.pendingQueue_of_addPendingQueueRequest hpolicy position

/-! ## The pending loop -/

/-- How the pending loop splits the requests it tried: attended ones, and ones
kept in their order. -/
structure PendingTried (before after : PassState) (attended kept : List Request) : Prop where
  attended_eq : after.attended = before.attended ++ attended
  discarded_eq : after.discarded = before.discarded
  new_eq : newIn after.scheduler = newIn before.scheduler
  sameProgram : SameProgram before.scheduler after.scheduler
  tried : ∃ tried, pendingIn before.scheduler = tried ++ pendingIn after.scheduler ∧
    tried.Perm (attended ++ kept) ∧ kept.Sublist tried

theorem pendingLoop_tried {envs : ℕ → RequestEnv} {rounds : ℕ} {before after : PassState}
    {qAux back : List Request} (hloop : pendingLoop envs rounds before qAux = some (after, back)) :
    ∃ attended kept, back = qAux ++ kept ∧ PendingTried before after attended kept ∧
      ((pendingIn before.scheduler).length ≤ rounds → pendingIn after.scheduler = []) := by
  induction rounds generalizing before qAux with
  | zero =>
      obtain ⟨rfl, rfl⟩ := Prod.mk.inj (Option.some.inj hloop)
      refine ⟨[], [], by simp, ⟨by simp, rfl, rfl, ⟨rfl, rfl, rfl⟩, [], rfl, .refl _, .refl _⟩, ?_⟩
      exact fun hshort => List.length_eq_zero_iff.mp (Nat.le_zero.mp hshort)
  | succ rounds ih =>
      rw [pendingLoop] at hloop
      split at hloop
      next hnone =>
          obtain ⟨rfl, rfl⟩ := Prod.mk.inj (Option.some.inj hloop)
          refine ⟨[], [], by simp,
            ⟨by simp, rfl, rfl, ⟨rfl, rfl, rfl⟩, [], rfl, .refl _, .refl _⟩, fun _ => ?_⟩
          exact SchedulingPolicy.getPendingRequest_eq_none.mp hnone
      next request policy hget =>
          obtain ⟨hnew, hpending⟩ := SchedulingPolicy.queued_of_getPendingRequest hget
          have hprogram := sameProgram_getPendingRequest hget
          have hattend := attend_sameSetting (before.scheduler.withPolicy policy) request
            before.portHost (envs before.calls)
          have hserve : ∀ served, SameSetting (before.scheduler.withPolicy policy) served →
              newIn served = newIn before.scheduler ∧
              pendingIn before.scheduler = request :: pendingIn served ∧
              SameProgram before.scheduler served := by
            intro served hsame
            refine ⟨?_, ?_, hprogram.trans (.of_sameSetting hsame)⟩
            · rw [newIn, hsame.schedulerContainer]
              exact hnew
            · simp only [pendingIn, hsame.schedulerContainer]
              exact hpending
          split at hloop
          next served hanswer =>
              rw [hanswer] at hattend
              obtain ⟨hnewServed, hfirst, hsame⟩ := hserve served hattend
              obtain ⟨attended, kept, rfl, htried, hempty⟩ := ih hloop
              obtain ⟨tried, hsplit, hperm, hsublist⟩ := htried.tried
              refine ⟨attended, request :: kept, by simp, ⟨htried.attended_eq,
                htried.discarded_eq, htried.new_eq.trans hnewServed,
                hsame.trans htried.sameProgram, request :: tried, ?_, ?_, hsublist.cons_cons _⟩, ?_⟩
              · rw [hfirst, hsplit, List.cons_append]
              · exact (hperm.cons request).trans List.perm_middle.symm
              · intro hlength
                rw [hfirst, List.length_cons] at hlength
                exact hempty (Nat.le_of_succ_le_succ hlength)
          next state served hstate hanswer =>
              rw [hanswer] at hattend
              obtain ⟨hnewServed, hfirst, hsame⟩ := hserve served hattend
              obtain ⟨attended, kept, rfl, htried, hempty⟩ := ih hloop
              obtain ⟨tried, hsplit, hperm, hsublist⟩ := htried.tried
              refine ⟨request :: attended, kept, rfl, ⟨?_, htried.discarded_eq,
                htried.new_eq.trans hnewServed, hsame.trans htried.sameProgram,
                request :: tried, ?_, hperm.cons request, hsublist.cons _⟩, ?_⟩
              · rw [htried.attended_eq, List.append_assoc, List.singleton_append]
              · rw [hfirst, hsplit, List.cons_append]
              · intro hlength
                rw [hfirst, List.length_cons] at hlength
                exact hempty (Nat.le_of_succ_le_succ hlength)
          · cases hloop

/-- Putting requests back adds each to the queue of its priority, in order. -/
theorem restorePending_spec {before after : Scheduler} {requests : List Request}
    (hrestore : restorePending before requests = some after) :
    newIn after = newIn before ∧ SameProgram before after ∧
      (pendingIn after).Perm (pendingIn before ++ requests) ∧
      ∀ position, pendingAt after position =
        pendingAt before position ++ homedAt before position requests := by
  induction requests generalizing before with
  | nil =>
      obtain rfl := Option.some.inj hrestore
      exact ⟨rfl, ⟨rfl, rfl, rfl⟩, by simp, by simp [homedAt]⟩
  | cons request requests ih =>
      rw [restorePending, List.foldlM_cons] at hrestore
      obtain ⟨middle, hpostponed, hrest⟩ := Option.bind_eq_some_iff.mp hrestore
      obtain ⟨hnew, hprogram, hperm, hqueues⟩ := ih hrest
      obtain ⟨hnewMiddle, hpermMiddle⟩ := pendingRequests_postpone hpostponed
      have hsame := sameProgram_postpone hpostponed
      refine ⟨hnew.trans hnewMiddle, hsame.trans hprogram, ?_, fun position => ?_⟩
      · exact (hperm.trans (hpermMiddle.append_right requests)).trans List.perm_middle.symm
      · rw [hqueues position, pendingAt_postpone hpostponed, homedAt_congr hsame,
          List.append_assoc, ← homedAt_cons]

/-! ## The new loop -/

/-- How the new loop splits the requests it tried: attended ones, discarded ones,
and ones added to the pending queues in their order. -/
structure NewTried (before after : PassState) (attended discarded fresh : List Request) :
    Prop where
  attended_eq : after.attended = before.attended ++ attended
  discarded_eq : after.discarded = before.discarded ++ discarded
  sameProgram : SameProgram before.scheduler after.scheduler
  exceeding : ∀ request ∈ discarded, ChargesCores request ∧
    before.scheduler.systemInfo.totalCores < request.totalParallelism
  tried : ∃ tried, newIn before.scheduler = tried ++ newIn after.scheduler ∧
    tried.Perm (attended ++ discarded ++ fresh) ∧ fresh.Sublist tried
  pending : (pendingIn after.scheduler).Perm (pendingIn before.scheduler ++ fresh)
  queues : ∀ position, pendingAt after.scheduler position =
    pendingAt before.scheduler position ++ homedAt before.scheduler position fresh

theorem NewTried.refl (pass : PassState) : NewTried pass pass [] [] [] where
  attended_eq := by simp
  discarded_eq := by simp
  sameProgram := ⟨rfl, rfl, rfl⟩
  exceeding := by simp
  tried := ⟨[], rfl, .refl _, .refl _⟩
  pending := by simp
  queues := by simp [homedAt]

theorem exceedsMachine_withPolicy (scheduler : Scheduler) (policy : SchedulingPolicy)
    (request : Request) :
    exceedsMachine (scheduler.withPolicy policy) request = exceedsMachine scheduler request := rfl

/-- Two stretches of the loop make one. -/
theorem NewTried.trans {first second third : PassState}
    {attended discarded fresh attended' discarded' fresh' : List Request}
    (hfirst : NewTried first second attended discarded fresh)
    (hsecond : NewTried second third attended' discarded' fresh') :
    NewTried first third (attended ++ attended') (discarded ++ discarded') (fresh ++ fresh') where
  attended_eq := by rw [hsecond.attended_eq, hfirst.attended_eq, List.append_assoc]
  discarded_eq := by rw [hsecond.discarded_eq, hfirst.discarded_eq, List.append_assoc]
  sameProgram := hfirst.sameProgram.trans hsecond.sameProgram
  exceeding := by
    intro request hmem
    obtain hmem | hmem := List.mem_append.mp hmem
    · exact hfirst.exceeding request hmem
    · obtain ⟨hcharges, hexceeds⟩ := hsecond.exceeding request hmem
      rw [SystemInfo.totalCores, hfirst.sameProgram.cores] at hexceeds
      exact ⟨hcharges, hexceeds⟩
  tried := by
    obtain ⟨tried, hsplit, hperm, hsublist⟩ := hfirst.tried
    obtain ⟨tried', hsplit', hperm', hsublist'⟩ := hsecond.tried
    refine ⟨tried ++ tried', ?_, ?_, hsublist.append hsublist'⟩
    · rw [hsplit, hsplit', List.append_assoc]
    · refine List.perm_iff_count.mpr fun request => ?_
      have hcount := hperm.count_eq request
      have hcount' := hperm'.count_eq request
      simp only [List.count_append] at hcount hcount' ⊢
      omega
  pending := by
    refine hsecond.pending.trans ?_
    rw [← List.append_assoc]
    exact hfirst.pending.append_right fresh'
  queues := by
    intro position
    rw [hsecond.queues, hfirst.queues, homedAt_congr hfirst.sameProgram, List.append_assoc]
    simp only [homedAt, List.filter_append]

/-- Taking a request out of the new queues moves no other request. -/
structure TakenNew (before : Scheduler) (request : Request) (after : Scheduler) : Prop where
  first : newIn before = request :: newIn after
  pending : pendingIn after = pendingIn before
  queues : ∀ position, pendingAt after position = pendingAt before position
  sameProgram : SameProgram before after

theorem takenNew_of_getNewRequest {scheduler served : Scheduler} {request : Request}
    {policy : SchedulingPolicy}
    (hget : scheduler.schedulerContainer.getNewRequest = some (request, policy))
    (hsame : SameSetting (scheduler.withPolicy policy) served) :
    TakenNew scheduler request served := by
  obtain ⟨hnew, hpending⟩ := SchedulingPolicy.queued_of_getNewRequest hget
  have hprogram := sameProgram_getNewRequest hget
  have hqueues : ∀ position, pendingAt (scheduler.withPolicy policy) position =
      pendingAt scheduler position := by
    obtain ⟨array, -, rfl⟩ := SchedulingPolicy.getNewRequest_eq_some.mp hget
    exact fun _ => rfl
  refine ⟨?_, ?_, ?_, hprogram.trans (.of_sameSetting hsame)⟩
  · simp only [newIn, hsame.schedulerContainer]
    exact hnew
  · simp only [pendingIn, hsame.schedulerContainer]
    exact hpending
  · simp only [pendingAt, hsame.schedulerContainer]
    exact hqueues

/-- The pass after a round that did not serve its request. -/
def refusedRound (before : PassState) (request : Request) (served : Scheduler) : PassState :=
  { before with
    scheduler := served
    calls := before.calls + 1
    discarded := if exceedsMachine before.scheduler request then
      before.discarded ++ [request] else before.discarded }

/-- The pass after a round that served its request. -/
def servedRound (before : PassState) (request : Request) (served : Scheduler) : PassState :=
  { before with
    scheduler := served
    portHost := nextPort before.portHost request
    calls := before.calls + 1
    attended := before.attended ++ [request] }

section Round

variable {before : PassState} (after : PassState) {request : Request}
  {policy : SchedulingPolicy} {env : RequestEnv}

theorem newTried_of_served {state : ℕ}
    (hget : before.scheduler.schedulerContainer.getNewRequest = some (request, policy))
    (hserved : serveNew (before.scheduler.withPolicy policy) request before.portHost env =
      .returned (state + 1) after.scheduler)
    (hattended : after.attended = before.attended ++ [request])
    (hdiscarded : after.discarded = before.discarded) :
    newIn before.scheduler = request :: newIn after.scheduler ∧
      NewTried before after [request] [] [] := by
  have htaken := takenNew_of_getNewRequest hget (sameSetting_of_served hserved)
  exact ⟨htaken.first, {
    attended_eq := hattended
    discarded_eq := by simp [hdiscarded]
    sameProgram := htaken.sameProgram
    exceeding := by simp
    tried := ⟨[request], htaken.first, .refl _, List.nil_sublist _⟩
    pending := by simp [htaken.pending]
    queues := by simp [htaken.queues, homedAt] }⟩

/-- A round that does not serve its request discards or postpones it. -/
theorem newTried_of_refused
    (hget : before.scheduler.schedulerContainer.getNewRequest = some (request, policy))
    (hrefused : serveNew (before.scheduler.withPolicy policy) request before.portHost env =
      .returned 0 after.scheduler)
    (hattended : after.attended = before.attended)
    (hdiscarded : after.discarded = if exceedsMachine before.scheduler request then
      before.discarded ++ [request] else before.discarded) :
    newIn before.scheduler = request :: newIn after.scheduler ∧
      ∃ discarded fresh, NewTried before after [] discarded fresh := by
  obtain ⟨hpause, ⟨hexceeds, hsame⟩ | ⟨hfits, served, kept, amount, hsame, hpostponed, hafter⟩⟩ :=
    cases_of_refused hrefused
  · rw [exceedsMachine_withPolicy] at hexceeds
    rw [if_pos hexceeds] at hdiscarded
    have htaken := takenNew_of_getNewRequest hget hsame
    refine ⟨htaken.first, [request], [], {
      attended_eq := by simp [hattended]
      discarded_eq := hdiscarded
      sameProgram := htaken.sameProgram
      exceeding := fun other hmem => ?_
      tried := ⟨[request], htaken.first, .refl _, List.nil_sublist _⟩
      pending := by simp [htaken.pending]
      queues := by simp [htaken.queues, homedAt] }⟩
    obtain rfl := List.mem_singleton.mp hmem
    exact chargesCores_of_exceedsMachine hexceeds hpause
  · rw [exceedsMachine_withPolicy] at hfits
    rw [if_neg (by simp [hfits])] at hdiscarded
    have htaken := takenNew_of_getNewRequest hget hsame
    obtain ⟨hnewKept, hpendingKept⟩ := pendingRequests_postpone hpostponed
    have hsameKept := sameProgram_postpone hpostponed
    have hfirst : newIn before.scheduler = request :: newIn after.scheduler := by
      rw [hafter]
      exact htaken.first.trans (congrArg (request :: ·) hnewKept.symm)
    refine ⟨hfirst, [], [request], {
      attended_eq := by simp [hattended]
      discarded_eq := by simp [hdiscarded]
      sameProgram := ?_
      exceeding := by simp
      tried := ⟨[request], hfirst, .refl _, .refl _⟩
      pending := ?_
      queues := fun position => ?_ }⟩
    · rw [hafter]
      exact (htaken.sameProgram.trans hsameKept).trans
        (.of_sameSetting (sameSetting_freeResources _ _))
    · rw [hafter, ← htaken.pending]
      exact hpendingKept.trans (List.perm_append_singleton request _).symm
    · rw [hafter, ← htaken.queues, ← homedAt_congr htaken.sameProgram]
      exact pendingAt_postpone hpostponed position

end Round

/-- The new loop splits the requests it tried, and with enough rounds it tried
all of them. -/
theorem newLoop_tried {envs : ℕ → RequestEnv} {rounds : ℕ} {before after : PassState}
    (hloop : newLoop envs rounds before = some after) :
    ∃ attended discarded fresh, NewTried before after attended discarded fresh ∧
      ((newIn before.scheduler).length ≤ rounds → newIn after.scheduler = []) := by
  induction rounds generalizing before with
  | zero =>
      obtain rfl := Option.some.inj hloop
      exact ⟨[], [], [], .refl _, fun hshort =>
        List.length_eq_zero_iff.mp (Nat.le_zero.mp hshort)⟩
  | succ rounds ih =>
      -- one more round in front of the rest
      have hround : ∀ middle request attended discarded fresh,
          newIn before.scheduler = request :: newIn middle.scheduler →
          NewTried before middle attended discarded fresh →
          newLoop envs rounds middle = some after →
          ∃ attended discarded fresh, NewTried before after attended discarded fresh ∧
            ((newIn before.scheduler).length ≤ rounds + 1 → newIn after.scheduler = []) := by
        intro middle request attended discarded fresh hfirst htried hrest
        obtain ⟨attended', discarded', fresh', htried', hempty⟩ := ih hrest
        refine ⟨_, _, _, htried.trans htried', fun hlength => hempty ?_⟩
        rw [hfirst, List.length_cons] at hlength
        exact Nat.le_of_succ_le_succ hlength
      rw [newLoop] at hloop
      split at hloop
      next hnone =>
          obtain rfl := Option.some.inj hloop
          exact ⟨[], [], [], .refl _, fun _ => SchedulingPolicy.getNewRequest_eq_none.mp hnone⟩
      next request policy hget =>
          split at hloop
          next served hanswer =>
              obtain ⟨hfirst, discarded, fresh, htried⟩ :=
                newTried_of_refused (refusedRound before request served) hget hanswer rfl rfl
              exact hround _ request _ _ _ hfirst htried hloop
          next state served hstate hanswer =>
              obtain ⟨state, rfl⟩ := Nat.exists_eq_succ_of_ne_zero hstate
              obtain ⟨hfirst, htried⟩ :=
                newTried_of_served (servedRound before request served) hget hanswer rfl rfl
              exact hround _ request _ _ _ hfirst htried hloop
          · cases hloop

/-! ## A whole pass -/

/-- The queues are the same. -/
structure SameQueues (before after : Scheduler) : Prop where
  new_eq : newIn after = newIn before
  pending_eq : pendingIn after = pendingIn before
  pendingAt_eq : ∀ position, pendingAt after position = pendingAt before position
  sameProgram : SameProgram before after

theorem SameQueues.of_sameSetting {before after : Scheduler} (hsame : SameSetting before after) :
    SameQueues before after where
  new_eq := by rw [newIn, hsame.schedulerContainer, newIn]
  pending_eq := by rw [pendingIn, hsame.schedulerContainer, pendingIn]
  pendingAt_eq _ := by rw [pendingAt, hsame.schedulerContainer, pendingAt]
  sameProgram := .of_sameSetting hsame

theorem SameQueues.trans {first second third : Scheduler} (hfirst : SameQueues first second)
    (hsecond : SameQueues second third) : SameQueues first third where
  new_eq := hsecond.new_eq.trans hfirst.new_eq
  pending_eq := hsecond.pending_eq.trans hfirst.pending_eq
  pendingAt_eq position := (hsecond.pendingAt_eq position).trans (hfirst.pendingAt_eq position)
  sameProgram := hfirst.sameProgram.trans hsecond.sameProgram

theorem eq_ok_of_toOption {result : Except Scheduler Scheduler} {scheduler : Scheduler}
    (hsome : result.toOption = some scheduler) : result = .ok scheduler := by
  cases result with
  | error failed => cases hsome
  | ok done => exact congrArg Except.ok (Option.some.inj hsome)

/-- Freeing and measuring move no request. -/
theorem finishStage_sameQueues {scheduler finished : Scheduler}
    (hfinish : finishStage scheduler = some finished) : SameQueues scheduler finished := by
  unfold finishStage at hfinish
  split at hfinish
  · obtain rfl := Option.some.inj hfinish
    exact .of_sameSetting (.refl _)
  · have hfreed : SameQueues scheduler (freeAllFinished scheduler) :=
      ⟨rfl, rfl, fun _ => rfl, ⟨rfl, rfl, rfl⟩⟩
    exact hfreed.trans (.of_sameSetting
      (reassignFree_sameSetting (.inl (eq_ok_of_toOption hfinish))))

theorem measureStage_sameQueues {scheduler measured : Scheduler}
    (hmeasure : measureStage scheduler = some measured) : SameQueues scheduler measured := by
  obtain ⟨factor, rfl⟩ := measureStage_frame hmeasure
  exact ⟨rfl, rfl, fun _ => rfl, ⟨rfl, rfl, rfl⟩⟩

theorem closingStage_eq {before after : PassState} (hclose : closingStage before = some after) :
    SameQueues before.scheduler after.scheduler ∧ after.attended = before.attended ∧
      after.discarded = before.discarded := by
  obtain ⟨reassigned, hdone, hcheck⟩ := Option.bind_eq_some_iff.mp hclose
  split at hcheck
  · cases hcheck
  · obtain rfl := Option.some.inj hcheck
    exact ⟨.of_sameSetting (reassignFree_sameSetting (.inl (eq_ok_of_toOption hdone))), rfl, rfl⟩

/-- The stage of the pending requests: it attends some and keeps the others in
their order, each in the queue where it was or in the queue of its priority. -/
theorem pendingStage_spec {envs : ℕ → RequestEnv} {before after : PassState}
    (hstage : pendingStage envs before = some after) :
    ∃ attended, after.attended = before.attended ++ attended ∧
      after.discarded = before.discarded ∧
      newIn after.scheduler = newIn before.scheduler ∧
      SameProgram before.scheduler after.scheduler ∧
      (attended ++ pendingIn after.scheduler).Perm (pendingIn before.scheduler) ∧
      ∀ position, (pendingAt after.scheduler position).Sublist (pendingIn before.scheduler) ∧
        (pendingAt after.scheduler position = pendingAt before.scheduler position ∨
          ∀ request ∈ pendingAt after.scheduler position,
            before.scheduler.schedulerContainer.home request = some position) := by
  unfold pendingStage at hstage
  split at hstage
  · obtain ⟨⟨looped, back⟩, hloop, hrestore⟩ := Option.bind_eq_some_iff.mp hstage
    obtain ⟨restored, hrestored, rfl⟩ := Option.map_eq_some_iff.mp hrestore
    obtain ⟨attended, kept, rfl, htried, hempty⟩ := pendingLoop_tried hloop
    have hdone : pendingIn looped.scheduler = [] := hempty le_rfl
    obtain ⟨tried, hsplit, hperm, hsublist⟩ := htried.tried
    rw [hdone, List.append_nil] at hsplit
    obtain ⟨hnew, hprogram, hpending, hqueues⟩ := restorePending_spec hrestored
    rw [hdone, List.nil_append] at hpending
    have hqueue : ∀ position, pendingAt restored position =
        homedAt before.scheduler position back := fun position => by
      rw [hqueues, pendingAt_eq_nil hdone, List.nil_append,
        homedAt_congr htried.sameProgram]
    refine ⟨attended, htried.attended_eq, htried.discarded_eq, hnew.trans htried.new_eq,
      htried.sameProgram.trans hprogram, ?_, fun position => ⟨?_, .inr ?_⟩⟩
    · rw [hsplit]
      exact (hpending.append_left attended).trans hperm.symm
    · rw [hqueue, hsplit]
      exact List.filter_sublist.trans hsublist
    · intro request hmem
      rw [hqueue] at hmem
      simpa using (List.mem_filter.mp hmem).2
  · obtain rfl := Option.some.inj hstage
    refine ⟨[], by simp, rfl, rfl, ⟨rfl, rfl, rfl⟩, .refl _, fun position => ⟨?_, .inl rfl⟩⟩
    exact QueueArray.queueAt_sublist_stored _ position

theorem newStage_spec {envs : ℕ → RequestEnv} {before after : PassState}
    (hstage : newStage envs before = some after) :
    ∃ attended discarded fresh, NewTried before after attended discarded fresh := by
  unfold newStage at hstage
  split at hstage
  · obtain ⟨attended, discarded, fresh, htried, -⟩ := newLoop_tried hstage
    exact ⟨attended, discarded, fresh, htried⟩
  · obtain rfl := Option.some.inj hstage
    exact ⟨[], [], [], .refl _⟩

/-- Each pending request is in the queue of its priority. -/
def AtHome (scheduler : Scheduler) : Prop :=
  ∀ position, ∀ request ∈ pendingAt scheduler position,
    scheduler.schedulerContainer.home request = some position

/-- What a pass does to one pending queue: first those that stay, in the order in
which they were served before, then those newly made pending, in the order in
which they were new. A request that stays is where it was, or in the queue of its
priority; where all were in the queue of their priority, it is where it was. -/
def KeepsOrder (before after : Scheduler) (position : ℕ) : Prop :=
  ∃ kept fresh, pendingAt after position = kept ++ fresh ∧
    kept.Sublist (pendingIn before) ∧ fresh.Sublist (newIn before) ∧
    (kept = pendingAt before position ∨
      ∀ request ∈ kept, before.schedulerContainer.home request = some position) ∧
    (∀ request ∈ fresh, before.schedulerContainer.home request = some position) ∧
    (AtHome before → kept.Sublist (pendingAt before position))

/-- What stays at a position was there before, when all were at home. -/
theorem sublist_pendingAt_of_home {scheduler : Scheduler} {position : ℕ} {kept : List Request}
    (hhome : AtHome scheduler) (hsublist : kept.Sublist (pendingIn scheduler))
    (hkept : ∀ request ∈ kept, scheduler.schedulerContainer.home request = some position) :
    kept.Sublist (pendingAt scheduler position) := by
  have hall : kept.filter (scheduler.schedulerContainer.home · = some position) = kept :=
    List.filter_eq_self.mpr (by simpa using hkept)
  have hqueue : (pendingIn scheduler).filter
      (scheduler.schedulerContainer.home · = some position) = pendingAt scheduler position :=
    QueueArray.filter_stored_of_home hhome position
  rw [← hall, ← hqueue]
  exact hsublist.filter _

/-- **No request is lost or duplicated by a pass.** Every queued request is in
exactly one place afterwards, only requests for more cores than there are have
been discarded, and each pending queue keeps its order. -/
theorem pass_conserves_requests {envs : ℕ → RequestEnv} {portHost : ℕ} {scheduler : Scheduler}
    {pass : PassState} (hpass : attentionPass envs portHost scheduler = some pass) :
    (pass.attended ++ pass.discarded ++ newIn pass.scheduler ++ pendingIn pass.scheduler).Perm
      (newIn scheduler ++ pendingIn scheduler) ∧
    (∃ tried, newIn scheduler = tried ++ newIn pass.scheduler) ∧
    (∀ request ∈ pass.discarded, request ∈ newIn scheduler ∧ ChargesCores request ∧
      scheduler.systemInfo.totalCores < request.totalParallelism) ∧
    (∀ position, KeepsOrder scheduler pass.scheduler position) ∧
    (AtHome scheduler → AtHome pass.scheduler) := by
  obtain ⟨finished, hfinish, hpass⟩ := Option.bind_eq_some_iff.mp hpass
  obtain ⟨measured, hmeasure, hpass⟩ := Option.bind_eq_some_iff.mp hpass
  obtain ⟨tried, htried, hpass⟩ := Option.bind_eq_some_iff.mp hpass
  obtain ⟨served, hserved, hclose⟩ := Option.bind_eq_some_iff.mp hpass
  have hopen := (finishStage_sameQueues hfinish).trans (measureStage_sameQueues hmeasure)
  obtain ⟨attended, hattended, hnone, hnew, hprogram, hperm, hqueues⟩ := pendingStage_spec htried
  obtain ⟨attended', discarded, fresh, hnewTried⟩ := newStage_spec hserved
  obtain ⟨hend, hattendedEnd, hdiscardedEnd⟩ := closingStage_eq hclose
  obtain ⟨triedNew, hsplit, hpermNew, hfresh⟩ := hnewTried.tried
  rw [hnew, hopen.new_eq, ← hend.new_eq] at hsplit
  rw [hopen.pending_eq] at hperm
  have hdiscarded : pass.discarded = discarded := by
    rw [hdiscardedEnd, hnewTried.discarded_eq, hnone, List.nil_append]
  have hprogramTried : SameProgram scheduler tried.scheduler := hopen.sameProgram.trans hprogram
  have hhome : tried.scheduler.schedulerContainer.home = scheduler.schedulerContainer.home := by
    funext request
    simp only [SchedulingPolicy.home]
    rw [hprogramTried.policyClass]
  have hkeeps : ∀ position, KeepsOrder scheduler pass.scheduler position := by
    intro position
    obtain ⟨hsublist, hplace⟩ := hqueues position
    rw [hopen.pending_eq] at hsublist
    rw [hopen.pendingAt_eq] at hplace
    have hplace : pendingAt tried.scheduler position = pendingAt scheduler position ∨
        ∀ request ∈ pendingAt tried.scheduler position,
          scheduler.schedulerContainer.home request = some position := by
      refine hplace.imp_right fun hhomed request hmem => ?_
      have hmeasured := hhomed request hmem
      rw [SchedulingPolicy.home, hopen.sameProgram.policyClass] at hmeasured
      exact hmeasured
    refine ⟨pendingAt tried.scheduler position, homedAt scheduler position fresh, ?_, hsublist, ?_,
      hplace, ?_, fun hathome => ?_⟩
    · rw [hend.pendingAt_eq, hnewTried.queues, homedAt_congr hprogramTried]
    · rw [hsplit]
      exact (List.filter_sublist.trans hfresh).trans (List.sublist_append_left _ _)
    · intro request hmem
      simpa using (List.mem_filter.mp hmem).2
    · obtain hsame | hhomed := hplace
      · rw [hsame]
      · exact sublist_pendingAt_of_home hathome hsublist hhomed
  refine ⟨?_, ⟨triedNew, hsplit⟩, ?_, hkeeps, ?_⟩
  · rw [hsplit, hdiscarded, hattendedEnd, hnewTried.attended_eq, hattended, hend.pending_eq]
    refine List.perm_iff_count.mpr fun request => ?_
    have hcount := hperm.count_eq request
    have hcountNew := hpermNew.count_eq request
    have hcountPending := hnewTried.pending.count_eq request
    simp only [List.count_append, List.count_nil] at hcount hcountNew hcountPending ⊢
    omega
  · intro request hmem
    rw [hdiscarded] at hmem
    obtain ⟨hcharges, hexceeds⟩ := hnewTried.exceeding request hmem
    rw [SystemInfo.totalCores, hprogramTried.cores] at hexceeds
    refine ⟨?_, hcharges, hexceeds⟩
    rw [hsplit]
    refine List.mem_append_left _ (hpermNew.mem_iff.mpr ?_)
    exact List.mem_append_left _ (List.mem_append_right _ hmem)
  · intro hathome position request hmem
    obtain ⟨kept, freshHere, hqueue, hsublist, -, -, hfreshHome, hkept⟩ := hkeeps position
    have hclass := (hprogramTried.trans hnewTried.sameProgram).trans hend.sameProgram
    rw [SchedulingPolicy.home, hclass.policyClass]
    rw [hqueue] at hmem
    obtain hold | hfreshMem := List.mem_append.mp hmem
    · exact hathome position request ((hkept hathome).subset hold)
    · exact hfreshHome request hfreshMem

/-- Two pending and two new requests, two priorities, and eight free cores. -/
def mixedScheduler : Scheduler where
  systemInfo := ⟨8, 0⟩
  schedulerContainer :=
    { policyClass := .priority 2
      reassigmentType := .strict
      factorProp := 1
      queueArray :=
        ⟨[[.start "2" "tf" 10 10 0], [.start "3" "tf" 4 4 1]], rfl⟩
      queuePendingArray :=
        ⟨[[.start "0" "tf" 1 2 0], [.start "1" "tf" 3 3 1]], rfl⟩ }
  maxResourcesPerCont := 16
  execInfoList := []
  containerNameList := []
  qFinishContainer := []

/-- One request is attended, one discarded, one stays pending and one becomes
pending behind it. -/
theorem mixed_pass_conserves : ∃ pass : PassState,
    pass.attended = [.start "0" "tf" 1 2 0] ∧ pass.discarded = [.start "2" "tf" 10 10 0] ∧
      pendingAt pass.scheduler 1 = [.start "1" "tf" 3 3 1, .start "3" "tf" 4 4 1] ∧
      (pass.attended ++ pass.discarded ++ newIn pass.scheduler ++ pendingIn pass.scheduler).Perm
        (newIn mixedScheduler ++ pendingIn mixedScheduler) := by
  have hpass : (attentionPass (fun _ => ⟨true, false, [.connected ⟨"instance0", false⟩]⟩) 8787
      mixedScheduler).any (fun pass => decide (
        pass.attended = [.start "0" "tf" 1 2 0] ∧ pass.discarded = [.start "2" "tf" 10 10 0] ∧
        pendingAt pass.scheduler 1 = [.start "1" "tf" 3 3 1, .start "3" "tf" 4 4 1])) = true := by
    decide +kernel
  obtain ⟨pass, hpass, hend⟩ := (Option.any_eq_true _ _).mp hpass
  obtain ⟨hattended, hdiscarded, hqueue⟩ := of_decide_eq_true hend
  exact ⟨pass, hattended, hdiscarded, hqueue, (pass_conserves_requests hpass).1⟩

end ContainerScheduler.Analysis
