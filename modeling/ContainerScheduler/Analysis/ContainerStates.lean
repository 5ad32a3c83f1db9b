/-
# Containers that are neither paused nor failed

Every operation that writes a state other than `start` marks its container as
paused or failed, and every operation that takes a mark away writes `start`. The
one exception is the top-up of a `max_prop` reassignment, which writes `update` and
marks nothing. In runs whose reassignments top nothing up under `max_prop`, a
container without marks is in state `start`.
-/

import ContainerScheduler.Analysis.QueueSteps
import ContainerScheduler.Host.StateWrites

namespace ContainerScheduler.Analysis

open Host Math

/-! ## Records and marks -/

/-- A container that counts as neither paused nor failed is in state `start`. -/
def MarkedState (state : ContainerState) (marks : Marks) : Prop :=
  marks.paused = false → marks.failed = false → state = .start

/-- The records and their marks, in list order. -/
def WellMarked (infos : List ExecutionInfo) (marks : List Marks) : Prop :=
  List.Forall₂ (fun info marks => MarkedState info.state marks) infos marks

/-- The state after some writes. -/
def stateAfter (writes : List StateWrite) (state : ContainerState) : ContainerState :=
  writes.foldl (fun _ write => write.state) state

/-- The states of a list of records are given by the records they come from. -/
def StatesBy (state : ExecutionInfo → ContainerState) (infos after : List ExecutionInfo) : Prop :=
  List.Forall₂ (fun old new => new.state = state old) infos after

theorem StatesBy.refl (infos : List ExecutionInfo) : StatesBy ExecutionInfo.state infos infos :=
  List.forall₂_same.mpr fun _ _ => rfl

/-- A write that leaves a state other than `start` leaves a mark. -/
theorem markedState_after {state : ContainerState} {marks : Marks}
    (hmarked : MarkedState state marks) (writes : List StateWrite) :
    MarkedState (stateAfter writes state) (writes.foldl Marks.after marks) := by
  induction writes generalizing state marks with
  | nil => exact hmarked
  | cons write writes ih =>
      refine ih ?_
      cases write with
      | pauseContainer => exact fun hpaused _ => Bool.noConfusion hpaused
      | resumeContainer => exact fun _ _ => rfl
      | updateInfo => exact fun _ _ => rfl
      | containerFailed => exact fun _ hfailed => Bool.noConfusion hfailed

theorem wellMarked_markAll {writes : ExecutionInfo → List StateWrite}
    {infos after : List ExecutionInfo} {marks : List Marks} (hmarked : WellMarked infos marks)
    (hstates : StatesBy (fun info => stateAfter (writes info) info.state) infos after) :
    WellMarked after (markAll writes infos marks) := by
  induction hmarked generalizing after with
  | nil =>
      cases hstates
      exact .nil
  | cons hinfo hrest ih =>
      cases hstates with
      | cons hstate hothers =>
          refine .cons ?_ (ih hothers)
          rw [hstate]
          exact markedState_after hinfo _

theorem wellMarked_of_same {infos after : List ExecutionInfo} {marks : List Marks}
    (hmarked : WellMarked infos marks) (hstates : StatesBy ExecutionInfo.state infos after) :
    WellMarked after marks := by
  induction hmarked generalizing after with
  | nil =>
      cases hstates
      exact .nil
  | cons hinfo hrest ih =>
      cases hstates with
      | cons hstate hothers => exact .cons (by rwa [hstate]) (ih hothers)

/-- Dropping the first record that is met is dropping it by its position. -/
theorem eraseP_eq_eraseIdx_findIdx (drops : ExecutionInfo → Bool) (infos : List ExecutionInfo) :
    infos.eraseP drops = infos.eraseIdx (infos.findIdx drops) := by
  induction infos with
  | nil => rfl
  | cons info infos ih =>
      by_cases hdrops : drops info <;> simp [hdrops, List.findIdx_cons, ih]

/-- Dropping a record drops its marks. -/
theorem wellMarked_eraseIdx {infos : List ExecutionInfo} {marks : List Marks}
    (hmarked : WellMarked infos marks) (index : ℕ) :
    WellMarked (infos.eraseIdx index) (marks.eraseIdx index) := by
  induction hmarked generalizing index with
  | nil => exact .nil
  | cons hinfo hrest ih =>
      cases index with
      | zero => exact hrest
      | succ index => exact .cons hinfo (ih index)

/-! ## The states that serving leaves -/

theorem statesBy_mapNamed (name : String) {change : ExecutionInfo → ExecutionInfo}
    {state : ContainerState} (hchange : ∀ info, (change info).state = state)
    (infos : List ExecutionInfo) :
    StatesBy (fun info => if info.containerName = name then state else info.state) infos
      (mapNamed name change infos) := by
  refine List.forall₂_map_right_iff.mpr (List.forall₂_same.mpr fun info _ => ?_)
  by_cases hname : info.containerName = name <;> simp [hname, hchange]

theorem statesBy_updateExecutionLoop {share : ℤ → ℤ → ℤ → Option (ℤ × ℤ)} {name : String}
    {newInter newIntra available : ℤ} (ok : Bool) (applied : ℤ) (infos : List ExecutionInfo) :
    StatesBy ExecutionInfo.state infos
      (updateExecutionLoop share name newInter newIntra available ok applied
        infos).execInfoList := by
  induction infos generalizing ok applied with
  | nil => exact .nil
  | cons info infos ih =>
      rw [updateExecutionLoop]
      split
      · split
        · exact .cons rfl (ih _ _)
        · split
          · exact .cons rfl (ih _ _)
          · split
            · exact .refl _
            next updated hupdated =>
                obtain ⟨-, rfl⟩ := ExecutionInfo.updateParallelism_eq_some.mp hupdated
                exact .cons rfl (ih _ _)
      · exact .cons rfl (ih _ _)

/-- The loop writes `start` to the records of the number that get a share. -/
theorem statesBy_resumeLoop {share : ℤ → ℤ → ℤ → Option (ℤ × ℤ)} {requestId : String}
    {available : ℤ} (applied : ℤ) (state : ℕ) (infos : List ExecutionInfo) :
    StatesBy (fun info => if info.containerNumber = requestId ∧
        (share available info.interExecParallelism info.intraExecParallelism).isSome then .start
      else info.state) infos
      (resumeLoop share requestId available applied state infos).2.2 := by
  induction infos generalizing applied state with
  | nil => exact .nil
  | cons info infos ih =>
      rw [resumeLoop]
      by_cases hnumber : info.containerNumber = requestId
      · cases hshare : share available info.interExecParallelism info.intraExecParallelism with
        | none =>
            simp only [hnumber, if_true]
            exact .cons (by simp [hshare]) (ih _ _)
        | some granted =>
            simp only [hnumber, if_true]
            exact .cons (by simp [hnumber, hshare, ExecutionInfo.resumeContainer,
              ExecutionInfo.setState]) (ih _ _)
      · simp only [hnumber, if_false]
        exact .cons (by simp [hnumber]) (ih _ _)

theorem StatesBy.trans {first second : ExecutionInfo → ContainerState}
    {infos middle after : List ExecutionInfo} {mid : ExecutionInfo → ExecutionInfo}
    (hmiddle : middle = infos.map mid) (hafter : StatesBy second middle after)
    (hsame : ∀ info, second (mid info) = first info) : StatesBy first infos after := by
  subst hmiddle
  refine (List.forall₂_map_left_iff.mp hafter).imp fun info new hnew => ?_
  exact hnew.trans (hsame info)

/-! ## What an attendance leaves -/

/-- Every scheduler the answer leaves has the old records, with the states of the
writes, and the records that were added, with fresh marks. -/
def Traced (writes : Bool → ExecutionInfo → List StateWrite) (request : Request)
    (infos : List ExecutionInfo) (answer : Answer Scheduler) : Prop :=
  answer.All fun after => ∃ kept added, after.execInfoList = kept ++ added ∧
    StatesBy (fun info => stateAfter (writes answer.served info) info.state) infos kept ∧
    WellMarked added (freshMarks request answer.served)

section Attendance

variable {scheduler : Scheduler} {request : Request} {port : ℕ} {env : RequestEnv}

/-- A list that keeps its states is traced when nothing is written and added. -/
theorem kept_of_same {writes : ExecutionInfo → List StateWrite}
    {infos after : List ExecutionInfo} (hstates : StatesBy ExecutionInfo.state infos after)
    (hwrites : ∀ info, writes info = []) {marks : List Marks} (hmarks : marks = []) :
    ∃ kept added, after = kept ++ added ∧
      StatesBy (fun info => stateAfter (writes info) info.state) infos kept ∧
      WellMarked added marks := by
  refine ⟨after, [], by simp, hstates.imp fun info new hnew => ?_, hmarks ▸ .nil⟩
  simp [hnew, hwrites, stateAfter]

/-- A launch writes `start` to a restarted container, or adds a record. -/
theorem launchContainer_traced (hlaunch : (∃ requestId image inter intra priority,
      request = .start requestId image inter intra priority) ∨
    ∃ requestId name inter intra image priority,
      request = .restart requestId name inter intra image priority) (available : ℤ) :
    Traced (serveWrites scheduler request) request scheduler.execInfoList
      (launchContainer scheduler request port env available) := by
  have hidle : ∀ info, serveWrites scheduler request false info = [] := by
    obtain ⟨_, _, _, _, _, rfl⟩ | ⟨_, _, _, _, _, _, rfl⟩ := hlaunch <;> simp [serveWrites]
  have hfresh : freshMarks request false = [] := by
    obtain ⟨_, _, _, _, _, rfl⟩ | ⟨_, _, _, _, _, _, rfl⟩ := hlaunch <;> rfl
  unfold launchContainer Traced
  split
  · exact kept_of_same (.refl _) hidle hfresh
  next inter intra hshare =>
    split
    · split
      · exact kept_of_same (.refl _) hidle hfresh
      · split
        · trivial
        · rw [Answer.All, freeExceeded_execInfoList]
          exact kept_of_same (.refl _) hidle hfresh
        next socket haccept =>
          rw [Answer.All, freeExceeded_execInfoList]
          obtain ⟨_, _, _, _, _, rfl⟩ | ⟨_, name, _, _, _, _, rfl⟩ := hlaunch
          · exact ⟨_, _, rfl, .refl _, .cons (fun _ _ => rfl) .nil⟩
          · have hupdated := statesBy_mapNamed name
              (fun info => (rfl : (info.updateInfo inter intra port socket).state = .start))
              scheduler.execInfoList
            refine ⟨_, [], (List.append_nil _).symm, hupdated.imp fun info new hnew => ?_, .nil⟩
            by_cases hname : info.containerName = name <;>
              simp [hnew, hname, serveWrites, Answer.served, stateAfter, StateWrite.state]
    · exact kept_of_same (.refl _) hidle hfresh

/-- An update writes no state. -/
theorem serveUpdate_statesBy (scheduler : Scheduler) (name : String)
    (newInter newIntra available : ℤ) :
    (serveUpdate scheduler name newInter newIntra available).All fun after =>
      StatesBy ExecutionInfo.state scheduler.execInfoList after.execInfoList := by
  unfold serveUpdate updateExecutionInstance
  dsimp only
  split
  · exact statesBy_updateExecutionLoop _ _ _
  · rw [Answer.All, freeExceeded_execInfoList]
    exact statesBy_updateExecutionLoop _ _ _

/-- What the reservation leaves of a record: its state is the only thing written. -/
theorem pausedBy_infos (scheduler : Scheduler) (request : Request) :
    ∃ mid : ExecutionInfo → ExecutionInfo,
      (scheduler.pausedBy request).execInfoList = scheduler.execInfoList.map mid ∧
      ∀ info, (mid info).state = stateAfter (pauseWrites request info) info.state ∧
        (mid info).containerName = info.containerName ∧
        (mid info).containerNumber = info.containerNumber ∧
        (mid info).interExecParallelism = info.interExecParallelism ∧
        (mid info).intraExecParallelism = info.intraExecParallelism := by
  cases request with
  | pause requestId =>
      refine ⟨_, rfl, fun info => ?_⟩
      by_cases hpauses : (Request.pause requestId).reservesFrom info = true
      · simp [hpauses, pauseWrites, stateAfter, StateWrite.state, ExecutionInfo.pauseContainer,
          ExecutionInfo.setState]
      · simp [hpauses, pauseWrites, stateAfter]
  | _ => exact ⟨id, (List.map_id _).symm, fun _ => ⟨rfl, rfl, rfl, rfl, rfl⟩⟩

theorem pausedBy_statesBy (scheduler : Scheduler) (request : Request) :
    StatesBy (fun info => stateAfter (pauseWrites request info) info.state)
      scheduler.execInfoList (scheduler.pausedBy request).execInfoList := by
  obtain ⟨mid, hpaused, hmid⟩ := pausedBy_infos scheduler request
  exact StatesBy.trans hpaused (.refl _) fun info => (hmid info).1

/-- Serving a `Resume`, or a `Pause` in its place, after the pausing writes. -/
theorem serveListed_statesBy {requestId : String}
    (hkind : request = .resume requestId ∨ request = .pause requestId)
    (hreserved : scheduler.reservation request ≠ 0) (launched : Bool) :
    (serveListed ((scheduler.pausedBy request).charge (scheduler.reservation request)) request
        (scheduler.reservation request)).All fun after =>
      StatesBy (fun info => stateAfter (attendWrites scheduler request launched info) info.state)
        scheduler.execInfoList after.execInfoList := by
  obtain ⟨mid, hpaused, hmid⟩ := pausedBy_infos scheduler request
  have hnamed : ((scheduler.pausedBy request).charge
      (scheduler.reservation request)).execInfoList.any
        (fun info => info.containerName = instanceName requestId) =
      scheduler.execInfoList.any (fun info => info.containerName = instanceName requestId) := by
    rw [Scheduler.charge_execInfoList, hpaused, List.any_map]
    congr 1
    funext info
    simp [(hmid info).2.1]
  have hid : request.getRequestId = requestId := by
    obtain rfl | rfl := hkind <;> rfl
  have hserve : ∀ info, attendWrites scheduler request launched info =
      pauseWrites request info ++
        if resumes scheduler request requestId info then [.resumeContainer] else [] := by
    obtain rfl | rfl := hkind <;> exact fun _ => rfl
  have hshare : (scheduler.pausedBy request).share = scheduler.share := by
    obtain rfl | rfl := hkind <;> rfl
  have hresumes : ∀ info, resumes scheduler request requestId info = true ↔
      scheduler.execInfoList.any (fun info => info.containerName = instanceName requestId) ∧
        info.containerNumber = requestId ∧
        (scheduler.share (scheduler.reservation request) info.interExecParallelism
          info.intraExecParallelism).isSome := by
    intro info
    simp [resumes, hreserved]
  have hlist : serveListed ((scheduler.pausedBy request).charge (scheduler.reservation request))
      request (scheduler.reservation request) =
        if scheduler.execInfoList.any (fun info => info.containerName = instanceName requestId) then
          serveResume ((scheduler.pausedBy request).charge (scheduler.reservation request))
            requestId (scheduler.reservation request)
        else .returned 0 ((scheduler.pausedBy request).charge (scheduler.reservation request)) := by
    unfold serveListed
    dsimp only
    rw [hid, hnamed]
    obtain rfl | rfl := hkind <;> rfl
  rw [hlist]
  split
  next hlisted =>
      simp only [serveResume, Answer.All, freeExceeded_execInfoList]
      refine StatesBy.trans hpaused (statesBy_resumeLoop 0 0 _) fun info => ?_
      obtain ⟨hstate, -, hnumber, hinter, hintra⟩ := hmid info
      rw [hnumber, hinter, hintra, hserve, hstate, Scheduler.share_charge, hshare]
      by_cases hresumed : resumes scheduler request requestId info = true
      · have hgranted := ((hresumes info).mp hresumed).2
        rw [if_pos hresumed, if_pos hgranted]
        simp [stateAfter, StateWrite.state]
      · have hrefused : ¬ (info.containerNumber = requestId ∧
            (scheduler.share (scheduler.reservation request) info.interExecParallelism
              info.intraExecParallelism).isSome) :=
          fun hgranted => hresumed ((hresumes info).mpr ⟨hlisted, hgranted⟩)
        rw [if_neg hresumed, if_neg hrefused, List.append_nil]
  next hunlisted =>
      refine StatesBy.trans hpaused (.refl _) fun info => ?_
      have hnot : ¬ resumes scheduler request requestId info = true :=
        fun hresumed => hunlisted ((hresumes info).mp hresumed).1
      rw [hserve, if_neg hnot, List.append_nil, (hmid info).1]

/-- What a list of listed containers is served from leaves no record behind. -/
theorem traced_of_listed {answer : Answer Scheduler}
    (hstates : ∀ launched, answer.All fun after =>
      StatesBy (fun info => stateAfter (attendWrites scheduler request launched info) info.state)
        scheduler.execInfoList after.execInfoList)
    (hfresh : ∀ launched, freshMarks request launched = []) :
    Traced (attendWrites scheduler request) request scheduler.execInfoList answer :=
  (hstates answer.served).mono fun after hafter =>
    ⟨after.execInfoList, [], (List.append_nil _).symm, hafter, hfresh _ ▸ .nil⟩

/-- **Attempting a request.** Each record gets the state of what is written on it. -/
theorem attempt_traced (scheduler : Scheduler) (request : Request) (port : ℕ)
    (env : RequestEnv) :
    Traced (attendWrites scheduler request) request scheduler.execInfoList
      (attempt scheduler request port env) := by
  by_cases hzero : scheduler.reservation request = 0
  · rw [attempt_of_reservation_eq_zero hzero]
    refine ⟨_, [], (List.append_nil _).symm,
      (pausedBy_statesBy scheduler request).imp fun info new hnew => ?_, ?_⟩
    · have hidle : serveWrites scheduler request false info = [] := by
        cases request <;> simp [serveWrites, resumes, hzero]
      have hwrites : attendWrites scheduler request false info = pauseWrites request info := by
        rw [attendWrites, hidle, List.append_nil]
      exact hnew.trans (congrArg (stateAfter · info.state) hwrites).symm
    · cases request <;> exact .nil
  · rw [attempt_of_reservation_ne_zero hzero]
    cases request with
    | start requestId image inter intra priority =>
        exact launchContainer_traced (.inl ⟨_, _, _, _, _, rfl⟩) _
    | restart requestId name inter intra image priority =>
        exact launchContainer_traced (.inr ⟨_, _, _, _, _, _, rfl⟩) _
    | update requestId newInter newIntra priority =>
        refine traced_of_listed (fun launched => ?_) fun launched => rfl
        change (serveListed (scheduler.charge _) _ _).All _
        unfold serveListed
        dsimp only
        split
        · exact serveUpdate_statesBy _ _ _ _ _
        · exact StatesBy.refl _
    | resume requestId =>
        exact traced_of_listed (fun launched => serveListed_statesBy (.inl rfl) hzero launched)
          fun launched => rfl
    | pause requestId =>
        exact traced_of_listed (fun launched => serveListed_statesBy (.inr rfl) hzero launched)
          fun launched => rfl

theorem attend_traced (scheduler : Scheduler) (request : Request) (port : ℕ)
    (env : RequestEnv) :
    Traced (attendWrites scheduler request) request scheduler.execInfoList
      (attend scheduler request port env) := by
  have hattempt := attempt_traced scheduler request port env
  unfold attend
  cases hanswer : attempt scheduler request port env with
  | returned state served =>
      rw [hanswer] at hattempt
      cases state <;> exact hattempt
  | exited served => rwa [hanswer] at hattempt
  | waiting => trivial

theorem keepOrDiscard_execInfoList {scheduler kept : Scheduler} {request : Request}
    (hkept : keepOrDiscard scheduler request = some kept) :
    kept.execInfoList = scheduler.execInfoList := by
  obtain ⟨-, rfl⟩ | ⟨-, hpostponed⟩ := keepOrDiscard_cases hkept
  · rfl
  · obtain ⟨_, -, rfl⟩ := postpone_eq_some.mp hpostponed
    rfl

theorem serveNew_traced (scheduler : Scheduler) (request : Request) (port : ℕ)
    (env : RequestEnv) :
    Traced (newWrites scheduler request) request scheduler.execInfoList
      (serveNew scheduler request port env) := by
  by_cases hpause : ∃ requestId, request = .pause requestId
  · obtain ⟨requestId, rfl⟩ := hpause
    rw [serveNew, scheduleResources_eq]
    exact ⟨_, [], (List.append_nil _).symm, pausedBy_statesBy scheduler (.pause requestId), .nil⟩
  · have hother : ∀ requestId, request ≠ .pause requestId := by
      simpa using hpause
    have hwrites : newWrites scheduler request = attendWrites scheduler request := by
      funext launched info
      cases request with
      | pause requestId => exact absurd rfl (hother requestId)
      | _ => rfl
    have hattempt := attempt_traced scheduler request port env
    rw [serveNew_eq hother, hwrites]
    cases hanswer : attempt scheduler request port env with
    | returned state served =>
        rw [hanswer] at hattempt
        cases state with
        | succ state => exact hattempt
        | zero =>
            cases hkept : keepOrDiscard served request with
            | none =>
                simp only [hkept]
                exact hattempt
            | some kept =>
                simp only [hkept]
                obtain ⟨old, added, hlist, hold⟩ := hattempt
                exact ⟨old, added, (keepOrDiscard_execInfoList hkept).trans hlist, hold⟩
    | exited served => rwa [hanswer] at hattempt
    | waiting => trivial

end Attendance

/-! ## Reassigning -/

/-- A reassignment that tops up the containers without finishing them otherwise
writes no state. -/
theorem reassignLoop_statesBy (topUp : ℤ → ExecutionInfo → Option TopUp) (available : ℤ)
    (infos : List ExecutionInfo) :
    StatesBy ExecutionInfo.state infos (reassignLoop topUp id available infos).execInfoList := by
  induction infos generalizing available with
  | nil => exact .nil
  | cons info infos ih =>
      have hvisit : ∀ remaining visited, visit topUp id available info =
          some (remaining, visited) → visited.state = info.state := by
        intro remaining visited hvisited
        unfold visit at hvisited
        split at hvisited
        · cases hvisited
          rfl
        · obtain ⟨updated, hupdated, heq⟩ := Option.map_eq_some_iff.mp hvisited
          obtain ⟨-, rfl⟩ := ExecutionInfo.updateParallelism_eq_some.mp hupdated
          cases heq
          rfl
      rw [reassignLoop]
      split
      · split
        · exact .refl _
        next remaining visited hvisited =>
            split
            · exact .cons (hvisit _ _ hvisited) (StatesBy.refl _)
            · exact .cons (hvisit _ _ hvisited) (ih _)
      · exact .cons rfl (ih _)

/-- A loop that can send to none of the containers it would top up keeps the list. -/
theorem reassignLoop_kept {topUp : ℤ → ExecutionInfo → Option TopUp}
    {finish : ExecutionInfo → ExecutionInfo} {available : ℤ} (hfree : available ≠ 0)
    {infos : List ExecutionInfo}
    (hfailed : ∀ info ∈ infos.find? (fun info => info.state = .start ∧
      (topUp available info).isSome), info.clientsocket.failed = true) :
    (reassignLoop topUp finish available infos).execInfoList = infos := by
  induction infos with
  | nil => rfl
  | cons info infos ih =>
      rw [reassignLoop]
      by_cases hstart : info.state = .start
      · cases hgrant : topUp available info with
        | none =>
            simp only [hstart, visit, hgrant, hfree, if_true, if_false, ReassignTrace.after]
            rw [ih (by simpa [hstart, hgrant] using hfailed)]
        | some granted =>
            have hsocket : info.clientsocket.failed = true := by
              simpa [hstart, hgrant] using hfailed
            simp [hstart, visit, hgrant, ExecutionInfo.updateParallelism, hsocket]
      · simp only [hstart, if_false, ReassignTrace.after]
        rw [ih (by simpa [hstart] using hfailed)]

/-- A reassignment that tops nothing up under `max_prop`: nothing is free, the
containers are passed over, or no container lacks cores, the first one that does
apart when the send to it raises. -/
def NoneToppedUp (scheduler : Scheduler) : Prop :=
  scheduler.schedulerContainer.reassigmentType = .maxProp → 0 < scheduler.checkResources →
    passesOverAll scheduler.schedulerContainer.policyClass scheduler.execInfoList = false →
      ∀ info ∈ scheduler.execInfoList.find? (fun info => info.state = .start ∧
        (maxpropTopUp scheduler.maxResourcesPerCont
          (maxpropFactor scheduler.checkResources scheduler.execInfoList)
          scheduler.checkResources info).isSome), info.clientsocket.failed = true

instance (scheduler : Scheduler) : Decidable (NoneToppedUp scheduler) := by
  unfold NoneToppedUp
  infer_instance

theorem reassigment_statesBy {scheduler : Scheduler} (hfree : 0 < scheduler.checkResources)
    (hnone : NoneToppedUp scheduler) :
    StatesBy ExecutionInfo.state scheduler.execInfoList
      (reassigment scheduler scheduler.checkResources).execInfoList := by
  unfold reassigment
  split
  next hmax =>
      unfold maxpropReassigment
      split
      next hnil =>
          rw [hnil]
          exact List.Forall₂.nil
      next hlisted =>
          split
          · exact StatesBy.refl _
          next hpass =>
              rw [reassignLoop_kept hfree.ne' (hnone hmax hfree (by simpa using hpass))]
              exact StatesBy.refl _
  · unfold strictReassigment
    split
    · exact StatesBy.refl _
    · exact reassignLoop_statesBy _ _ _

/-! ## The steps -/

/-- A step that is no reassignment, or one that tops nothing up under `max_prop`. -/
def StateStepOk (tracked : Tracked) : TrackedStep → Prop
  | .program .reassign => NoneToppedUp tracked.world.scheduler
  | _ => True

instance (tracked : Tracked) : ∀ label, Decidable (StateStepOk tracked label)
  | .program .reassign => inferInstanceAs (Decidable (NoneToppedUp tracked.world.scheduler))
  | .program (.enqueue _) | .program .terminate | .program (.attendNew _)
  | .program (.attendPending _) | .program .measure | .program .free | .program (.exit _)
  | .program (.fail _ _ _) | .program (.disconnect _) | .queue _ => inferInstanceAs (Decidable True)

/-- The records and marks of a tracked program. -/
def TrackedMarked (tracked : Tracked) : Prop :=
  WellMarked tracked.world.scheduler.execInfoList tracked.marks

theorem Traced.wellMarked {writes : Bool → ExecutionInfo → List StateWrite} {request : Request}
    {infos : List ExecutionInfo} {answer : Answer Scheduler} {marks : List Marks}
    (htraced : Traced writes request infos answer) (hmarked : WellMarked infos marks) :
    answer.All fun after => WellMarked after.execInfoList
      (markAll (writes answer.served) infos marks ++ freshMarks request answer.served) := by
  refine htraced.mono fun after hafter => ?_
  obtain ⟨kept, added, hlist, hkept, hadded⟩ := hafter
  rw [hlist]
  exact List.rel_append (wellMarked_markAll hmarked hkept) hadded

section Steps

variable {tracked after : Tracked} {world next : World} {marks : List Marks}

theorem attendNew_marked {env : RequestEnv} (hmarked : TrackedMarked tracked)
    (hstep : tracked.world.attendNew env = some next) :
    WellMarked next.scheduler.execInfoList (tracked.marksAfter (.attendNew env)) := by
  obtain ⟨⟨request, policy⟩, hget, hserve⟩ := Option.bind_eq_some_iff.mp hstep
  have hserved := (serveNew_traced (tracked.world.scheduler.withPolicy policy) request
    tracked.world.portHost env).wellMarked hmarked
  simp only [Tracked.marksAfter, hget]
  simp only at hserve
  split at hserve <;> exact afterAnswer_of_all hserved hserve

theorem attendPending_marked {env : RequestEnv} (hmarked : TrackedMarked tracked)
    (hstep : tracked.world.attendPending env = some next) :
    WellMarked next.scheduler.execInfoList (tracked.marksAfter (.attendPending env)) := by
  obtain ⟨⟨request, policy⟩, hget, hserve⟩ := Option.bind_eq_some_iff.mp hstep
  have hserved := (attend_traced (tracked.world.scheduler.withPolicy policy) request
    tracked.world.portHost env).wellMarked hmarked
  simp only [Tracked.marksAfter, hget]
  simp only at hserve
  split at hserve
  next served hanswer =>
      rw [hanswer] at hserved ⊢
      split at hserve
      · obtain rfl := Option.some.inj hserve
        exact hserved
      next kept hkept =>
          obtain rfl := Option.some.inj hserve
          obtain ⟨_, -, rfl⟩ := postpone_eq_some.mp hkept
          exact hserved
  · exact afterAnswer_of_all hserved hserve

theorem reassign_marked (hmarked : WellMarked world.scheduler.execInfoList marks)
    (hnone : NoneToppedUp world.scheduler) :
    WellMarked world.reassign.scheduler.execInfoList marks := by
  refine wellMarked_of_same hmarked ?_
  have hcases := reassignFree_cases world.scheduler
  unfold World.reassign
  split
  next reassigned hdone =>
      obtain ⟨-, hend⟩ | ⟨-, -, hend⟩ | ⟨hfree, -, hend⟩ := hcases
      all_goals
        rw [hend] at hdone
        cases hdone
      · exact .refl _
      · exact reassigment_statesBy hfree hnone
  next reassigned hdone =>
      obtain ⟨-, hend⟩ | ⟨hfree, -, hend⟩ | ⟨-, -, hend⟩ := hcases
      all_goals
        rw [hend] at hdone
        cases hdone
      exact reassigment_statesBy hfree hnone

theorem exit_marked (hmarked : TrackedMarked tracked) (name : String) :
    WellMarked (removeContainer tracked.world.scheduler name).2.execInfoList
      (tracked.marksAfter (.exit name)) := by
  have herased := wellMarked_eraseIdx hmarked
    (tracked.world.scheduler.execInfoList.findIdx fun info => info.containerName = name)
  rw [← eraseP_eq_eraseIdx_findIdx] at herased
  unfold removeContainer
  split
  next hnone =>
      rwa [List.eraseP_of_forall_not (List.find?_eq_none.mp hnone)] at herased
  · exact herased

/-- A failure marks every record of the name as failed, if there is one. -/
theorem fail_marked (hmarked : TrackedMarked tracked) (number name : String) (priority : ℤ) :
    WellMarked (containerFailedAttention tracked.world.scheduler number name
      priority).execInfoList (tracked.marksAfter (.fail number name priority)) := by
  have hfailed : WellMarked (mapNamed name (fun info => info.setState .failed)
      tracked.world.scheduler.execInfoList) (tracked.marksAfter (.fail number name priority)) := by
    have hmapped := statesBy_mapNamed name
      (fun info => (rfl : (info.setState .failed).state = .failed))
      tracked.world.scheduler.execInfoList
    refine wellMarked_markAll hmarked (hmapped.imp fun info new hnew => ?_)
    by_cases hname : info.containerName = name <;>
      simp [hnew, hname, stateAfter, StateWrite.state]
  unfold containerFailedAttention
  split
  next hnone =>
      have hunlisted : ∀ info ∈ tracked.world.scheduler.execInfoList,
          ¬ info.containerName = name := by
        simpa [named] using List.getLast?_eq_none_iff.mp hnone
      have hkept : mapNamed name (fun info => info.setState .failed)
          tracked.world.scheduler.execInfoList = tracked.world.scheduler.execInfoList := by
        refine (List.map_congr_left fun info hmem => ?_).trans (List.map_id _)
        rw [if_neg (hunlisted info hmem)]
        rfl
      rwa [hkept] at hfailed
  · simp only
    split <;> exact hfailed

/-- **The step lemma of the marks.** -/
theorem worldStep_marked {action : Action} (hmarked : TrackedMarked tracked)
    (hallowed : StateStepOk tracked (.program action))
    (hstep : tracked.world.step action = some next) :
    WellMarked next.scheduler.execInfoList (tracked.marksAfter action) := by
  cases action with
  | enqueue queued =>
      simp only [World.step, Option.ite_none_left_eq_some] at hstep
      obtain ⟨-, policy, -, rfl⟩ := enqueue_eq hstep.2
      exact hmarked
  | attendNew env =>
      simp only [World.step, Option.ite_none_left_eq_some] at hstep
      exact attendNew_marked hmarked hstep.2
  | attendPending env =>
      simp only [World.step, Option.ite_none_left_eq_some] at hstep
      exact attendPending_marked hmarked hstep.2
  | reassign =>
      simp only [World.step, Option.ite_none_left_eq_some, Option.some.injEq] at hstep
      obtain ⟨-, rfl⟩ := hstep
      exact reassign_marked hmarked hallowed
  | measure =>
      simp only [World.step, Option.ite_none_left_eq_some, Option.some.injEq] at hstep
      obtain ⟨-, rfl⟩ := hstep
      unfold World.measure
      split
      next measured hmeasure =>
          obtain ⟨factor, rfl⟩ := measureStage_frame hmeasure
          exact hmarked
      · exact hmarked
  | free =>
      simp only [World.step, Option.ite_none_left_eq_some, Option.map_eq_some_iff] at hstep
      obtain ⟨-, freed, hfreed, rfl⟩ := hstep
      unfold freeFinished at hfreed
      split at hfreed <;> cases hfreed
      exact hmarked
  | exit name =>
      obtain rfl := Option.some.inj hstep
      exact exit_marked hmarked name
  | fail number name priority =>
      obtain rfl := Option.some.inj hstep
      exact fail_marked hmarked number name priority
  | terminate =>
      obtain rfl := Option.some.inj hstep
      exact hmarked
  | disconnect name =>
      obtain rfl := Option.some.inj hstep
      refine wellMarked_of_same hmarked (List.forall₂_map_right_iff.mpr ?_)
      refine List.forall₂_same.mpr fun info _ => ?_
      by_cases hname : info.containerName = name
      · rw [if_pos hname]
        rfl
      · rw [if_neg hname]

theorem marked_of_step {label : TrackedStep} (hmarked : TrackedMarked tracked)
    (hallowed : StateStepOk tracked label) (hstep : tracked.step label = some after) :
    TrackedMarked after := by
  cases label with
  | queue request =>
      obtain ⟨world, hqueued, rfl⟩ := Option.map_eq_some_iff.mp hstep
      obtain ⟨policy, -, rfl⟩ := Option.map_eq_some_iff.mp hqueued
      exact hmarked
  | program action =>
      obtain ⟨world, hworld, rfl⟩ := Option.map_eq_some_iff.mp hstep
      exact worldStep_marked hmarked hallowed hworld

end Steps

/-! ## Runs -/

/-- **Unmarked containers are in state `start`.** In every run whose reassignments
top nothing up under `max_prop`, a listed container that is neither paused nor
failed has the state `start`. -/
theorem unmarked_containers_start (cores maxResourcesPerCont : ℤ) (policyClass : PolicyClass)
    (reassigmentType : ReassigmentType) {tracked : Tracked}
    (hreached : (trackedProgram cores maxResourcesPerCont policyClass reassigmentType).Reaches
      StateStepOk tracked) :
    WellMarked tracked.world.scheduler.execInfoList tracked.marks := by
  have hinit : TrackedMarked
      (trackedProgram cores maxResourcesPerCont policyClass reassigmentType).init :=
    List.Forall₂.nil
  exact hreached.invariant (P := TrackedMarked) hinit
    fun _ _ _ _ hmarked hallowed htaken => marked_of_step hmarked hallowed htaken

/-- The environment in which the container `instance0` is launched. -/
def launches : RequestEnv := ⟨true, false, [.connected ⟨"instance0", false⟩]⟩

/-- The states of the listed containers and their marks. -/
def statesAndMarks (tracked : Tracked) : List ContainerState × List Marks :=
  (tracked.world.scheduler.execInfoList.map ExecutionInfo.state, tracked.marks)

/-- A container that was paused and resumed is in state `start` again. -/
theorem resumed_container_starts : ∃ tracked : Tracked,
    statesAndMarks tracked = ([.start], [{}]) ∧
      WellMarked tracked.world.scheduler.execInfoList tracked.marks := by
  have hrun : ∃ tracked, (trackedProgram 8 4 .fcfs .strict).Reaches StateStepOk tracked ∧
      decide (statesAndMarks tracked = ([.start], [{}])) = true :=
    Machine.exists_reaches
      [.program (.enqueue (.start "0" "tf" 1 2 0)), .program (.attendNew launches),
        .queue (.pause "0"), .program (.attendNew launches),
        .queue (.resume "0"), .program (.attendNew launches), .program .reassign]
      (by decide +kernel) (by decide +kernel)
  obtain ⟨tracked, hreached, hstates⟩ := hrun
  exact ⟨tracked, of_decide_eq_true hstates, unmarked_containers_start 8 4 .fcfs .strict hreached⟩

/-- A reassignment under `max_prop` leaves a container that was just started, and
that nothing paused or failed, in the state `update`. -/
theorem maxProp_reassignment_leaves_start :
    ¬ ∀ (cores maxResourcesPerCont : ℤ) (policyClass : PolicyClass)
      (reassigmentType : ReassigmentType) (tracked : Tracked),
      (trackedProgram cores maxResourcesPerCont policyClass reassigmentType).Reaches
        Machine.Unguarded tracked →
      WellMarked tracked.world.scheduler.execInfoList tracked.marks := by
  intro hclaim
  have hrun : ∃ tracked, (trackedProgram 8 16 .fcfs .maxProp).Reaches Machine.Unguarded tracked ∧
      decide (statesAndMarks tracked = ([.update], [{}])) = true :=
    Machine.exists_reaches_unguarded
      [.program (.enqueue (.start "0" "tf" 1 1 0)), .program .measure,
        .program (.attendNew launches), .program .reassign]
      (by decide +kernel)
  obtain ⟨tracked, hreached, hstates⟩ := hrun
  have hmarked := hclaim 8 16 .fcfs .maxProp tracked hreached
  obtain ⟨hstate, hmarks⟩ := Prod.mk.inj (of_decide_eq_true hstates)
  obtain ⟨info, hinfos, hupdate⟩ := List.map_eq_singleton_iff.mp hstate
  rw [hinfos, hmarks] at hmarked
  cases hmarked with
  | cons hinfo _ =>
      have hstart : info.state = .start := hinfo rfl rfl
      exact absurd (hstart.symm.trans hupdate) (by decide)

end ContainerScheduler.Analysis
