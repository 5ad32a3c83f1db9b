/-
# The cores in use

The books are in order when the cores in use are the shares of the containers
that are neither paused nor failed, together with the shares that finished
containers left to be freed. Each step is followed by the imbalance, the
difference of the two sides.

The books stay in order along every run whose steps take none of the branches
that charge one amount and hand out another:

* a launch that is refused after its time-outs frees its surplus twice;
* Docker and broken connections end the attention thread between the charge and
  the record;
* loops over a name act on every container of the name and charge for the last;
* `exit` and failure free the share of a container that holds none;
* a top-up that is cut to the maximum charges another amount than it hands out.

The conditions below name these branches, step by step.
-/

import ContainerScheduler.Analysis.FailedAttendance
import ContainerScheduler.Analysis.QueueSteps

namespace ContainerScheduler.Analysis

open Host Math

/-! ## The books -/

/-- The shares that finished containers left to be freed. -/
def finishedCores (scheduler : Scheduler) : ℤ := (scheduler.qFinishContainer.map Prod.fst).sum

/-- The cores in use are the ones held and the ones waiting to be freed. -/
def Accounted (scheduler : Scheduler) : Prop :=
  scheduler.systemInfo.coresUsed = activeCores scheduler.execInfoList + finishedCores scheduler

instance (scheduler : Scheduler) : Decidable (Accounted scheduler) := by
  unfold Accounted
  infer_instance

/-- How many cores are in use beyond the ones accounted for. -/
def imbalance (scheduler : Scheduler) : ℤ :=
  scheduler.systemInfo.coresUsed -
    (activeCores scheduler.execInfoList + finishedCores scheduler)

theorem accounted_iff {scheduler : Scheduler} :
    Accounted scheduler ↔ imbalance scheduler = 0 := by
  simp only [Accounted, imbalance]
  omega

section Imbalance

variable (scheduler : Scheduler)

@[simp]
theorem imbalance_charge (amount : ℤ) :
    imbalance (scheduler.charge amount) = imbalance scheduler + amount := by
  simp only [imbalance, finishedCores, Scheduler.charge_coresUsed, Scheduler.charge_execInfoList,
    Scheduler.charge_qFinishContainer]
  omega

@[simp]
theorem imbalance_freeResources (amount : ℤ) :
    imbalance (scheduler.freeResources amount) = imbalance scheduler - amount := by
  rw [Scheduler.freeResources_eq_charge, imbalance_charge, sub_eq_add_neg]

theorem imbalance_withList (infos : List ExecutionInfo) :
    imbalance { scheduler with execInfoList := infos } =
      imbalance scheduler + (activeCores scheduler.execInfoList - activeCores infos) := by
  simp only [imbalance, finishedCores]
  omega

end Imbalance

/-! ## Cores held under a name -/

theorem named_cons_self {name : String} {info : ExecutionInfo} (hname : info.containerName = name)
    (infos : List ExecutionInfo) : named name (info :: infos) = info :: named name infos := by
  simp [named, hname]

theorem named_cons_of_ne {name : String} {info : ExecutionInfo} (hname : info.containerName ≠ name)
    (infos : List ExecutionInfo) : named name (info :: infos) = named name infos := by
  simp [named, hname]

theorem mem_named {name : String} {info : ExecutionInfo} {infos : List ExecutionInfo} :
    info ∈ named name infos ↔ info ∈ infos ∧ info.containerName = name := by
  simp [named]

/-- What a change of every container of a name does to the cores held. -/
theorem activeCores_mapNamed (name : String) (change : ExecutionInfo → ExecutionInfo)
    (infos : List ExecutionInfo) :
    activeCores (mapNamed name change infos) + activeCores (named name infos) =
      activeCores infos + activeCores ((named name infos).map change) := by
  induction infos with
  | nil => rfl
  | cons info infos ih =>
      by_cases hname : info.containerName = name
      · rw [named_cons_self hname]
        simp only [mapNamed, List.map_cons, hname, if_true, activeCores_cons] at ih ⊢
        omega
      · rw [named_cons_of_ne hname]
        simp only [mapNamed, List.map_cons, hname, if_false, activeCores_cons] at ih ⊢
        omega

/-- When one container bears the name, the change is that of this container. -/
theorem activeCores_mapNamed_of_sole {name : String} {info : ExecutionInfo}
    {infos : List ExecutionInfo} (hsole : named name infos = [info])
    (change : ExecutionInfo → ExecutionInfo) :
    activeCores (mapNamed name change infos) =
      activeCores infos - info.heldCores + (change info).heldCores := by
  have htotal := activeCores_mapNamed name change infos
  simp only [hsole, List.map_cons, List.map_nil, activeCores_cons, activeCores_nil] at htotal
  omega

theorem mapNamed_of_unlisted {name : String} {infos : List ExecutionInfo}
    (hunlisted : ∀ info ∈ infos, info.containerName ≠ name)
    (change : ExecutionInfo → ExecutionInfo) : mapNamed name change infos = infos := by
  refine (List.map_congr_left fun info hmem => ?_).trans (List.map_id infos)
  simp [hunlisted info hmem]

/-- Dropping the first container of a name drops the cores it holds. -/
theorem activeCores_eraseP_of_find {name : String} {info : ExecutionInfo}
    {infos : List ExecutionInfo}
    (hfind : infos.find? (fun info => info.containerName = name) = some info) :
    activeCores (infos.eraseP fun info => info.containerName = name) =
      activeCores infos - info.heldCores := by
  induction infos with
  | nil => cases hfind
  | cons first infos ih =>
      by_cases hname : first.containerName = name
      · simp only [hname, decide_true, List.find?_cons_of_pos, Option.some.injEq] at hfind
        subst hfind
        simp [hname]
      · simp only [hname, decide_false, Bool.false_eq_true, not_false_eq_true,
          List.find?_cons_of_neg] at hfind
        rw [List.eraseP_cons_of_neg (by simpa using hname), activeCores_cons, activeCores_cons,
          ih hfind]
        omega

/-! ## The final release of a call -/

/-- The release at the end of a call leaves exactly the share charged. -/
def Settled (parallelismApply reserved : ℤ) : Prop :=
  parallelismApply = reserved ∨ (parallelismApply ≠ 0 ∧ parallelismApply < reserved)

instance (parallelismApply reserved : ℤ) : Decidable (Settled parallelismApply reserved) := by
  unfold Settled
  infer_instance

theorem imbalance_freeExceeded_of_settled {applied reserved : ℤ}
    (hsettled : Settled applied reserved) (scheduler : Scheduler) :
    imbalance (freeExceeded scheduler applied reserved) =
      imbalance scheduler + applied - reserved := by
  unfold freeExceeded
  split
  · rw [imbalance_freeResources]
    omega
  next hkept =>
      obtain heq | hless := hsettled
      · omega
      · exact absurd hless hkept

theorem imbalance_freeExceeded_of_noSurplus {applied reserved : ℤ}
    (hnone : NoSurplus applied reserved) (scheduler : Scheduler) :
    imbalance (freeExceeded scheduler applied reserved) = imbalance scheduler := by
  unfold freeExceeded
  split
  next hsurplus =>
      obtain hzero | hle := hnone
      · exact absurd hzero hsurplus.1
      · omega
  · rfl

/-! ## Attending a request -/

/-- The classes that start a container. -/
def Launches : Request → Prop
  | .start .. | .restart .. => True
  | _ => False

/-- A `Restart` finds exactly one container of its name, and it holds no cores. -/
def Replaces (infos : List ExecutionInfo) : Request → Prop
  | .restart _ containerName .. =>
      match named containerName infos with
      | [info] => info.heldCores = 0
      | _ => False
  | _ => True

instance (infos : List ExecutionInfo) (request : Request) : Decidable (Replaces infos request) := by
  unfold Replaces
  cases request
  case restart => dsimp only; split <;> infer_instance
  all_goals infer_instance

theorem exists_sole_of_replaces {infos : List ExecutionInfo} {requestId name image : String}
    {inter intra priority : ℤ}
    (hreplaces : Replaces infos (.restart requestId name inter intra image priority)) :
    ∃ info, named name infos = [info] ∧ info.heldCores = 0 := by
  simp only [Replaces] at hreplaces
  split at hreplaces
  next info hsole => exact ⟨info, hsole, hreplaces⟩
  · exact hreplaces.elim

/-- A launch out of a reservation does not free its surplus twice, and is not cut
short by Docker. -/
def LaunchOk (scheduler : Scheduler) (request : Request) (env : RequestEnv) (reserved : ℤ) :
    Prop :=
  env.memoryBelowLimit = true →
    ∀ granted ∈ scheduler.share reserved request.getInterParallelism request.getIntraParallelism,
      env.dockerStderr = false ∧
        match acceptLoop acceptAttempts env.accepts with
        | none => True
        | some none => NoSurplus (granted.1 + granted.2) reserved
        | some (some _) =>
            Settled (granted.1 + granted.2) reserved ∧ Replaces scheduler.execInfoList request

instance (scheduler : Scheduler) (request : Request) (env : RequestEnv) (reserved : ℤ) :
    Decidable (LaunchOk scheduler request env reserved) := by
  unfold LaunchOk
  split <;> infer_instance

theorem launchOk_charge {scheduler : Scheduler} {request : Request} {env : RequestEnv}
    {reserved amount : ℤ} : LaunchOk (scheduler.charge amount) request env reserved ↔
      LaunchOk scheduler request env reserved := Iff.rfl

/-- The record of an update moves by the amount the update is charged for: every
component that changes is sent as a positive value. -/
def RecordsChange (info : ExecutionInfo) (inter intra applied : ℤ) : Prop :=
  (info.recordUpdate inter intra).execParallelism = info.execParallelism + applied

instance (info : ExecutionInfo) (inter intra applied : ℤ) :
    Decidable (RecordsChange info inter intra applied) := by
  unfold RecordsChange
  infer_instance

/-- An update that is not refused reaches one container, over a live connection,
and is recorded and settled in full. -/
def UpdateOk (scheduler : Scheduler) (name : String) (newInter newIntra reserved : ℤ) : Prop :=
  ∀ info ∈ named name scheduler.execInfoList, info.state = .start →
    ∀ offer ∈ updateOffer scheduler.share info newInter newIntra reserved,
      named name scheduler.execInfoList = [info] ∧ info.clientsocket.failed = false ∧
        RecordsChange info offer.1 offer.2.1 offer.2.2 ∧ Settled offer.2.2 reserved

instance (scheduler : Scheduler) (name : String) (newInter newIntra reserved : ℤ) :
    Decidable (UpdateOk scheduler name newInter newIntra reserved) := by
  unfold UpdateOk
  infer_instance

/-- Attending a request out of its reservation keeps to the branches that charge
what they hand out. -/
def AttendanceOk (scheduler : Scheduler) (request : Request) (env : RequestEnv) : Prop :=
  scheduler.reservation request = 0 ∨
    match request with
    | .start .. | .restart .. =>
        LaunchOk scheduler request env (scheduler.reservation request)
    | .update requestId newInter newIntra _ =>
        UpdateOk scheduler (instanceName requestId) newInter newIntra
          (scheduler.reservation request)
    | .resume _ | .pause _ => True

instance (scheduler : Scheduler) (request : Request) (env : RequestEnv) :
    Decidable (AttendanceOk scheduler request env) := by
  unfold AttendanceOk
  cases request <;> infer_instance

/-- A call given a scheduler moves the imbalance by nothing when it refuses, and
uses up the reservation when it serves. -/
def Balanced (given : Scheduler) (reserved : ℤ) : Answer Scheduler → Prop
  | .returned 0 served => imbalance served = imbalance given
  | .returned _ served => imbalance served = imbalance given - reserved
  | .exited _ => False
  | .waiting => True

/-- Recording a container that connected adds its share to the cores held. -/
theorem imbalance_registerContainer {scheduler : Scheduler} {request : Request}
    (hlaunch : Launches request) (hreplaces : Replaces scheduler.execInfoList request)
    (inter intra : ℤ) (port : ℕ) (socket : ClientSocket) :
    imbalance (registerContainer scheduler request inter intra port socket) =
      imbalance scheduler - (inter + intra) := by
  cases request with
  | start requestId image interUser intraUser priority =>
      simp only [registerContainer, imbalance, finishedCores, activeCores_append, activeCores_cons,
        activeCores_nil, ExecutionInfo.heldCores, ExecutionInfo.execParallelism]
      simp
      omega
  | restart requestId name interUser intraUser image priority =>
      obtain ⟨info, hsole, hheld⟩ := exists_sole_of_replaces hreplaces
      simp only [registerContainer, Request.launchName]
      rw [imbalance_withList, activeCores_mapNamed_of_sole hsole, hheld,
        ExecutionInfo.heldCores_updateInfo]
      omega
  | _ => exact hlaunch.elim

theorem launchContainer_balanced {given : Scheduler} {request : Request} {env : RequestEnv}
    {reserved : ℤ} (hlaunch : Launches request) (hok : LaunchOk given request env reserved)
    (port : ℕ) : Balanced given reserved (launchContainer given request port env reserved) := by
  unfold launchContainer
  split
  · rfl
  next inter intra hshare =>
      split
      next hmemory =>
          obtain ⟨hdocker, haccept⟩ := hok hmemory (inter, intra) hshare
          rw [if_neg (by simp [hdocker])]
          split
          · trivial
          next hnone =>
              rw [hnone] at haccept
              exact imbalance_freeExceeded_of_noSurplus haccept _
          next socket hsocket =>
              rw [hsocket] at haccept
              obtain ⟨hsettled, hreplaces⟩ := haccept
              simp only [Balanced]
              rw [imbalance_freeExceeded_of_settled hsettled,
                imbalance_registerContainer hlaunch hreplaces]
              omega
      · rfl

/-! ## The update loop -/

section UpdateLoop

variable {share : ℤ → ℤ → ℤ → Option (ℤ × ℤ)} {name : String} {newInter newIntra available : ℤ}

/-- When every running container of the name is refused, nothing changes. -/
theorem updateExecutionLoop_of_refused {applied : ℤ} (ok : Bool) {infos : List ExecutionInfo}
    (hrefused : ∀ info ∈ named name infos, info.state = .start →
      updateOffer share info newInter newIntra available = none) :
    updateExecutionLoop share name newInter newIntra available ok applied infos =
      ⟨false, ok && (named name infos).isEmpty, applied, infos⟩ := by
  induction infos generalizing ok with
  | nil => simp [updateExecutionLoop, named]
  | cons info infos ih =>
      rw [updateExecutionLoop]
      by_cases hname : info.containerName = name
      · rw [named_cons_self hname] at hrefused ⊢
        have hrest := ih false fun other hmem => hrefused other (List.mem_cons_of_mem _ hmem)
        by_cases hstate : info.state = .start
        · simp [hname, hstate, hrefused info List.mem_cons_self hstate, hrest, UpdateTrace.after]
        · simp [hname, hstate, hrest, UpdateTrace.after]
      · rw [named_cons_of_ne hname] at hrefused ⊢
        simp [hname, ih ok hrefused, UpdateTrace.after]

/-- When one container bears the name, runs, is offered something and can be
reached, the loop updates it. -/
theorem updateExecutionLoop_of_sole {ok : Bool} {applied inter intra offered : ℤ}
    {info : ExecutionInfo} {infos : List ExecutionInfo} (hsole : named name infos = [info])
    (hstate : info.state = .start) (hlive : info.clientsocket.failed = false)
    (hoffer : updateOffer share info newInter newIntra available = some (inter, intra, offered)) :
    updateExecutionLoop share name newInter newIntra available ok applied infos =
      ⟨false, true, offered, mapNamed name (fun info => info.recordUpdate inter intra) infos⟩ := by
  induction infos with
  | nil => cases hsole
  | cons first infos ih =>
      rw [updateExecutionLoop]
      by_cases hname : first.containerName = name
      · rw [named_cons_self hname] at hsole
        obtain ⟨rfl, hnil⟩ := List.cons.inj hsole
        have hunlisted : ∀ other ∈ infos, other.containerName ≠ name := fun other hmem hother =>
          List.not_mem_nil (hnil ▸ mem_named.mpr ⟨hmem, hother⟩)
        have hrest := mapNamed_of_unlisted hunlisted fun info => info.recordUpdate inter intra
        have hsent : first.updateParallelism inter intra = some (first.recordUpdate inter intra) :=
          ExecutionInfo.updateParallelism_eq_some.mpr ⟨hlive, rfl⟩
        rw [mapNamed] at hrest ⊢
        simp [hname, hstate, hoffer, hsent, updateExecutionLoop_of_unlisted hunlisted, hrest,
          UpdateTrace.after]
      · rw [named_cons_of_ne hname] at hsole
        simp [hname, ih hsole, mapNamed, UpdateTrace.after]

end UpdateLoop

theorem serveUpdate_balanced {given : Scheduler} {name : String} {newInter newIntra reserved : ℤ}
    (hok : UpdateOk given name newInter newIntra reserved) :
    Balanced given reserved (serveUpdate given name newInter newIntra reserved) := by
  by_cases hrefused : ∀ info ∈ named name given.execInfoList, info.state = .start →
      updateOffer given.share info newInter newIntra reserved = none
  · simp [serveUpdate, updateExecutionInstance, updateExecutionLoop_of_refused false hrefused,
      freeExceeded, Balanced]
  · push Not at hrefused
    obtain ⟨info, hmem, hstate, hoffered⟩ := hrefused
    obtain ⟨⟨inter, intra, applied⟩, hoffer⟩ := Option.ne_none_iff_exists'.mp hoffered
    obtain ⟨hsole, hlive, hrecords, hsettled⟩ :=
      hok info hmem hstate (inter, intra, applied) hoffer
    have hactive := ExecutionInfo.active_of_start hstate
    have hheld : (info.recordUpdate inter intra).heldCores = info.heldCores + applied := by
      have hactive' : (info.recordUpdate inter intra).Active := hactive
      rw [ExecutionInfo.heldCores_of_active hactive, ExecutionInfo.heldCores_of_active hactive']
      exact hrecords
    simp only [serveUpdate, updateExecutionInstance,
      updateExecutionLoop_of_sole hsole hstate hlive hoffer, Bool.false_eq_true, if_false, if_true,
      Balanced]
    rw [imbalance_freeExceeded_of_settled hsettled, imbalance_withList,
      activeCores_mapNamed_of_sole hsole, hheld]
    ring

/-- **One attendance.** A request that charges cores leaves the imbalance as it
was when it is served, and its reservation too much when it is refused. -/
theorem attempt_balanced {scheduler : Scheduler} {request : Request} {env : RequestEnv}
    (hcharges : ChargesCores request) (hok : AttendanceOk scheduler request env) (port : ℕ) :
    Balanced (scheduler.charge (scheduler.reservation request)) (scheduler.reservation request)
      (attempt scheduler request port env) := by
  have hpaused : scheduler.pausedBy request = scheduler := by
    refine pausedBy_eq_self fun requestId heq => ?_
    subst heq
    exact hcharges
  by_cases hzero : scheduler.reservation request = 0
  · rw [attempt_of_reservation_eq_zero hzero, hzero, hpaused]
    simp [Balanced]
  · rw [attempt_of_reservation_ne_zero hzero, hpaused]
    have hserve := hok.resolve_left hzero
    cases request with
    | start requestId image inter intra priority =>
        refine launchContainer_balanced ?_ (launchOk_charge.mpr hserve) port
        exact hcharges
    | restart requestId name inter intra image priority =>
        refine launchContainer_balanced ?_ (launchOk_charge.mpr hserve) port
        exact hcharges
    | update requestId newInter newIntra priority =>
        simp only [scheduleRequest, serveListed]
        split
        · exact serveUpdate_balanced hserve
        · rfl
    | _ => exact hcharges.elim

end ContainerScheduler.Analysis
