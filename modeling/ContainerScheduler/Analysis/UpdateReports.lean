/-
# Reservations and reported updates

`schedule_resources` charges exactly the amount it returns, and it never charges
more than the free cores. A pause marks its containers; no other record changes.

`updateExecutionInstance` serves an update out of its reservation. It reports an
amount computed from the share of the policy, while the container keeps every
component for which a value that is not positive is sent. The report is right
exactly when no component that changes is sent such a value.
-/

import ContainerScheduler.Analysis.CoreAccounting
import ContainerScheduler.Analysis.Shares

namespace ContainerScheduler.Analysis

open Host

/-! ## Reservations -/

/-- The containers after a reservation: a pause sets the state of those it
matches. -/
def reservedContainers (request : Request) (infos : List ExecutionInfo) : List ExecutionInfo :=
  match request with
  | .pause requestId => infos.map fun info =>
      if info.containerNumber = requestId then info.setState .pause else info
  | _ => infos

/-- Marking a container that is paused already changes nothing. -/
theorem pausedBy_execInfoList (scheduler : Scheduler) (request : Request) :
    (scheduler.pausedBy request).execInfoList =
      reservedContainers request scheduler.execInfoList := by
  cases request with
  | pause requestId =>
      apply List.map_congr_left
      intro info _
      by_cases hnumber : info.containerNumber = requestId
      · by_cases hstate : info.state = .pause
        · have hmarked : info.setState .pause = info := by
            rw [ExecutionInfo.setState, ← hstate]
          simp [Request.reservesFrom, hnumber, hstate, hmarked]
        · simp [Request.reservesFrom, hnumber, hstate, ExecutionInfo.pauseContainer]
      · simp [Request.reservesFrom, hnumber]
  | _ => rfl

/-- **Reservations are charged as returned.** The cores in use grow by the
returned amount, which the free cores cover, and only a pause changes records. -/
theorem reservation_charged (scheduler : Scheduler) (request : Request)
    (havailable : 0 ≤ scheduler.checkResources) :
    let (returned, after) := scheduleResources scheduler request scheduler.checkResources
    after.systemInfo.coresUsed - scheduler.systemInfo.coresUsed = returned ∧
      returned ≤ scheduler.checkResources ∧
      after.systemInfo.coresUsed ≤ after.systemInfo.cores ∧
      after.systemInfo.cores = scheduler.systemInfo.cores ∧
      after.execInfoList = reservedContainers request scheduler.execInfoList := by
  have hpaused : (scheduler.pausedBy request).systemInfo = scheduler.systemInfo := by
    cases request <;> rfl
  have hle : scheduler.reservation request ≤ scheduler.checkResources := by
    rcases lt_or_ge 0 (request.requestedResources scheduler.execInfoList) with hpos | hnonpos
    · exact reservedAmount_le hpos
    · exact (reservedAmount_of_nonpos hnonpos _).trans_le (hnonpos.trans havailable)
  rw [scheduleResources_eq]
  simp only [Scheduler.charge_coresUsed, Scheduler.charge_cores, Scheduler.charge_execInfoList,
    hpaused, pausedBy_execInfoList, and_true]
  simp only [Scheduler.checkResources, SystemInfo.checkResources] at hle
  refine ⟨by omega, hle, by omega⟩

/-- Eight cores, one container with one inter and two intra threads. -/
def threeInUse : Scheduler :=
  { Scheduler.init 8 16 (.init .fcfs .strict) with
    systemInfo := ⟨8, 3⟩
    execInfoList := [⟨"instance0", "0", 8787, 1, 2, 1, 2, ⟨"instance0", false⟩, "tf", 0, .start⟩] }

/-- A pause frees the three cores of the only container. -/
theorem reservation_charged_for_pause :
    let (returned, after) := scheduleResources threeInUse (.pause "0") threeInUse.checkResources
    after.systemInfo.coresUsed - threeInUse.systemInfo.coresUsed = returned ∧
      returned ≤ threeInUse.checkResources ∧
      after.systemInfo.coresUsed ≤ after.systemInfo.cores ∧
      after.systemInfo.cores = threeInUse.systemInfo.cores ∧
      after.execInfoList = reservedContainers (.pause "0") threeInUse.execInfoList :=
  reservation_charged threeInUse (.pause "0") (by decide)

/-! ## What an update reports -/

/-- The amount reserved for an update out of some available cores. -/
def updateReservation (scheduler : Scheduler) (requestId : String)
    (newInter newIntra priority available : ℤ) : ℤ :=
  (scheduleResources scheduler (.update requestId newInter newIntra priority) available).1

/-- An update reports its change: when it returns success, the one container that
was sent an offer changes its total by the reported amount, which the reservation
covers, and Docker is given the new total; when it returns failure, nothing
changed. -/
def ReportsChange (scheduler : Scheduler) (requestId : String)
    (newInter newIntra reserved : ℤ) : Prop :=
  let trace := updateExecutionInstance scheduler.share (instanceName requestId) newInter newIntra
    reserved scheduler.execInfoList
  trace.exited = false →
    if trace.ok then
      ∃ (front : List ExecutionInfo) (info : ExecutionInfo) (back : List ExecutionInfo)
        (inter intra : ℤ),
        scheduler.execInfoList = front ++ info :: back ∧
        info.containerName = instanceName requestId ∧
        updateOffer scheduler.share info newInter newIntra reserved =
          some (inter, intra, trace.parallelismApply) ∧
        trace.execInfoList = front ++ info.recordUpdate inter intra :: back ∧
        (info.recordUpdate inter intra).execParallelism - info.execParallelism =
          trace.parallelismApply ∧
        trace.parallelismApply ≤ reserved ∧
        info.updateCpus inter intra = (info.recordUpdate inter intra).execParallelism
    else trace.execInfoList = scheduler.execInfoList

section OneContainer

variable (info : ExecutionInfo) (newInter newIntra : ℤ)

/-- The amounts as requested are sent, or with one inter thread when more than
one is asked for in addition. -/
def WholeOfferApplies : Prop :=
  if 1 < newInter - info.interExecParallelism then 0 ≤ info.interExecParallelism
  else newIntra = 0 → info.intraExecParallelism = 0

/-- One inter thread and some intra threads are added. -/
def CutOfferApplies (addedIntra : ℤ) : Prop :=
  0 ≤ info.interExecParallelism ∧ 0 < info.intraExecParallelism + addedIntra

/-- When an update of a running container is reported as it is applied. A
decrease must not ask for no intra thread of a container that has some. An
increase needs available cores; what it adds must leave both components
positive. -/
def UpdateApplies (reassigmentType : ReassigmentType) (factorProp : ℚ)
    (maxResourcesPerCont available : ℤ) : Prop :=
  let addedInter := newInter - info.interExecParallelism
  let addedIntra := newIntra - info.intraExecParallelism
  if addedInter + addedIntra < 0 then newIntra = 0 → info.intraExecParallelism = 0
  else if addedInter + addedIntra = 0 then
    reassigmentType = .strict → newIntra = 0 → info.intraExecParallelism = 0
  else if available < 0 then False
  else
    match reassigmentType with
    | .strict => addedInter + addedIntra ≤ available → WholeOfferApplies info newInter newIntra
    | .maxProp => 2 ≤ available → CutOfferApplies info
        (if available = 2 then 1
          else propIntra factorProp maxResourcesPerCont available addedIntra)
    | .alwaysAttend =>
        if addedInter + addedIntra ≤ available then
          2 ≤ addedInter + addedIntra → WholeOfferApplies info newInter newIntra
        else 2 ≤ available → CutOfferApplies info
          (if addedInter ≤ 0 then available - 1
            else if addedIntra ≤ 0 then 1
            else cutIntra available addedInter addedIntra)

end OneContainer

/-! ### One container -/

section Applied

variable {info : ExecutionInfo} {newInter newIntra reserved : ℤ}

/-- Whatever the container is offered, its total changes by the reported amount,
which the reservation covers, and Docker is given the new total. -/
def OfferReported (share : ℤ → ℤ → ℤ → Option (ℤ × ℤ)) (info : ExecutionInfo)
    (newInter newIntra reserved : ℤ) : Prop :=
  ∀ inter intra applied,
    updateOffer share info newInter newIntra reserved = some (inter, intra, applied) →
    (info.recordUpdate inter intra).execParallelism - info.execParallelism = applied ∧
      applied ≤ reserved ∧
      info.updateCpus inter intra = (info.recordUpdate inter intra).execParallelism

/-- A share is applied as reported when each component that it changes ends
positive, and it fits in the reservation. -/
def ShareApplies (info : ExecutionInfo) (reserved : ℤ) (added : ℤ × ℤ) : Prop :=
  (added.1 ≠ 0 → 0 < info.interExecParallelism + added.1) ∧
    (added.2 ≠ 0 → 0 < info.intraExecParallelism + added.2) ∧ added.1 + added.2 ≤ reserved

/-- What the three ways of sending a share have in common. -/
theorem sent_iff {added : ℤ × ℤ} {sent : ℤ × ℤ × ℤ}
    (hsent : sent = if added.1 ≠ 0 ∧ added.2 ≠ 0 then
        (info.interExecParallelism + added.1, info.intraExecParallelism + added.2,
          added.1 + added.2)
      else if added.1 ≠ 0 then (info.interExecParallelism + added.1, 0, added.1 + added.2)
      else (0, info.intraExecParallelism + added.2, added.1 + added.2)) :
    ((info.recordUpdate sent.1 sent.2.1).execParallelism - info.execParallelism = sent.2.2 ∧
      sent.2.2 ≤ reserved ∧
      info.updateCpus sent.1 sent.2.1 = (info.recordUpdate sent.1 sent.2.1).execParallelism) ↔
      ShareApplies info reserved added := by
  rw [ExecutionInfo.execParallelism_recordUpdate]
  simp only [ShareApplies, ExecutionInfo.updateCpus, ExecutionInfo.execParallelism]
  by_cases hinter : added.1 = 0
  · rw [if_neg (by simp [hinter]), if_neg (by simp [hinter])] at hsent
    subst hsent
    simp only [hinter, lt_irrefl, false_and, if_false]
    split <;> omega
  · by_cases hintra : added.2 = 0
    · rw [if_neg (by simp [hintra]), if_pos hinter] at hsent
      subst hsent
      simp only [hintra, lt_irrefl, and_false, if_false]
      split <;> omega
    · rw [if_pos ⟨hinter, hintra⟩] at hsent
      subst hsent
      simp only
      split_ifs <;> omega

theorem offerReported_of_nonneg {share : ℤ → ℤ → ℤ → Option (ℤ × ℤ)} (hnonneg : 0 ≤ reserved) :
    OfferReported share info newInter newIntra reserved ↔
      ∀ added, share reserved (newInter - info.interExecParallelism)
          (newIntra - info.intraExecParallelism) = some added →
        ShareApplies info reserved added := by
  unfold OfferReported
  simp only [updateOffer, if_neg (not_lt.mpr hnonneg)]
  constructor
  · intro hreported added hshare
    rw [← sent_iff rfl]
    exact hreported _ _ _ (by rw [hshare]; rfl)
  · intro happlies inter intra applied hoffer
    rcases Option.map_eq_some_iff.mp hoffer with ⟨added, hshare, hsent⟩
    exact (sent_iff hsent.symm).mpr (happlies added hshare)

/-- A decrease sends the new amounts as they are. -/
theorem offerReported_of_neg {share : ℤ → ℤ → ℤ → Option (ℤ × ℤ)} (hneg : reserved < 0)
    (hinter : 1 ≤ newInter) (hintra : 0 ≤ newIntra) :
    OfferReported share info newInter newIntra reserved ↔
      newInter + newIntra - info.execParallelism ≤ reserved ∧
        (newIntra = 0 → info.intraExecParallelism = 0) := by
  have hoffer : updateOffer share info newInter newIntra reserved =
      some (newInter, newIntra, newInter + newIntra - info.execParallelism) := if_pos hneg
  have hpos : 0 < newInter := hinter
  unfold OfferReported
  simp only [hoffer, Option.some.injEq, Prod.mk.injEq]
  constructor
  · intro hreported
    rcases hreported _ _ _ ⟨rfl, rfl, rfl⟩ with ⟨hchange, hle, -⟩
    rw [ExecutionInfo.execParallelism_recordUpdate, if_pos hpos] at hchange
    refine ⟨hle, fun hzero => ?_⟩
    rw [hzero, if_neg (lt_irrefl 0)] at hchange
    simp only [ExecutionInfo.execParallelism] at hchange
    omega
  · rintro ⟨hle, hkept⟩ inter intra applied ⟨rfl, rfl, rfl⟩
    rw [ExecutionInfo.execParallelism_recordUpdate, if_pos hpos]
    simp only [ExecutionInfo.updateCpus, ExecutionInfo.execParallelism, hpos, true_and,
      if_true] at *
    by_cases hzero : newIntra = 0
    · rw [hzero, if_neg (lt_irrefl 0), if_neg (lt_irrefl 0)]
      have hnone := hkept hzero
      omega
    · rw [if_pos (by omega), if_pos (by omega)]
      omega

/-- What a request that fits is offered, collapsed or not. -/
theorem shareApplies_collapse {added : ℤ × ℤ} (hinter : 1 ≤ newInter) (hintra : 0 ≤ newIntra)
    (hadded : added = collapseInter (newInter - info.interExecParallelism)
      (newIntra - info.intraExecParallelism))
    (hfits : newInter + newIntra - info.execParallelism ≤ reserved) :
    ShareApplies info reserved added ↔ WholeOfferApplies info newInter newIntra := by
  unfold collapseInter at hadded
  unfold ShareApplies WholeOfferApplies
  simp only [ExecutionInfo.execParallelism] at hfits
  split at hadded <;> subst hadded <;> simp only <;> split_ifs <;> omega

theorem shareApplies_cut {addedIntra : ℤ} (hadds : addedIntra ≠ 0)
    (hfits : 1 + addedIntra ≤ reserved) :
    ShareApplies info reserved (1, addedIntra) ↔ CutOfferApplies info addedIntra := by
  unfold ShareApplies CutOfferApplies
  simp only
  omega

end Applied

section Policies

variable {factorProp : ℚ} {maxResourcesPerCont available : ℤ} {info : ExecutionInfo}
  {newInter newIntra : ℤ}

/-- A request that does not fit under `always_attend`, in all its forms. -/
theorem fractionParallelism_eq {resourcesAvailables inter intra : ℤ}
    (havailable : 2 ≤ resourcesAvailables) :
    let intraP := if inter ≤ 0 then resourcesAvailables - 1
      else if intra ≤ 0 then 1 else cutIntra resourcesAvailables inter intra
    fractionParallelism resourcesAvailables inter intra = (1, intraP) ∧ 1 ≤ intraP ∧
      1 + intraP ≤ resourcesAvailables := by
  by_cases hinter : inter ≤ 0
  · have hnot : ¬0 < inter := not_lt.mpr hinter
    have hmore : ¬resourcesAvailables - 1 = 0 := by omega
    simp only [hinter, if_true, fractionParallelism, hnot, false_and, if_false, zero_add, hmore,
      lt_irrefl, true_and]
    omega
  · have hpos : 0 < inter := not_le.mp hinter
    by_cases hintra : intra ≤ 0
    · have hnot : ¬0 < intra := not_lt.mpr hintra
      have hnone : ¬resourcesAvailables = 0 := by omega
      simp only [hinter, hintra, if_false, if_true, fractionParallelism, hpos, hnot, and_false,
        hnone, zero_add, le_refl, true_and]
      refine ⟨?_, by omega⟩
      split <;> simp only [Prod.mk.injEq, true_and, and_true] <;> omega
    · simp only [hinter, hintra, if_false]
      rcases fractionParallelism_of_pos havailable hpos (not_le.mp hintra) with
        ⟨hcut, hone, hle, -⟩
      exact ⟨hcut, hone, hle⟩

theorem propIntra_ne_zero {intra : ℤ} (havailable : 2 < available) :
    propIntra factorProp maxResourcesPerCont available intra ≠ 0 := by
  simp only [propIntra]
  split <;> omega

section More

variable {addedInter addedIntra : ℤ}

theorem wholeOffer_iff (hinter : 1 ≤ newInter) (hintra : 0 ≤ newIntra)
    (haddedInter : newInter - info.interExecParallelism = addedInter)
    (haddedIntra : newIntra - info.intraExecParallelism = addedIntra) :
    (∀ added, some (collapseInter addedInter addedIntra) = some added →
      ShareApplies info (addedInter + addedIntra) added) ↔
      WholeOfferApplies info newInter newIntra := by
  subst haddedInter haddedIntra
  have hfits : newInter + newIntra - info.execParallelism ≤
      newInter - info.interExecParallelism + (newIntra - info.intraExecParallelism) := by
    simp only [ExecutionInfo.execParallelism]
    omega
  have hwhole := shareApplies_collapse hinter hintra rfl hfits
  constructor
  · intro happlies
    exact hwhole.mp (happlies _ rfl)
  · intro hok added hadded
    exact Option.some.inj hadded ▸ hwhole.mpr hok

/-- Under `strict` a request that does not fit is offered nothing. -/
theorem strictOffer_iff (hinter : 1 ≤ newInter) (hintra : 0 ≤ newIntra)
    (haddedInter : newInter - info.interExecParallelism = addedInter)
    (haddedIntra : newIntra - info.intraExecParallelism = addedIntra)
    (hmore : 0 < addedInter + addedIntra) {reserved : ℤ}
    (hreserved : reserved = if addedInter + addedIntra ≤ available then addedInter + addedIntra
      else available) :
    (∀ added, strictParallelism reserved addedInter addedIntra = some added →
      ShareApplies info reserved added) ↔
      (addedInter + addedIntra ≤ available → WholeOfferApplies info newInter newIntra) := by
  unfold strictParallelism
  by_cases hfits : addedInter + addedIntra ≤ available
  · rw [if_pos hfits] at hreserved
    subst hreserved
    rw [if_pos hmore, if_pos le_rfl, wholeOffer_iff hinter hintra haddedInter haddedIntra]
    exact ⟨fun hok _ => hok, fun hok => hok hfits⟩
  · rw [if_neg hfits] at hreserved
    subst hreserved
    rw [if_pos hmore, if_neg hfits]
    exact iff_of_true nofun fun hle => absurd hle hfits

/-- Under `max_prop` an increase gets one inter thread and a cut of the intra threads. -/
theorem maxPropOffer_iff :
    (∀ added, maxPropParallelism factorProp maxResourcesPerCont available addedIntra = some added →
      ShareApplies info available added) ↔
      (2 ≤ available → CutOfferApplies info
        (if available = 2 then 1
          else propIntra factorProp maxResourcesPerCont available addedIntra)) := by
  rcases lt_or_ge 2 available with hmany | hfew
  · simp only [maxPropParallelism_of_lt hmany, Option.some.injEq, forall_eq', hmany.ne', if_false,
      hmany.le, forall_true_left]
    exact shareApplies_cut (propIntra_ne_zero hmany) propIntra_le
  · simp only [maxPropParallelism_of_le hfew]
    by_cases htwo : available = 2
    · simp only [htwo, if_true, Option.some.injEq, forall_eq', le_refl, forall_true_left]
      exact shareApplies_cut one_ne_zero (by decide)
    · have hless : ¬2 ≤ available := fun hle => htwo (le_antisymm hfew hle)
      simp [htwo, hless]

/-- Under `always_attend` a request that does not fit is cut to the available cores. -/
theorem alwaysAttendOffer_iff (hinter : 1 ≤ newInter) (hintra : 0 ≤ newIntra)
    (haddedInter : newInter - info.interExecParallelism = addedInter)
    (haddedIntra : newIntra - info.intraExecParallelism = addedIntra) {reserved : ℤ}
    (hreserved : reserved = if addedInter + addedIntra ≤ available then addedInter + addedIntra
      else available) :
    (∀ added, alwaysAttendParallelism reserved addedInter addedIntra = some added →
      ShareApplies info reserved added) ↔
      if addedInter + addedIntra ≤ available then
        2 ≤ addedInter + addedIntra → WholeOfferApplies info newInter newIntra
      else 2 ≤ available → CutOfferApplies info
        (if addedInter ≤ 0 then available - 1
          else if addedIntra ≤ 0 then 1
          else cutIntra available addedInter addedIntra) := by
  unfold alwaysAttendParallelism
  by_cases hfits : addedInter + addedIntra ≤ available
  · rw [if_pos hfits] at hreserved
    subst hreserved
    rw [if_pos hfits, if_pos le_rfl]
    by_cases hmany : 2 ≤ addedInter + addedIntra
    · rw [if_pos hmany, wholeOffer_iff hinter hintra haddedInter haddedIntra]
      exact ⟨fun hok _ => hok, fun hok => hok hmany⟩
    · rw [if_neg hmany]
      exact iff_of_true nofun fun hle => absurd hle hmany
  · rw [if_neg hfits] at hreserved
    subst hreserved
    rw [if_neg hfits, if_neg hfits]
    by_cases hmany : 2 ≤ reserved
    · rcases @fractionParallelism_eq reserved addedInter addedIntra hmany with ⟨hcut, hone, hle⟩
      simp only [hmany, if_true, Option.some.injEq, forall_eq', forall_true_left, hcut]
      exact shareApplies_cut (by omega) hle
    · rw [if_neg hmany]
      exact iff_of_true nofun fun hle => absurd hle hmany

end More

/-- Out of the cores reserved for it, an update of a running container is reported
as it is applied exactly when `UpdateApplies` says so. -/
theorem offerReported_iff (reassigmentType : ReassigmentType) (hinter : 1 ≤ newInter)
    (hintra : 0 ≤ newIntra) :
    OfferReported (scheduleParallelism reassigmentType factorProp maxResourcesPerCont) info
        newInter newIntra
        (reservedAmount reassigmentType (newInter + newIntra - info.execParallelism) available) ↔
      UpdateApplies info newInter newIntra reassigmentType factorProp maxResourcesPerCont
        available := by
  have hrequested : newInter + newIntra - info.execParallelism =
      newInter - info.interExecParallelism + (newIntra - info.intraExecParallelism) := by
    simp only [ExecutionInfo.execParallelism]
    omega
  simp only [UpdateApplies]
  rw [hrequested]
  generalize haddedInter : newInter - info.interExecParallelism = addedInter
  generalize haddedIntra : newIntra - info.intraExecParallelism = addedIntra
  rw [haddedInter, haddedIntra] at hrequested
  rcases lt_trichotomy (addedInter + addedIntra) 0 with hless | hsame | hmore
  · rw [reservedAmount_of_nonpos hless.le, if_pos hless,
      offerReported_of_neg hless hinter hintra, hrequested]
    simp
  · rw [reservedAmount_of_nonpos hsame.le, hsame, if_neg (lt_irrefl 0), if_pos rfl,
      offerReported_of_nonneg le_rfl, haddedInter, haddedIntra]
    cases reassigmentType with
    | strict =>
        simp only [scheduleParallelism, strictParallelism, hsame, lt_irrefl, if_false,
          Option.some.injEq, forall_eq', forall_true_left]
        unfold ShareApplies
        simp only
        omega
    | maxProp => simp [scheduleParallelism, maxPropParallelism]
    | alwaysAttend => simp [scheduleParallelism, alwaysAttendParallelism]
  · rw [if_neg (not_lt.mpr hmore.le), if_neg hmore.ne']
    by_cases hnone : available < 0
    · have hreserved : reservedAmount reassigmentType (addedInter + addedIntra) available =
          available := by
        rw [reservedAmount, if_neg (by omega), if_pos hmore]
      rw [hreserved, if_pos hnone, offerReported_of_neg hnone hinter hintra, hrequested]
      exact ⟨fun happlies => by omega, False.elim⟩
    · rw [if_neg hnone]
      have hreserved : reservedAmount reassigmentType (addedInter + addedIntra) available =
          if addedInter + addedIntra ≤ available ∧ reassigmentType ≠ .maxProp then
            addedInter + addedIntra else available := by
        unfold reservedAmount
        split_ifs <;> first | rfl | (exfalso; simp_all)
      have hnonneg : 0 ≤ reservedAmount reassigmentType (addedInter + addedIntra) available := by
        rw [hreserved]
        split <;> omega
      rw [offerReported_of_nonneg hnonneg, haddedInter, haddedIntra]
      cases reassigmentType with
      | strict =>
          exact strictOffer_iff hinter hintra haddedInter haddedIntra hmore
            (by simpa using hreserved)
      | maxProp =>
          rw [hreserved, if_neg (by simp)]
          exact maxPropOffer_iff
      | alwaysAttend =>
          exact alwaysAttendOffer_iff hinter hintra haddedInter haddedIntra
            (by simpa using hreserved)

end Policies

/-! ### The loop over the containers -/

section Loop

variable {share : ℤ → ℤ → ℤ → Option (ℤ × ℤ)} {name : String} {newInter newIntra reserved : ℤ}

/-- The loop passes over the containers of other names. -/
theorem updateExecutionLoop_append {front : List ExecutionInfo}
    (hfront : ∀ other ∈ front, other.containerName ≠ name) (ok : Bool) (applied : ℤ)
    (rest : List ExecutionInfo) :
    updateExecutionLoop share name newInter newIntra reserved ok applied (front ++ rest) =
      let trace := updateExecutionLoop share name newInter newIntra reserved ok applied rest
      { trace with execInfoList := front ++ trace.execInfoList } := by
  induction front with
  | nil => rfl
  | cons first front ih =>
      have hother := hfront first List.mem_cons_self
      rw [List.cons_append, updateExecutionLoop, if_neg hother,
        ih fun other hmem => hfront other (List.mem_cons_of_mem first hmem)]
      rfl

/-- The only container of a name is updated when it runs and is offered a share;
a broken connection ends the thread. -/
theorem updateExecutionInstance_of_split {front back : List ExecutionInfo} {info : ExecutionInfo}
    (hname : info.containerName = name) (hfront : ∀ other ∈ front, other.containerName ≠ name)
    (hback : ∀ other ∈ back, other.containerName ≠ name) :
    updateExecutionInstance share name newInter newIntra reserved (front ++ info :: back) =
      if info.state ≠ .start then ⟨false, false, 0, front ++ info :: back⟩
      else
        match updateOffer share info newInter newIntra reserved with
        | none => ⟨false, false, 0, front ++ info :: back⟩
        | some (inter, intra, applied) =>
            if info.clientsocket.failed then ⟨true, false, 0, front ++ info :: back⟩
            else ⟨false, true, applied, front ++ info.recordUpdate inter intra :: back⟩ := by
  rw [updateExecutionInstance, updateExecutionLoop_append hfront, updateExecutionLoop, if_pos hname]
  by_cases hstate : info.state = .start
  · simp only [hstate, ne_eq, not_true_eq_false, if_false]
    cases updateOffer share info newInter newIntra reserved with
    | none => simp [updateExecutionLoop_of_unlisted hback, UpdateTrace.after]
    | some offered =>
        cases hfailed : info.clientsocket.failed with
        | true => simp [ExecutionInfo.updateParallelism, hfailed]
        | false =>
            simp [ExecutionInfo.updateParallelism, hfailed, updateExecutionLoop_of_unlisted hback,
              UpdateTrace.after]
  · simp [hstate, updateExecutionLoop_of_unlisted hback, UpdateTrace.after]

/-- Distinct names single a container out of the list. -/
theorem split_of_distinct {infos : List ExecutionInfo} {info : ExecutionInfo}
    (hdistinct : (infos.map ExecutionInfo.containerName).Nodup) (hmem : info ∈ infos) :
    ∃ front back, infos = front ++ info :: back ∧
      (∀ other ∈ front, other.containerName ≠ info.containerName) ∧
      ∀ other ∈ back, other.containerName ≠ info.containerName := by
  rcases List.append_of_mem hmem with ⟨front, back, rfl⟩
  rw [List.map_append, List.map_cons, List.nodup_middle, List.nodup_cons, List.mem_append,
    not_or] at hdistinct
  refine ⟨front, back, rfl, fun other hother heq => ?_, fun other hother heq => ?_⟩
  · exact hdistinct.1.1 (heq ▸ List.mem_map_of_mem hother)
  · exact hdistinct.1.2 (heq ▸ List.mem_map_of_mem hother)

theorem reportsChange_iff {scheduler : Scheduler} {requestId : String}
    (hdistinct : (scheduler.execInfoList.map ExecutionInfo.containerName).Nodup) :
    ReportsChange scheduler requestId newInter newIntra reserved ↔
      ∀ info ∈ scheduler.execInfoList, info.containerName = instanceName requestId →
        info.state = .start → info.clientsocket.failed = false →
        OfferReported scheduler.share info newInter newIntra reserved := by
  by_cases hlisted : ∃ info ∈ scheduler.execInfoList, info.containerName = instanceName requestId
  · rcases hlisted with ⟨info, hmem, hname⟩
    rcases split_of_distinct hdistinct hmem with ⟨front, back, hsplit, hfront, hback⟩
    rw [hname] at hfront hback
    have htrace := @updateExecutionInstance_of_split scheduler.share _ newInter newIntra reserved
      front back info hname hfront hback
    have hsole : ∀ other ∈ scheduler.execInfoList,
        other.containerName = instanceName requestId → other = info := fun other hother heq => by
      rw [hsplit, List.mem_append, List.mem_cons] at hother
      rcases hother with hother | rfl | hother
      · exact absurd heq (hfront other hother)
      · rfl
      · exact absurd heq (hback other hother)
    have hall : (∀ other ∈ scheduler.execInfoList,
        other.containerName = instanceName requestId → other.state = .start →
          other.clientsocket.failed = false →
          OfferReported scheduler.share other newInter newIntra reserved) ↔
        (info.state = .start → info.clientsocket.failed = false →
          OfferReported scheduler.share info newInter newIntra reserved) := by
      constructor
      · exact fun hreported => hreported info hmem hname
      · intro hreported other hother heq
        rw [hsole other hother heq]
        exact hreported
    rw [← hsplit] at htrace
    rw [hall, ReportsChange, htrace]
    by_cases hstate : info.state = .start
    · simp only [hstate, ne_eq, not_true_eq_false, if_false, forall_true_left]
      cases hoffer : updateOffer scheduler.share info newInter newIntra reserved with
      | none => simp [OfferReported, hoffer]
      | some offered =>
          rcases offered with ⟨inter, intra, applied⟩
          cases hfailed : info.clientsocket.failed with
          | true => simp
          | false =>
              simp only [Bool.false_eq_true, if_false, if_true, forall_true_left]
              constructor
              · rintro ⟨front', info', back', inter', intra', hsplit', hname', hoffer', -, hreport⟩
                have hsame : info' = info := by
                  apply hsole info' _ hname'
                  rw [hsplit']
                  exact List.mem_append_right _ List.mem_cons_self
                subst hsame
                intro inter'' intra'' applied'' hoffer''
                rw [hoffer', Option.some.injEq] at hoffer''
                obtain ⟨rfl, rfl, rfl⟩ := hoffer''
                exact hreport
              · intro hreported
                exact ⟨front, info, back, inter, intra, hsplit, hname, hoffer, rfl,
                  hreported _ _ _ hoffer⟩
    · simp [hstate]
  · have hunlisted : ∀ info ∈ scheduler.execInfoList,
        info.containerName ≠ instanceName requestId := fun info hmem hname =>
      hlisted ⟨info, hmem, hname⟩
    have htrace := @updateExecutionLoop_of_unlisted scheduler.share _ newInter newIntra reserved
      false 0 _ hunlisted
    unfold ReportsChange updateExecutionInstance
    rw [htrace]
    simp only [Bool.false_eq_true, if_false, forall_true_left, true_iff]
    intro info hmem hname
    exact absurd hname (hunlisted info hmem)

/-- The amount requested by an update is the one its container lacks. -/
theorem requestedResources_of_distinct {infos : List ExecutionInfo} {info : ExecutionInfo}
    {requestId : String} {priority : ℤ}
    (hdistinct : (infos.map ExecutionInfo.containerName).Nodup) (hmem : info ∈ infos)
    (hname : info.containerName = instanceName requestId) (hstate : info.state = .start) :
    (Request.update requestId newInter newIntra priority).requestedResources infos =
      newInter + newIntra - info.execParallelism := by
  rcases split_of_distinct hdistinct hmem with ⟨front, back, rfl, hfront, hback⟩
  have hskip : ∀ (others : List ExecutionInfo) (requested : ℤ),
      (∀ other ∈ others, other.containerName ≠ info.containerName) →
      others.foldl (fun requested other =>
        if (Request.update requestId newInter newIntra priority).reservesFrom other then
          (Request.update requestId newInter newIntra priority).reservedFrom other
        else requested) requested = requested := by
    intro others requested hothers
    induction others with
    | nil => rfl
    | cons other others ih =>
        have hother := hothers other List.mem_cons_self
        rw [hname] at hother
        rw [List.foldl_cons, if_neg (by simp [Request.reservesFrom, hother])]
        exact ih fun later hlater => hothers later (List.mem_cons_of_mem other hlater)
  rw [Request.requestedResources, List.foldl_append, List.foldl_cons, hskip back _ hback,
    if_pos (by simp [Request.reservesFrom, hname, hstate])]
  · rfl
  · exact nofun

end Loop

/-- **When an update reports its change.** For the reservation of any amount of
available cores, under every policy. -/
theorem update_reports_change_iff {scheduler : Scheduler} {requestId : String}
    {newInter newIntra : ℤ}
    (hdistinct : (scheduler.execInfoList.map ExecutionInfo.containerName).Nodup)
    (hinter : 1 ≤ newInter) (hintra : 0 ≤ newIntra) (priority available : ℤ) :
    ReportsChange scheduler requestId newInter newIntra
        (updateReservation scheduler requestId newInter newIntra priority available) ↔
      ∀ info ∈ scheduler.execInfoList, info.containerName = instanceName requestId →
        info.state = .start → info.clientsocket.failed = false →
        UpdateApplies info newInter newIntra scheduler.schedulerContainer.reassigmentType
          scheduler.schedulerContainer.factorProp scheduler.maxResourcesPerCont available := by
  have hreserved : updateReservation scheduler requestId newInter newIntra priority available =
      reservedAmount scheduler.schedulerContainer.reassigmentType
        ((Request.update requestId newInter newIntra priority).requestedResources
          scheduler.execInfoList) available := by
    unfold updateReservation scheduleResources
    simp only
    split <;> rfl
  rw [reportsChange_iff hdistinct, hreserved]
  apply forall₂_congr
  intro info hmem
  refine imp_congr_right fun hname => imp_congr_right fun hstate => imp_congr_right fun _ => ?_
  rw [requestedResources_of_distinct hdistinct hmem hname hstate]
  exact offerReported_iff _ hinter hintra

/-- The container of three cores asks for two more intra threads. -/
theorem update_reports_change_of_increase :
    ReportsChange threeInUse "0" 1 4 (updateReservation threeInUse "0" 1 4 0 5) ↔
      ∀ info ∈ threeInUse.execInfoList, info.containerName = instanceName "0" →
        info.state = .start → info.clientsocket.failed = false →
        UpdateApplies info 1 4 .strict 1 16 5 :=
  update_reports_change_iff (by decide) (by decide) (by decide) 0 5

/-- It asks for no intra thread: a decrease by two is reported, and none happens. -/
theorem dropped_intra_reported :
    updateReservation threeInUse "0" 1 0 0 5 = -2 ∧
      updateExecutionInstance threeInUse.share "instance0" 1 0 (-2) threeInUse.execInfoList =
        ⟨false, true, -2, threeInUse.execInfoList⟩ ∧
      ¬ReportsChange threeInUse "0" 1 0 (updateReservation threeInUse "0" 1 0 0 5) := by
  refine ⟨by decide +kernel, by decide +kernel, ?_⟩
  rw [update_reports_change_iff (by decide) (by decide) (by decide)]
  intro happlies
  have hnone := happlies _ List.mem_cons_self (by decide +kernel) rfl rfl
  exact absurd (hnone rfl) (by decide)

end ContainerScheduler.Analysis
