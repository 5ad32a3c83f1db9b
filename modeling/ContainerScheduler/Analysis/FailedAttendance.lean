/-
# Failed attendances

When a request cannot be served, the attention thread frees the whole amount it
had reserved. `scheduleRequest` may already have freed part of that reservation:
it returns the surplus of the share over the reservation whether or not the
container came up. This module states exactly when the two releases add up to
the reservation.

Three situations refuse a request before any surplus exists: nothing was
reserved, the policy returns no share, or the memory check fails. After five
time-outs of the listening socket the surplus has been returned, and the books
balance only if there was none.
-/

import ContainerScheduler.Host.Attendance

namespace ContainerScheduler.Analysis

open Host

/-- The share of every listed container, with its name. -/
def execShares (infos : List ExecutionInfo) : List (String × ℤ × ℤ) :=
  infos.map fun info => (info.containerName, info.interExecParallelism, info.intraExecParallelism)

/-- The cores in use and the share of every container are the same. -/
def SameAccounting (before after : Scheduler) : Prop :=
  after.systemInfo.coresUsed = before.systemInfo.coresUsed ∧
    execShares after.execInfoList = execShares before.execInfoList

instance (before after : Scheduler) : Decidable (SameAccounting before after) := by
  unfold SameAccounting
  infer_instance

/-- No surplus is freed at the end of a call: the share is zero or uses up the
reservation. -/
def NoSurplus (parallelismApply resourcesAvailables : ℤ) : Prop :=
  parallelismApply = 0 ∨ resourcesAvailables ≤ parallelismApply

instance (parallelismApply resourcesAvailables : ℤ) :
    Decidable (NoSurplus parallelismApply resourcesAvailables) := by
  unfold NoSurplus
  infer_instance

/-- The values an update sends repeat what the container already has. -/
def RepeatsShare (info : ExecutionInfo) (inter intra : ℤ) : Prop :=
  (0 < inter → inter = info.interExecParallelism) ∧
    (0 < intra → intra = info.intraExecParallelism)

theorem repeatsShare_iff {info : ExecutionInfo} {inter intra : ℤ} :
    RepeatsShare info inter intra ↔
      (info.recordUpdate inter intra).interExecParallelism = info.interExecParallelism ∧
        (info.recordUpdate inter intra).intraExecParallelism = info.intraExecParallelism := by
  simp [RepeatsShare, ExecutionInfo.recordUpdate]

/-- The amount offered to the last running container of a name that the policy
does not refuse, or the given one when there is none. -/
def lastOffered (share : ℤ → ℤ → ℤ → Option (ℤ × ℤ)) (containerName : String)
    (newInter newIntra available : ℤ) : ℤ → List ExecutionInfo → ℤ
  | applied, [] => applied
  | applied, info :: infos =>
      if info.containerName = containerName ∧ info.state = .start then
        match updateOffer share info newInter newIntra available with
        | none => lastOffered share containerName newInter newIntra available applied infos
        | some (_, _, offered) =>
            lastOffered share containerName newInter newIntra available offered infos
      else lastOffered share containerName newInter newIntra available applied infos

/-- The condition under which a refused request leaves no trace. A launch must
not have been granted less than was reserved for it. An update must not have
reached a container of the name before a later one of the same name refused. -/
def FailsCleanly (scheduler : Scheduler) (request : Request) (env : RequestEnv) : Prop :=
  let reserved := scheduler.reservation request
  reserved = 0 ∨
    match request with
    | .start .. | .restart .. =>
        env.memoryBelowLimit = true → ∀ inter intra,
          scheduler.share reserved request.getInterParallelism request.getIntraParallelism =
            some (inter, intra) → NoSurplus (inter + intra) reserved
    | .update requestId newInter newIntra _ =>
        (∀ info ∈ scheduler.execInfoList, info.containerName = instanceName requestId →
          info.state = .start → ∀ inter intra applied,
            updateOffer scheduler.share info newInter newIntra reserved =
              some (inter, intra, applied) → RepeatsShare info inter intra) ∧
        NoSurplus (lastOffered scheduler.share (instanceName requestId) newInter newIntra
          reserved 0 scheduler.execInfoList) reserved
    | .resume _ | .pause _ => True

/-! ## The final release -/

/-- The final release leaves the cores in use alone exactly when there is no
surplus. -/
theorem freeExceeded_coresUsed_eq_iff (scheduler : Scheduler) (applied available : ℤ) :
    (freeExceeded scheduler applied available).systemInfo.coresUsed =
      scheduler.systemInfo.coresUsed ↔ NoSurplus applied available := by
  unfold freeExceeded NoSurplus
  split
  · simp only [Scheduler.freeResources_eq_charge, Scheduler.charge_coresUsed]
    omega
  · simp only [true_iff]
    omega

/-- After the caller's release of a reservation that was charged before the call,
the books balance exactly when the call kept the cores in use and the shares. -/
theorem sameAccounting_after_release (scheduler served : Scheduler) (reserved : ℤ) :
    SameAccounting scheduler (served.freeResources reserved) ↔
      served.systemInfo.coresUsed = (scheduler.charge reserved).systemInfo.coresUsed ∧
        execShares served.execInfoList = execShares scheduler.execInfoList := by
  simp only [SameAccounting, Scheduler.freeResources_eq_charge, Scheduler.charge_coresUsed,
    Scheduler.charge_execInfoList]
  constructor <;> rintro ⟨hused, hshares⟩ <;> exact ⟨by omega, hshares⟩

/-! ## The update loop -/

theorem execShares_cons_eq_iff {info updated : ExecutionInfo} {infos others : List ExecutionInfo}
    (hname : updated.containerName = info.containerName) :
    execShares (updated :: infos) = execShares (info :: others) ↔
      (updated.interExecParallelism = info.interExecParallelism ∧
        updated.intraExecParallelism = info.intraExecParallelism) ∧
      execShares infos = execShares others := by
  simp [execShares, hname]

section UpdateLoop

variable {share : ℤ → ℤ → ℤ → Option (ℤ × ℤ)} {containerName : String}
  {newInter newIntra available : ℤ}

/-- An update loop that ran to its end kept every share exactly when each
container it offered something to was offered what it had. -/
theorem updateExecutionLoop_keeps_iff (ok : Bool) (applied : ℤ) (infos : List ExecutionInfo)
    (hended : (updateExecutionLoop share containerName newInter newIntra available
      ok applied infos).exited = false) :
    execShares (updateExecutionLoop share containerName newInter newIntra available
        ok applied infos).execInfoList = execShares infos ↔
      ∀ info ∈ infos, info.containerName = containerName → info.state = .start →
        ∀ inter intra amount, updateOffer share info newInter newIntra available =
          some (inter, intra, amount) → RepeatsShare info inter intra := by
  induction infos generalizing ok applied with
  | nil => simp [updateExecutionLoop]
  | cons info infos ih =>
      rw [updateExecutionLoop] at hended ⊢
      by_cases hname : info.containerName = containerName
      · by_cases hstate : info.state = .start
        · simp only [hname, hstate, if_true, ne_eq, not_true_eq_false, if_false] at hended ⊢
          cases hoffer : updateOffer share info newInter newIntra available with
          | none =>
              simp only [hoffer, UpdateTrace.after] at hended ⊢
              rw [execShares_cons_eq_iff rfl, ih _ _ hended]
              simp [hoffer]
          | some offer =>
              obtain ⟨inter, intra, amount⟩ := offer
              simp only [hoffer] at hended ⊢
              cases hsent : info.updateParallelism inter intra with
              | none => simp [hsent] at hended
              | some updated =>
                  obtain ⟨-, rfl⟩ := ExecutionInfo.updateParallelism_eq_some.mp hsent
                  simp only [hsent, UpdateTrace.after] at hended ⊢
                  rw [execShares_cons_eq_iff (info.recordUpdate_containerName inter intra),
                    ih _ _ hended]
                  simp [hoffer, hname, hstate, repeatsShare_iff]
        · simp only [hname, hstate, if_true, ne_eq, not_false_eq_true, UpdateTrace.after]
            at hended ⊢
          rw [execShares_cons_eq_iff rfl, ih _ _ hended]
          simp [hstate]
      · simp only [hname, if_false, UpdateTrace.after] at hended ⊢
        rw [execShares_cons_eq_iff rfl, ih _ _ hended]
        simp [hname]

theorem lastOffered_of_unlisted {applied : ℤ} {infos : List ExecutionInfo}
    (hunlisted : ∀ info ∈ infos, info.containerName ≠ containerName) :
    lastOffered share containerName newInter newIntra available applied infos = applied := by
  induction infos with
  | nil => rfl
  | cons info infos ih =>
      have hrest := ih fun other hmem => hunlisted other (List.mem_cons_of_mem info hmem)
      simp [lastOffered, hunlisted info List.mem_cons_self, hrest]

theorem parallelismApply_updateExecutionLoop (ok : Bool) (applied : ℤ)
    (infos : List ExecutionInfo)
    (hended : (updateExecutionLoop share containerName newInter newIntra available
      ok applied infos).exited = false) :
    (updateExecutionLoop share containerName newInter newIntra available
        ok applied infos).parallelismApply =
      lastOffered share containerName newInter newIntra available applied infos := by
  induction infos generalizing ok applied with
  | nil => rfl
  | cons info infos ih =>
      rw [updateExecutionLoop] at hended ⊢
      rw [lastOffered]
      by_cases hname : info.containerName = containerName
      · by_cases hstate : info.state = .start
        · simp only [hname, hstate, if_true, ne_eq, not_true_eq_false, if_false, and_self]
            at hended ⊢
          cases hoffer : updateOffer share info newInter newIntra available with
          | none =>
              simp only [hoffer, UpdateTrace.after] at hended ⊢
              exact ih _ _ hended
          | some offer =>
              obtain ⟨inter, intra, amount⟩ := offer
              simp only [hoffer] at hended ⊢
              cases hsent : info.updateParallelism inter intra with
              | none => simp [hsent] at hended
              | some updated =>
                  simp only [hsent, UpdateTrace.after] at hended ⊢
                  exact ih _ _ hended
        · simp only [hname, hstate, if_true, ne_eq, not_false_eq_true, and_false, if_false,
            UpdateTrace.after] at hended ⊢
          exact ih _ _ hended
      · simp only [hname, if_false, false_and, UpdateTrace.after] at hended ⊢
        exact ih _ _ hended

end UpdateLoop

/-! ## The resume loop -/

theorem resumeLoop_of_state_zero {share : ℤ → ℤ → ℤ → Option (ℤ × ℤ)} {requestId : String}
    {available : ℤ} (applied : ℤ) (state : ℕ) (infos : List ExecutionInfo)
    (hfail : (resumeLoop share requestId available applied state infos).2.1 = 0) :
    state = 0 ∧ resumeLoop share requestId available applied state infos = (applied, 0, infos) := by
  induction infos generalizing applied state with
  | nil =>
      have hstate : state = 0 := hfail
      simp [resumeLoop, hstate]
  | cons info infos ih =>
      rw [resumeLoop] at hfail ⊢
      by_cases hnumber : info.containerNumber = requestId
      · cases hshare : share available info.interExecParallelism info.intraExecParallelism with
        | none =>
            simp only [hnumber, if_true, hshare] at hfail ⊢
            obtain ⟨rfl, hrest⟩ := ih applied state hfail
            simp [hrest]
        | some granted =>
            simp only [hnumber, if_true, hshare] at hfail
            have hcontra := (ih _ _ hfail).1
            omega
      · simp only [hnumber, if_false] at hfail ⊢
        obtain ⟨rfl, hrest⟩ := ih applied state hfail
        simp [hrest]

/-! ## Refused calls -/

/-- A call keeps the accounting of the scheduler it was given. -/
def KeepsAccounting (given served : Scheduler) : Prop :=
  served.systemInfo.coresUsed = given.systemInfo.coresUsed ∧
    execShares served.execInfoList = execShares given.execInfoList

theorem keepsAccounting_freeExceeded_iff (given : Scheduler) (applied available : ℤ) :
    KeepsAccounting given (freeExceeded given applied available) ↔ NoSurplus applied available := by
  rw [KeepsAccounting, freeExceeded_coresUsed_eq_iff, freeExceeded_execInfoList]
  exact and_iff_left rfl

/-- A refused launch keeps the accounting unless Docker ran for a share smaller
than the reservation. -/
theorem launchContainer_keeps_iff {given served : Scheduler} {request : Request} {port : ℕ}
    {env : RequestEnv} {available : ℤ}
    (hrefused : launchContainer given request port env available = .returned 0 served) :
    KeepsAccounting given served ↔
      (env.memoryBelowLimit = true → ∀ inter intra,
        given.share available request.getInterParallelism request.getIntraParallelism =
          some (inter, intra) → NoSurplus (inter + intra) available) := by
  unfold launchContainer at hrefused
  cases hshare : given.share available request.getInterParallelism
      request.getIntraParallelism with
  | none =>
      simp only [hshare, Answer.returned.injEq, true_and] at hrefused
      subst hrefused
      simp [KeepsAccounting]
  | some granted =>
      obtain ⟨inter, intra⟩ := granted
      cases hmemory : env.memoryBelowLimit with
      | false =>
          simp only [hshare, hmemory, Bool.false_eq_true, if_false, Answer.returned.injEq,
            true_and] at hrefused
          subst hrefused
          simp [KeepsAccounting]
      | true =>
          cases hdocker : env.dockerStderr with
          | true => simp [hshare, hmemory, hdocker] at hrefused
          | false =>
              simp only [hshare, hmemory, hdocker, Bool.false_eq_true, if_true, if_false]
                at hrefused
              cases haccept : acceptLoop acceptAttempts env.accepts with
              | none => simp [haccept] at hrefused
              | some connection =>
                  cases connection with
                  | some socket => simp [haccept] at hrefused
                  | none =>
                      simp only [haccept, Answer.returned.injEq, true_and] at hrefused
                      subst hrefused
                      rw [keepsAccounting_freeExceeded_iff]
                      simp

/-- A refused update keeps the accounting exactly when it changed no share and
freed no surplus. -/
theorem serveUpdate_keeps_iff {given served : Scheduler} {containerName : String}
    {newInter newIntra available : ℤ}
    (hrefused : serveUpdate given containerName newInter newIntra available =
      .returned 0 served) :
    KeepsAccounting given served ↔
      (∀ info ∈ given.execInfoList, info.containerName = containerName →
        info.state = .start → ∀ inter intra applied,
          updateOffer given.share info newInter newIntra available =
            some (inter, intra, applied) → RepeatsShare info inter intra) ∧
      NoSurplus (lastOffered given.share containerName newInter newIntra available 0
        given.execInfoList) available := by
  unfold serveUpdate at hrefused
  have hended : (updateExecutionInstance given.share containerName newInter newIntra available
      given.execInfoList).exited = false := by
    by_contra hexited
    rw [Bool.not_eq_false] at hexited
    simp [hexited] at hrefused
  simp only [hended, Bool.false_eq_true, if_false, Answer.returned.injEq] at hrefused
  obtain ⟨-, rfl⟩ := hrefused
  have hused := freeExceeded_coresUsed_eq_iff
    { given with execInfoList := (updateExecutionInstance given.share containerName newInter
        newIntra available given.execInfoList).execInfoList }
    (updateExecutionInstance given.share containerName newInter newIntra available
      given.execInfoList).parallelismApply available
  rw [KeepsAccounting, hused, freeExceeded_execInfoList, and_comm,
    ← parallelismApply_updateExecutionLoop false 0 given.execInfoList hended]
  exact and_congr_left' (updateExecutionLoop_keeps_iff false 0 given.execInfoList hended)

/-- A refused resume changes nothing. -/
theorem serveResume_of_refused {given served : Scheduler} {requestId : String} {available : ℤ}
    (hrefused : serveResume given requestId available = .returned 0 served) :
    served = given := by
  unfold serveResume at hrefused
  obtain ⟨hstate, rfl⟩ := Answer.returned.inj hrefused
  obtain ⟨-, hloop⟩ := resumeLoop_of_state_zero 0 0 given.execInfoList hstate
  simp [hloop, freeExceeded]

/-! ## Refused requests -/

section Launch

/-- Eight free cores under `max_prop`, where the measured demand is two cores. -/
def measuredIdle : Scheduler :=
  .init 8 16 { SchedulingPolicy.init .fcfs .maxProp with factorProp := 1 / 4 }

/-- The container is started and never connects: five time-outs. -/
def silentContainer : RequestEnv := ⟨true, false, List.replicate 5 .timeout⟩

end Launch

end ContainerScheduler.Analysis
