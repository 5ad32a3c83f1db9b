/-
# Reassignments that charge what they hand out

A reassignment pass is in order when the cores that remain and the cores held
afterwards add up to the free cores and the cores held before. This is a
property of each visit, and the pass conditions below say of each visit that it
avoids the branches where the amount taken off is not the amount recorded:

* a full top-up under `strict` sends the user's figure but is charged the
  required parallelism, which is cut to the maximum for one container;
* a top-up to the maximum under `max_prop` is charged the whole maximum, not the
  difference to what the container had.
-/

import ContainerScheduler.Analysis.CoreAccounting

namespace ContainerScheduler.Analysis

open Host

/-! ## Conditions on a visit -/

/-- A visit under `strict` that tops up in full is not cut to the maximum, and
what it sends is positive. -/
def StrictVisitOk (maxResourcesPerCont available : ℤ) (container : ExecutionInfo) : Prop :=
  let interDeficit := container.interUserParallelism - container.interExecParallelism
  let intraDeficit := container.intraUserParallelism - container.intraExecParallelism
  let interRequired := parallelismRequired maxResourcesPerCont
    container.interUserParallelism container.interExecParallelism
  let intraRequired := parallelismRequired maxResourcesPerCont
    container.intraUserParallelism container.intraExecParallelism
  if 0 < interRequired ∧ 0 < intraRequired then
    if interRequired + intraRequired ≤ available then
      (interDeficit ≤ maxResourcesPerCont ∧ 0 < container.interUserParallelism) ∧
        (intraDeficit ≤ maxResourcesPerCont ∧ 0 < container.intraUserParallelism)
    else 0 < container.intraExecParallelism + min intraRequired available
  else if 0 < intraRequired then
    if intraRequired ≤ available then
      intraDeficit ≤ maxResourcesPerCont ∧ 0 < container.intraUserParallelism
    else 0 < container.intraExecParallelism + available
  else if 0 < interRequired then
    if interRequired ≤ available then
      interDeficit ≤ maxResourcesPerCont ∧ 0 < container.interUserParallelism
    else 0 < container.interExecParallelism + available
  else True

/-- A visit under `max_prop` is not cut to the maximum, unless the container has
no intra parallelism, and what it sends is positive. -/
def MaxpropVisitOk (maxResourcesPerCont maxpropFactor : ℤ) (_available : ℤ)
    (container : ExecutionInfo) : Prop :=
  if container.intraExecParallelism + maxpropFactor ≤ maxResourcesPerCont then
    0 < container.intraExecParallelism + maxpropFactor
  else container.intraExecParallelism = 0

instance (maxResourcesPerCont available : ℤ) (container : ExecutionInfo) :
    Decidable (StrictVisitOk maxResourcesPerCont available container) := by
  unfold StrictVisitOk
  infer_instance

instance (maxResourcesPerCont maxpropFactor available : ℤ) (container : ExecutionInfo) :
    Decidable (MaxpropVisitOk maxResourcesPerCont maxpropFactor available container) := by
  unfold MaxpropVisitOk
  infer_instance

/-- What a top-up takes off the free cores is what its container's record gains. -/
def Recorded (container : ExecutionInfo) (granted : TopUp) : Prop :=
  RecordsChange container granted.interParallelism granted.intraParallelism granted.charged

theorem parallelismRequired_of_le {maxResourcesPerCont user exec : ℤ}
    (hdeficit : user - exec ≤ maxResourcesPerCont) :
    parallelismRequired maxResourcesPerCont user exec = user - exec := by
  unfold parallelismRequired
  split <;> omega

theorem strictTopUp_recorded {maxResourcesPerCont available : ℤ} {container : ExecutionInfo}
    {granted : TopUp} (hgrant : strictTopUp maxResourcesPerCont available container = some granted)
    (hok : StrictVisitOk maxResourcesPerCont available container) :
    Recorded container granted := by
  unfold strictTopUp at hgrant
  unfold StrictVisitOk at hok
  unfold Recorded RecordsChange
  rw [ExecutionInfo.execParallelism_recordUpdate]
  by_cases hfree : 0 < available
  swap
  · simp [hfree] at hgrant
  simp only [hfree, if_true] at hgrant hok
  split at hgrant
  next hboth =>
      simp only [hboth, and_self, if_true] at hok
      split at hgrant
      next hfull =>
          simp only [hfull, if_true] at hok
          obtain ⟨⟨hinter, hinterPos⟩, hintra, hintraPos⟩ := hok
          obtain rfl := Option.some.inj hgrant
          simp only [hinterPos, hintraPos, if_true, parallelismRequired_of_le hinter,
            parallelismRequired_of_le hintra]
          omega
      next hpart =>
          simp only [hpart, if_false] at hok
          split at hgrant
          next hintra =>
              rw [min_eq_left hintra] at hok
              obtain rfl := Option.some.inj hgrant
              simp only [lt_irrefl, if_false, hok, if_true]
              omega
          next hless =>
              rw [min_eq_right (not_le.mp hless).le] at hok
              obtain rfl := Option.some.inj hgrant
              simp only [lt_irrefl, if_false, hok, if_true]
              omega
  next hnotBoth =>
      simp only [hnotBoth, if_false] at hok
      split at hgrant
      next hintra =>
          simp only [hintra, if_true] at hok
          split at hgrant
          next hfull =>
              simp only [hfull, if_true] at hok
              obtain rfl := Option.some.inj hgrant
              simp only [lt_irrefl, if_false, hok.2, if_true, parallelismRequired_of_le hok.1]
              omega
          next hpart =>
              simp only [hpart, if_false] at hok
              obtain rfl := Option.some.inj hgrant
              simp only [lt_irrefl, if_false, hok, if_true]
              omega
      next hnoIntra =>
          simp only [hnoIntra, if_false] at hok
          split at hgrant
          next hinter =>
              simp only [hinter, if_true] at hok
              split at hgrant
              next hfull =>
                  simp only [hfull, if_true] at hok
                  obtain rfl := Option.some.inj hgrant
                  simp only [lt_irrefl, if_false, hok.2, if_true, parallelismRequired_of_le hok.1]
                  omega
              next hpart =>
                  simp only [hpart, if_false] at hok
                  obtain rfl := Option.some.inj hgrant
                  simp only [lt_irrefl, if_false, hok, if_true]
                  omega
          · cases hgrant

/-- A strict visit takes off no more than there is. -/
theorem strictTopUp_charged_le {maxResourcesPerCont available : ℤ} {container : ExecutionInfo}
    {granted : TopUp}
    (hgrant : strictTopUp maxResourcesPerCont available container = some granted) :
    granted.charged ≤ available := by
  unfold strictTopUp at hgrant
  simp only at hgrant
  split at hgrant
  · repeat' split at hgrant
    all_goals first
      | (obtain rfl := Option.some.inj hgrant; first | assumption | exact le_rfl)
      | cases hgrant
  · cases hgrant

theorem maxpropTopUp_recorded {maxResourcesPerCont factor available : ℤ}
    {container : ExecutionInfo} {granted : TopUp}
    (hgrant : maxpropTopUp maxResourcesPerCont factor available container = some granted)
    (hok : MaxpropVisitOk maxResourcesPerCont factor available container) :
    Recorded container granted ∧ granted.charged ≤ factor := by
  unfold maxpropTopUp at hgrant
  unfold MaxpropVisitOk at hok
  unfold Recorded RecordsChange
  rw [ExecutionInfo.execParallelism_recordUpdate]
  split at hgrant
  next hroom =>
      split at hgrant
      next hfits =>
          simp only [hfits, if_true] at hok
          obtain rfl := Option.some.inj hgrant
          simp only [lt_irrefl, if_false, hok, if_true]
          omega
      next hcut =>
          simp only [hcut, if_false] at hok
          obtain rfl := Option.some.inj hgrant
          have hmax : 0 < maxResourcesPerCont := hok ▸ hroom.2
          simp only [lt_irrefl, if_false, hmax, if_true]
          omega
  · cases hgrant

theorem available_pos_of_maxpropTopUp {maxResourcesPerCont factor available : ℤ}
    {container : ExecutionInfo} {granted : TopUp}
    (hgrant : maxpropTopUp maxResourcesPerCont factor available container = some granted) :
    0 < available := by
  by_contra hnone
  simp [maxpropTopUp, hnone] at hgrant

/-! ## The pass -/

section Pass

variable {topUp : ℤ → ExecutionInfo → Option TopUp} {finish : ExecutionInfo → ExecutionInfo}
  {visitOk : ℤ → ExecutionInfo → Prop}

/-- Every top-up of a pass meets the visit condition and goes over a live
connection. -/
def PassOk (topUp : ℤ → ExecutionInfo → Option TopUp) (visitOk : ℤ → ExecutionInfo → Prop) :
    ℤ → List ExecutionInfo → Prop
  | _, [] => True
  | available, container :: containers =>
      if container.state = .start then
        match topUp available container with
        | none => available ≠ 0 → PassOk topUp visitOk available containers
        | some granted =>
            (visitOk available container ∧ container.clientsocket.failed = false) ∧
              (available - granted.charged ≠ 0 →
                PassOk topUp visitOk (available - granted.charged) containers)
      else PassOk topUp visitOk available containers

instance decidablePassOk [∀ available container, Decidable (visitOk available container)] :
    ∀ available infos, Decidable (PassOk topUp visitOk available infos)
  | _, [] => inferInstanceAs (Decidable True)
  | available, container :: containers => by
      have hrest : ∀ remaining, Decidable (PassOk topUp visitOk remaining containers) :=
        fun remaining => decidablePassOk remaining containers
      unfold PassOk
      split
      · split <;> infer_instance
      · infer_instance

/-- A pass in order runs to its end, and the cores that remain and are held are
the ones that were free and held. A measure `enough` of the cores that remain
and the containers to come bounds the remainder. -/
theorem reassignLoop_conserves (enough : ℤ → ℕ → Prop)
    (hrecorded : ∀ available container granted, topUp available container = some granted →
      visitOk available container → Recorded container granted)
    (hfinish : ∀ info : ExecutionInfo, info.state = .start →
      (finish info).heldCores = info.heldCores)
    (hspend : ∀ available count container granted, topUp available container = some granted →
      visitOk available container → enough available (count + 1) →
      enough (available - granted.charged) count)
    (hskip : ∀ available count, enough available (count + 1) → enough available count)
    (hnonneg : ∀ available count, enough available count → 0 ≤ available)
    (available : ℤ) (infos : List ExecutionInfo) (hpass : PassOk topUp visitOk available infos)
    (henough : enough available infos.length) :
    (reassignLoop topUp finish available infos).exited = false ∧
      0 ≤ (reassignLoop topUp finish available infos).resourcesAvailables ∧
      (reassignLoop topUp finish available infos).resourcesAvailables +
          activeCores (reassignLoop topUp finish available infos).execInfoList =
        available + activeCores infos := by
  induction infos generalizing available with
  | nil => exact ⟨rfl, hnonneg _ _ henough, rfl⟩
  | cons container containers ih =>
      rw [PassOk] at hpass
      rw [reassignLoop]
      by_cases hstate : container.state = .start
      · simp only [hstate, if_true] at hpass ⊢
        cases hgrant : topUp available container with
        | none =>
            simp only [hgrant] at hpass
            simp only [visit, hgrant]
            by_cases hzero : available = 0
            · simp [hzero]
            · obtain ⟨hended, hrest, htotal⟩ :=
                ih available (hpass hzero) (hskip _ _ henough)
              simp only [hzero, if_false, ReassignTrace.after, activeCores_cons]
              exact ⟨hended, hrest, by omega⟩
        | some granted =>
            simp only [hgrant] at hpass
            obtain ⟨⟨hvisit, hlive⟩, hpass⟩ := hpass
            have hafter := hspend _ _ _ _ hgrant hvisit henough
            have hsent : container.updateParallelism granted.interParallelism
                granted.intraParallelism =
                some (container.recordUpdate granted.interParallelism granted.intraParallelism) :=
              ExecutionInfo.updateParallelism_eq_some.mpr ⟨hlive, rfl⟩
            have hheld : (finish (container.recordUpdate granted.interParallelism
                granted.intraParallelism)).heldCores = container.heldCores + granted.charged := by
              have hstate' : (container.recordUpdate granted.interParallelism
                  granted.intraParallelism).state = .start := hstate
              rw [hfinish _ hstate',
                ExecutionInfo.heldCores_of_active (ExecutionInfo.active_of_start hstate'),
                ExecutionInfo.heldCores_of_active (ExecutionInfo.active_of_start hstate)]
              exact hrecorded _ _ _ hgrant hvisit
            simp only [visit, hgrant, hsent, Option.map_some]
            by_cases hzero : available - granted.charged = 0
            · simp only [hzero, if_true, activeCores_cons, hheld, le_refl, true_and]
              omega
            · obtain ⟨hended, hrest, htotal⟩ := ih _ (hpass hzero) hafter
              simp only [hzero, if_false, ReassignTrace.after, activeCores_cons, hheld]
              exact ⟨hended, hrest, by omega⟩
      · simp only [hstate, if_false] at hpass ⊢
        obtain ⟨hended, hrest, htotal⟩ := ih available hpass (hskip _ _ henough)
        simp only [ReassignTrace.after, activeCores_cons]
        exact ⟨hended, hrest, by omega⟩

end Pass

/-! ## The two reassignments -/

/-- The free cores are handed out in order: no visit is cut and no connection is
broken. -/
def ReassignOk (scheduler : Scheduler) : Prop :=
  let free := scheduler.checkResources
  let infos := scheduler.execInfoList
  0 < free →
    if scheduler.schedulerContainer.reassigmentType = .maxProp then
      passesOverAll scheduler.schedulerContainer.policyClass infos = false →
        PassOk (maxpropTopUp scheduler.maxResourcesPerCont (maxpropFactor free infos))
          (MaxpropVisitOk scheduler.maxResourcesPerCont (maxpropFactor free infos)) free infos
    else
      passesOverAll scheduler.schedulerContainer.policyClass infos = false →
        PassOk (strictTopUp scheduler.maxResourcesPerCont)
          (StrictVisitOk scheduler.maxResourcesPerCont) free infos

instance (scheduler : Scheduler) : Decidable (ReassignOk scheduler) := by
  unfold ReassignOk
  infer_instance

/-- The cores that remain pay one equal part for each container to come, unless
each part is one core. -/
def Affordable (factor available : ℤ) (count : ℕ) : Prop :=
  0 ≤ available ∧ (factor = 1 ∨ count * factor ≤ available)

theorem affordable_of_skip {factor available : ℤ} {count : ℕ} (hpos : 0 < factor)
    (hafford : Affordable factor available (count + 1)) : Affordable factor available count := by
  obtain ⟨hnonneg, hone | hbound⟩ := hafford
  · exact ⟨hnonneg, .inl hone⟩
  · refine ⟨hnonneg, .inr ?_⟩
    push_cast at hbound
    linarith

theorem affordable_of_spend {factor available charged : ℤ} {count : ℕ} (hpos : 0 < factor)
    (hfree : 0 < available) (hcharged : charged ≤ factor)
    (hafford : Affordable factor available (count + 1)) :
    Affordable factor (available - charged) count := by
  obtain ⟨-, hone | hbound⟩ := hafford
  · exact ⟨by omega, .inl hone⟩
  · have hparts : (0 : ℤ) ≤ count * factor := by positivity
    push_cast at hbound
    exact ⟨by linarith, .inr (by linarith)⟩

/-- The equal parts do not exceed the free cores, unless each is one core. -/
theorem maxpropFactor_affordable {free : ℤ} (hfree : 0 < free) {infos : List ExecutionInfo}
    (hinfos : infos ≠ []) :
    0 < maxpropFactor free infos ∧ Affordable (maxpropFactor free infos) free infos.length := by
  have hquotient : pyInt ((free : ℚ) / (infos.length : ℚ)) = free / infos.length := by
    have hnonneg : (0 : ℚ) ≤ (free : ℚ) / (infos.length : ℚ) := by positivity
    rw [pyInt, if_pos hnonneg, Rat.floor_intCast_div_natCast]
  have hlength : (infos.length : ℤ) ≠ 0 := by simpa using hinfos
  have hbound : (infos.length : ℤ) * (free / infos.length) ≤ free := Int.mul_ediv_self_le hlength
  have hnonneg : 0 ≤ free / (infos.length : ℤ) := Int.ediv_nonneg hfree.le (by omega)
  simp only [maxpropFactor, hquotient, Affordable]
  split
  · exact ⟨one_pos, hfree.le, .inl rfl⟩
  · exact ⟨by omega, hfree.le, .inr hbound⟩

theorem reassigment_conserves {scheduler : Scheduler} (hfree : 0 < scheduler.checkResources)
    (hok : ReassignOk scheduler) :
    (reassigment scheduler scheduler.checkResources).exited = false ∧
      0 ≤ (reassigment scheduler scheduler.checkResources).resourcesAvailables ∧
      (reassigment scheduler scheduler.checkResources).resourcesAvailables +
          activeCores (reassigment scheduler scheduler.checkResources).execInfoList =
        scheduler.checkResources + activeCores scheduler.execInfoList := by
  have hok := hok hfree
  unfold reassigment
  split
  next hmax =>
      rw [if_pos hmax] at hok
      unfold maxpropReassigment
      split
      next hnone => exact ⟨rfl, hfree.le, by rw [hnone]⟩
      next hsome =>
          split
          · exact ⟨rfl, hfree.le, rfl⟩
          next hvisits =>
              obtain ⟨hpos, hafford⟩ := maxpropFactor_affordable hfree hsome
              refine reassignLoop_conserves
                (Affordable (maxpropFactor scheduler.checkResources scheduler.execInfoList))
                ?_ ?_ ?_ ?_ ?_ _ _ (hok (by simpa using hvisits)) hafford
              · exact fun _ _ _ hgrant hvisit => (maxpropTopUp_recorded hgrant hvisit).1
              · exact fun info hstate => by
                  simp [ExecutionInfo.heldCores, ExecutionInfo.setState, hstate,
                    ExecutionInfo.execParallelism]
              · intro available count container granted hgrant hvisit hafford
                exact affordable_of_spend hpos (available_pos_of_maxpropTopUp hgrant)
                  (maxpropTopUp_recorded hgrant hvisit).2 hafford
              · exact fun _ _ => affordable_of_skip hpos
              · exact fun _ _ hafford => hafford.1
  next hstrict =>
      rw [if_neg hstrict] at hok
      unfold strictReassigment
      split
      · exact ⟨rfl, hfree.le, rfl⟩
      next hvisits =>
          refine reassignLoop_conserves (fun available _ => 0 ≤ available)
            ?_ ?_ ?_ ?_ ?_ _ _ (hok (by simpa using hvisits)) hfree.le
          · exact fun _ _ _ hgrant hvisit => strictTopUp_recorded hgrant hvisit
          · exact fun _ _ => rfl
          · intro available count container granted hgrant _ _
            have hle := strictTopUp_charged_le hgrant
            omega
          · exact fun _ _ henough => henough
          · exact fun _ _ henough => henough

end ContainerScheduler.Analysis
