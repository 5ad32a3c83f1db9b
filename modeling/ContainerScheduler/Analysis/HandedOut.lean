/-
# What a reassignment hands out

`strict` and `max_prop` each charge a pass for the top-ups it makes, with one
expression for the amount that is sent and another for the amount that is taken
off. They disagree in a few branches:

* under `strict` a full top-up sends the figure of the user, also when the
  required parallelism was cut to the maximum for one container;
* under `max_prop` a container raised to the maximum is charged the maximum, also
  when it had intra threads before;
* a value that is not positive is charged and not recorded.

A pass hands out what it accounts for exactly when these differences add up to
zero over its visits.
-/

import ContainerScheduler.Analysis.ReassignVisits
import Mathlib.Algebra.Order.BigOperators.Group.List

namespace ContainerScheduler.Analysis

open Host

/-! ## Top-ups under `strict` -/

section Strict

variable {cap available : ℤ} {container : ExecutionInfo} {granted : TopUp}

/-- The inter threads that a container lacks, within the maximum. -/
def interRequired (cap : ℤ) (container : ExecutionInfo) : ℤ :=
  parallelismRequired cap container.interUserParallelism container.interExecParallelism

/-- The intra threads that a container lacks, within the maximum. -/
def intraRequired (cap : ℤ) (container : ExecutionInfo) : ℤ :=
  parallelismRequired cap container.intraUserParallelism container.intraExecParallelism

theorem parallelismRequired_eq_min (cap user exec : ℤ) :
    parallelismRequired cap user exec = min cap (user - exec) := by
  unfold parallelismRequired
  split <;> omega

theorem strictTopUp_eq (cap available : ℤ) (container : ExecutionInfo) :
    strictTopUp cap available container =
      let inter := interRequired cap container
      let intra := intraRequired cap container
      if 0 < available then
        if 0 < inter ∧ 0 < intra then
          if inter + intra ≤ available then
            some ⟨container.interUserParallelism, container.intraUserParallelism, inter + intra⟩
          else if intra ≤ available then some ⟨0, container.intraExecParallelism + intra, intra⟩
          else some ⟨0, container.intraExecParallelism + available, available⟩
        else if 0 < intra then
          if intra ≤ available then some ⟨0, container.intraUserParallelism, intra⟩
          else some ⟨0, container.intraExecParallelism + available, available⟩
        else if 0 < inter then
          if inter ≤ available then some ⟨container.interUserParallelism, 0, inter⟩
          else some ⟨container.interExecParallelism + available, 0, available⟩
        else none
      else none := rfl

/-- The top-ups that `strict` grants: in full, only the intra part of both, a part
of the intra threads, all intra or all inter threads, and a part of the inter
threads. -/
inductive StrictGrant (container : ExecutionInfo) (inter intra available : ℤ) : TopUp → Prop
  | both (hinter : 0 < inter) (hintra : 0 < intra) (hfits : inter + intra ≤ available) :
      StrictGrant container inter intra available
        ⟨container.interUserParallelism, container.intraUserParallelism, inter + intra⟩
  | intraOfBoth (hinter : 0 < inter) (hintra : 0 < intra) (hmore : available < inter + intra)
      (hfits : intra ≤ available) :
      StrictGrant container inter intra available
        ⟨0, container.intraExecParallelism + intra, intra⟩
  | someIntra (hintra : 0 < intra) (hmore : available < intra) :
      StrictGrant container inter intra available
        ⟨0, container.intraExecParallelism + available, available⟩
  | allIntra (hinter : inter ≤ 0) (hintra : 0 < intra) (hfits : intra ≤ available) :
      StrictGrant container inter intra available ⟨0, container.intraUserParallelism, intra⟩
  | allInter (hintra : intra ≤ 0) (hinter : 0 < inter) (hfits : inter ≤ available) :
      StrictGrant container inter intra available ⟨container.interUserParallelism, 0, inter⟩
  | someInter (hintra : intra ≤ 0) (hinter : 0 < inter) (hmore : available < inter) :
      StrictGrant container inter intra available
        ⟨container.interExecParallelism + available, 0, available⟩

theorem strictGrant_of_topUp (hgrant : strictTopUp cap available container = some granted) :
    0 < available ∧ StrictGrant container (interRequired cap container)
      (intraRequired cap container) available granted := by
  rw [strictTopUp_eq] at hgrant
  generalize interRequired cap container = inter at *
  generalize intraRequired cap container = intra at *
  simp only at hgrant
  split_ifs at hgrant with hfree hboth hfull hpart hintra hall hinter hall
  · exact ⟨hfree, Option.some.inj hgrant ▸ .both hboth.1 hboth.2 hfull⟩
  · exact ⟨hfree, Option.some.inj hgrant ▸ .intraOfBoth hboth.1 hboth.2 (not_le.mp hfull) hpart⟩
  · exact ⟨hfree, Option.some.inj hgrant ▸ .someIntra hboth.2 (not_le.mp hpart)⟩
  · have hnone := not_lt.mp fun hinter => hboth ⟨hinter, hintra⟩
    exact ⟨hfree, Option.some.inj hgrant ▸ .allIntra hnone hintra hall⟩
  · exact ⟨hfree, Option.some.inj hgrant ▸ .someIntra hintra (not_le.mp hall)⟩
  · exact ⟨hfree, Option.some.inj hgrant ▸ .allInter (not_lt.mp hintra) hinter hall⟩
  · exact ⟨hfree, Option.some.inj hgrant ▸ .someInter (not_lt.mp hintra) hinter (not_le.mp hall)⟩

theorem StrictGrant.charged_bounds {inter intra : ℤ} (hfree : 0 < available)
    (hgrant : StrictGrant container inter intra available granted) :
    0 < granted.charged ∧ granted.charged ≤ available := by
  cases hgrant <;> simp only <;> omega

/-- What a value sent for a component goes beyond the capped requirement. -/
def beyondCap (cap user exec : ℤ) : ℤ := if 0 < user then max 0 (user - exec - cap) else 0

/-- What a full top-up hands out beyond its charge. -/
def overshoot (cap : ℤ) (visited : Visit) : ℤ :=
  let container := visited.container
  if max (interRequired cap container) 0 + max (intraRequired cap container) 0 ≤
      visited.available then
    beyondCap cap container.interUserParallelism container.interExecParallelism +
      beyondCap cap container.intraUserParallelism container.intraExecParallelism
  else 0

/-- What is charged for values that are not positive and so are not recorded. -/
def unrecorded (cap : ℤ) (visited : Visit) : ℤ :=
  let container := visited.container
  let inter := max (interRequired cap container) 0
  let intra := max (intraRequired cap container) 0
  if inter + intra ≤ visited.available then
    (if container.interUserParallelism ≤ 0 then inter else 0) +
      (if container.intraUserParallelism ≤ 0 then intra else 0)
  else if 0 < intra then
    if container.intraExecParallelism + min intra visited.available ≤ 0 then
      min intra visited.available
    else 0
  else if container.interExecParallelism + visited.available ≤ 0 then visited.available
  else 0

/-- A visit records what it is charged, more what it goes beyond the cap and less
what is not recorded. -/
theorem strict_growth (hcap : 1 ≤ cap) {visited : Visit}
    (hgrant : strictTopUp cap visited.available visited.container = some visited.granted) :
    visited.growth = visited.granted.charged + overshoot cap visited - unrecorded cap visited := by
  rcases visited with ⟨available, container, granted⟩
  obtain ⟨hfree, hgrant⟩ := strictGrant_of_topUp hgrant
  simp only at hfree hgrant
  simp only [Visit.growth, Visit.recorded, ExecutionInfo.execParallelism_recordUpdate, overshoot,
    unrecorded, beyondCap]
  have hinter : interRequired cap container = min cap _ := parallelismRequired_eq_min _ _ _
  have hintra : intraRequired cap container = min cap _ := parallelismRequired_eq_min _ _ _
  generalize interRequired cap container = inter at *
  generalize intraRequired cap container = intra at *
  cases hgrant with
  | both hinterPos hintraPos hfits =>
      rw [max_eq_left hinterPos.le, max_eq_left hintraPos.le, if_pos hfits, if_pos hfits]
      dsimp only
      split_ifs <;> omega
  | intraOfBoth hinterPos hintraPos hmore hfits =>
      rw [max_eq_left hinterPos.le, max_eq_left hintraPos.le, if_neg (not_le.mpr hmore),
        if_neg (not_le.mpr hmore), if_pos hintraPos, min_eq_left hfits]
      dsimp only
      split_ifs <;> omega
  | someIntra hintraPos hmore =>
      have hover : ¬max inter 0 + max intra 0 ≤ available := by omega
      rw [if_neg hover, if_neg hover, max_eq_left hintraPos.le, if_pos hintraPos,
        min_eq_right hmore.le]
      dsimp only
      split_ifs <;> omega
  | allIntra hinterNone hintraPos hfits =>
      rw [max_eq_right hinterNone, max_eq_left hintraPos.le, zero_add, if_pos hfits, if_pos hfits]
      dsimp only
      split_ifs <;> omega
  | allInter hintraNone hinterPos hfits =>
      rw [max_eq_right hintraNone, max_eq_left hinterPos.le, add_zero, if_pos hfits, if_pos hfits]
      dsimp only
      split_ifs <;> omega
  | someInter hintraNone hinterPos hmore =>
      rw [max_eq_right hintraNone, max_eq_left hinterPos.le, add_zero, if_neg (not_le.mpr hmore),
        if_neg (not_le.mpr hmore), if_neg (lt_irrefl 0)]
      dsimp only
      split_ifs <;> omega

/-- A container is within the figures that its user gave for another state of it. -/
def WithinUser (before after : ExecutionInfo) : Prop :=
  after.interExecParallelism ≤ before.interUserParallelism ∧
    after.intraExecParallelism ≤ before.intraUserParallelism

/-- A top-up never takes a component beyond the figure of the user. -/
theorem strict_within_iff (hcap : 1 ≤ cap) {visited : Visit}
    (hgrant : strictTopUp cap visited.available visited.container = some visited.granted) :
    WithinUser visited.container visited.recorded ↔
      WithinUser visited.container visited.container := by
  rcases visited with ⟨available, container, granted⟩
  obtain ⟨hfree, hgrant⟩ := strictGrant_of_topUp hgrant
  simp only at hfree hgrant
  simp only [WithinUser, Visit.recorded, ExecutionInfo.recordUpdate]
  have hinter : interRequired cap container = min cap _ := parallelismRequired_eq_min _ _ _
  have hintra : intraRequired cap container = min cap _ := parallelismRequired_eq_min _ _ _
  generalize interRequired cap container = inter at *
  generalize intraRequired cap container = intra at *
  cases hgrant <;> dsimp only <;> split_ifs <;> omega

/-- The pass of `strict` hands out what it accounts for: it returns what remains
of the cores, the containers grow by the difference, none is beyond the figures
its user had given, and those that do not run are unchanged. -/
def StrictHandsOut (scheduler : Scheduler) (available : ℤ) : Prop :=
  let trace := strictReassigment scheduler available
  let infos := scheduler.execInfoList
  trace.exited = false ∧ 0 ≤ trace.resourcesAvailables ∧ trace.resourcesAvailables ≤ available ∧
    totalExec trace.execInfoList - totalExec infos = available - trace.resourcesAvailables ∧
    List.Forall₂ WithinUser infos trace.execInfoList ∧
    List.Forall₂ (fun before after => before.state ≠ .start → after = before) infos
      trace.execInfoList

/-- Every container is within the figures of its user; and, unless the pass is
passed over, its sends succeed, and what it hands out beyond the caps is what it
charges without recording it. -/
def StrictBalanced (scheduler : Scheduler) (available : ℤ) : Prop :=
  let cap := scheduler.maxResourcesPerCont
  let made := visits (strictTopUp cap) available scheduler.execInfoList
  (∀ info ∈ scheduler.execInfoList, WithinUser info info) ∧
    (passesOverAll scheduler.schedulerContainer.policyClass scheduler.execInfoList = false →
      (∀ visited ∈ made, ¬visited.Breaks) ∧
        (made.map (overshoot cap)).sum = (made.map (unrecorded cap)).sum)

/-- The containers grow by the charges, more the first differences and less the
second ones. -/
theorem sum_growth {made : List Visit} (more less : Visit → ℤ)
    (hgrowth : ∀ visited ∈ made,
      visited.growth = visited.granted.charged + more visited - less visited) :
    (made.map Visit.growth).sum = (made.map fun visited => visited.granted.charged).sum +
      (made.map more).sum - (made.map less).sum := by
  induction made with
  | nil => rfl
  | cons visited made ih =>
      have hrest := ih fun later hmem => hgrowth later (List.mem_cons_of_mem visited hmem)
      have hfirst := hgrowth visited List.mem_cons_self
      simp only [List.map_cons, List.sum_cons]
      omega

/-- A property of the new containers that comes down to one of the old ones. -/
theorem forall₂_iff_of_forall₂ {P : ExecutionInfo → ExecutionInfo → Prop}
    {Q : ExecutionInfo → Prop} {infos others : List ExecutionInfo}
    (hiff : List.Forall₂ (fun before after => P before after ↔ Q before) infos others) :
    List.Forall₂ P infos others ↔ ∀ info ∈ infos, Q info := by
  induction hiff with
  | nil => simp
  | cons hhead _ ih => rw [List.forall₂_cons, hhead, ih, List.forall_mem_cons]

/-- The visits of a strict pass never charge more than there is. -/
theorem strict_remaining_nonneg (havailable : 0 ≤ available) (infos : List ExecutionInfo) :
    0 ≤ (reassignLoop (strictTopUp cap) id available infos).resourcesAvailables := by
  induction infos generalizing available with
  | nil => exact havailable
  | cons container containers ih =>
      rw [reassignLoop]
      split
      · cases hgrant : strictTopUp cap available container with
        | none =>
            simp only [visit, hgrant]
            split
            · exact havailable
            · exact ih havailable
        | some granted =>
            obtain ⟨hfree, hcases⟩ := strictGrant_of_topUp hgrant
            have hbounds := hcases.charged_bounds hfree
            have hrest := @ih (available - granted.charged) (by omega)
            cases hsent : container.updateParallelism granted.interParallelism
                granted.intraParallelism with
            | none => simpa [visit, hgrant, hsent] using havailable
            | some updated =>
                simp only [visit, hgrant, hsent, Option.map_some]
                split
                · dsimp only
                  omega
                · exact hrest
      · exact ih havailable

/-- **What `strict` hands out.** A pass over any containers and any amount of cores
hands out what it accounts for exactly when it is balanced. -/
theorem strict_hands_out_iff {scheduler : Scheduler}
    (hcap : 1 ≤ scheduler.maxResourcesPerCont) (havailable : 0 ≤ available) :
    StrictHandsOut scheduler available ↔ StrictBalanced scheduler available := by
  unfold StrictHandsOut StrictBalanced
  cases hpass : passesOverAll scheduler.schedulerContainer.policyClass scheduler.execInfoList with
  | true =>
      have hloop : strictReassigment scheduler available =
          ⟨false, available, scheduler.execInfoList⟩ := if_pos hpass
      simp only [hloop, Bool.true_eq_false, false_imp_iff, and_true, true_and, le_refl, sub_self,
        havailable, List.forall₂_same, implies_true]
  | false =>
      have hloop : strictReassigment scheduler available =
          reassignLoop (strictTopUp scheduler.maxResourcesPerCont) id available
            scheduler.execInfoList := if_neg (by simp [hpass])
      have hspec := passSpec (strictTopUp scheduler.maxResourcesPerCont) id (fun _ => rfl)
        available scheduler.execInfoList
      have hvisits : ∀ visited ∈ visits (strictTopUp scheduler.maxResourcesPerCont) available
          scheduler.execInfoList, visited.container.state = .start ∧
            strictTopUp scheduler.maxResourcesPerCont visited.available visited.container =
              some visited.granted := fun visited hmem => (spec_of_mem_visits hmem).2
      have hwithin := forall₂_iff_of_forall₂ (Q := fun info => WithinUser info info)
        ((hspec.containers _ fun container => Iff.rfl).mpr fun visited hmem _ =>
          strict_within_iff hcap (hvisits visited hmem).2)
      have hframe := (hspec.containers (fun before after => before.state ≠ .start → after = before)
        fun container _ => rfl).mpr fun visited hmem _ hstate =>
          absurd (hvisits visited hmem).1 hstate
      have hgrowth := sum_growth _ _ fun visited hmem => strict_growth hcap (hvisits visited hmem).2
      have hnonneg : 0 ≤ (reassignLoop (strictTopUp scheduler.maxResourcesPerCont) id available
          scheduler.execInfoList).resourcesAvailables := strict_remaining_nonneg havailable _
      simp only [hloop, hspec.exited, hwithin, hframe, and_true, forall_true_left]
      constructor
      · rintro ⟨hlive, -, -, htotal, hinside⟩
        rw [hspec.growth hlive, hspec.remaining hlive, hgrowth] at htotal
        exact ⟨hinside, hlive, by omega⟩
      · rintro ⟨hinside, hlive, hbalance⟩
        have hcharged : 0 ≤ ((visits (strictTopUp scheduler.maxResourcesPerCont) available
            scheduler.execInfoList).map fun visited => visited.granted.charged).sum := by
          apply List.sum_nonneg
          intro charged hcharged
          rcases List.mem_map.mp hcharged with ⟨visited, hmem, rfl⟩
          obtain ⟨hfree, hcases⟩ := strictGrant_of_topUp (hvisits visited hmem).2
          exact (hcases.charged_bounds hfree).1.le
        have hremaining := hspec.remaining hlive
        refine ⟨hlive, hnonneg, by omega, ?_, hinside⟩
        rw [hspec.growth hlive, hremaining, hgrowth]
        omega

/-- A host whose only container was given one of the eight intra threads that its
user asked for; a container may have three at most. -/
def cutContainer : Scheduler :=
  { Scheduler.init 16 3 (.init .fcfs .strict) with
    execInfoList := [⟨"instance0", "0", 8787, 1, 8, 1, 1, ⟨"instance0", false⟩, "tf", 0, .start⟩] }

/-- Two cores go to the container in part. -/
theorem two_cores_handed_out : StrictHandsOut cutContainer 2 ↔ StrictBalanced cutContainer 2 :=
  strict_hands_out_iff (by decide) (by decide)

/-- Out of three cores the container is given seven threads, and three are taken
off. -/
theorem capped_deficit_granted_whole :
    strictReassigment cutContainer 3 =
        ⟨false, 0, [⟨"instance0", "0", 8787, 1, 8, 1, 8, ⟨"instance0", false⟩, "tf", 0, .start⟩]⟩ ∧
      ¬StrictHandsOut cutContainer 3 := by
  have htrace : strictReassigment cutContainer 3 =
      ⟨false, 0, [⟨"instance0", "0", 8787, 1, 8, 1, 8, ⟨"instance0", false⟩, "tf", 0,
        .start⟩]⟩ := by decide +kernel
  refine ⟨htrace, ?_⟩
  intro hhands
  have htotal := hhands.2.2.2.1
  rw [htrace] at htotal
  exact absurd htotal (by decide +kernel)

end Strict

/-! ## Top-ups under `max_prop` -/

section Maxprop

variable {cap factor available : ℤ} {container : ExecutionInfo} {granted : TopUp}

/-- The top-ups that `max_prop` grants: by the factor, or to the maximum. -/
inductive MaxpropGrant (cap factor : ℤ) (container : ExecutionInfo) : TopUp → Prop
  | byFactor (hfits : container.intraExecParallelism + factor ≤ cap) :
      MaxpropGrant cap factor container ⟨0, container.intraExecParallelism + factor, factor⟩
  | toCap (hover : cap < container.intraExecParallelism + factor) :
      MaxpropGrant cap factor container ⟨0, cap, cap⟩

theorem maxpropGrant_of_topUp
    (hgrant : maxpropTopUp cap factor available container = some granted) :
    0 < available ∧ container.intraExecParallelism < cap ∧
      MaxpropGrant cap factor container granted := by
  unfold maxpropTopUp at hgrant
  split_ifs at hgrant with hroom hfits
  · exact ⟨hroom.1, hroom.2, Option.some.inj hgrant ▸ .byFactor hfits⟩
  · exact ⟨hroom.1, hroom.2, Option.some.inj hgrant ▸ .toCap (not_le.mp hfits)⟩

/-- What a visit is charged beyond what it records: the intra threads that a
container raised to the maximum had before, or a value that is not positive. -/
def overcharge (cap factor : ℤ) (visited : Visit) : ℤ :=
  if visited.container.intraExecParallelism + factor ≤ cap then
    if visited.container.intraExecParallelism + factor ≤ 0 then factor else 0
  else visited.container.intraExecParallelism

theorem maxprop_growth (hcap : 1 ≤ cap) {visited : Visit}
    (hgrant : maxpropTopUp cap factor visited.available visited.container =
      some visited.granted) :
    visited.growth = visited.granted.charged + 0 - overcharge cap factor visited := by
  rcases visited with ⟨available, container, granted⟩
  obtain ⟨-, -, hgrant⟩ := maxpropGrant_of_topUp hgrant
  simp only at hgrant
  simp only [Visit.growth, Visit.recorded, ExecutionInfo.execParallelism_recordUpdate, overcharge]
  cases hgrant with
  | byFactor hfits =>
      dsimp only
      rw [if_pos hfits, if_neg (lt_irrefl 0)]
      split_ifs <;> omega
  | toCap hover =>
      dsimp only
      rw [if_neg (not_le.mpr hover), if_neg (lt_irrefl 0), if_pos (by omega)]
      omega

/-- A container raised by a visit ends within the maximum. -/
theorem maxprop_within_cap {visited : Visit}
    (hgrant : maxpropTopUp cap factor visited.available visited.container =
      some visited.granted) :
    visited.recorded.intraExecParallelism ≤ cap := by
  rcases visited with ⟨available, container, granted⟩
  obtain ⟨-, hless, hgrant⟩ := maxpropGrant_of_topUp hgrant
  simp only at hless hgrant
  simp only [Visit.recorded, ExecutionInfo.recordUpdate]
  cases hgrant <;> dsimp only <;> split_ifs <;> omega

/-- The pass of `max_prop` hands out what it accounts for: it returns what remains
of the cores, the containers grow by the difference, and each one it changes is
within the maximum. -/
def MaxpropHandsOut (scheduler : Scheduler) (available : ℤ) : Prop :=
  let trace := maxpropReassigment scheduler available
  let infos := scheduler.execInfoList
  trace.exited = false ∧ 0 ≤ trace.resourcesAvailables ∧ trace.resourcesAvailables ≤ available ∧
    totalExec trace.execInfoList - totalExec infos = available - trace.resourcesAvailables ∧
    List.Forall₂ (fun before after => after ≠ before →
      after.intraExecParallelism ≤ scheduler.maxResourcesPerCont) infos trace.execInfoList

/-- Unless the pass is passed over, its sends succeed and it charges nothing that
it does not record. -/
def MaxpropBalanced (scheduler : Scheduler) (available : ℤ) : Prop :=
  let cap := scheduler.maxResourcesPerCont
  let factor := maxpropFactor available scheduler.execInfoList
  let made := visits (maxpropTopUp cap factor) available scheduler.execInfoList
  passesOverAll scheduler.schedulerContainer.policyClass scheduler.execInfoList = false →
    (∀ visited ∈ made, ¬visited.Breaks) ∧ (made.map (overcharge cap factor)).sum = 0

/-- When a pass charges nothing that it does not record, no visit is charged more
than the factor: it would have been raised to a maximum above the factor, then
every container raised to the maximum has intra threads, and nothing makes up for
the one that is charged too much. -/
theorem charged_le_factor (hfactor : 0 < factor) {infos : List ExecutionInfo}
    (hsum : ((visits (maxpropTopUp cap factor) available infos).map
      (overcharge cap factor)).sum = 0) :
    ∀ visited ∈ visits (maxpropTopUp cap factor) available infos,
      visited.granted.charged ≤ factor := by
  intro costly hcostly
  by_contra hmore
  obtain ⟨-, -, hgrant⟩ := maxpropGrant_of_topUp (spec_of_mem_visits hcostly).2.2
  have hcharged : costly.granted.charged = cap ∧
      cap < costly.container.intraExecParallelism + factor := by
    cases hcases : costly.granted
    rw [hcases] at hgrant hmore
    cases hgrant with
    | byFactor => exact absurd le_rfl hmore
    | toCap hover => exact ⟨rfl, hover⟩
  have hnonneg : ∀ amount ∈ (visits (maxpropTopUp cap factor) available infos).map
      (overcharge cap factor), 0 ≤ amount := by
    intro amount hmem
    rcases List.mem_map.mp hmem with ⟨visited, -, rfl⟩
    unfold overcharge
    split_ifs <;> omega
  have hle := List.single_le_sum hnonneg _ (List.mem_map_of_mem hcostly)
  rw [hsum, overcharge, if_neg (by omega)] at hle
  omega

/-- When no visit is charged more than the factor, the cores suffice. -/
theorem maxprop_remaining_nonneg (hfactor : 0 < factor) (finish : ExecutionInfo → ExecutionInfo)
    {infos : List ExecutionInfo} (hafford : Affordable factor available infos.length)
    (hcharged : ∀ visited ∈ visits (maxpropTopUp cap factor) available infos,
      visited.granted.charged ≤ factor) :
    0 ≤ (reassignLoop (maxpropTopUp cap factor) finish available infos).resourcesAvailables := by
  induction infos generalizing available with
  | nil => exact hafford.1
  | cons container containers ih =>
      have hskipped := affordable_of_skip hfactor hafford
      rw [reassignLoop]
      rw [visits] at hcharged
      by_cases hstate : container.state = .start
      · simp only [hstate, if_true] at hcharged ⊢
        cases hgrant : maxpropTopUp cap factor available container with
        | none =>
            simp only [visit, hgrant] at hcharged ⊢
            split
            · exact hafford.1
            · next hsome =>
                rw [if_neg hsome] at hcharged
                exact ih hskipped hcharged
        | some granted =>
            simp only [hgrant, List.forall_mem_cons] at hcharged
            obtain ⟨hfirst, hlater⟩ := hcharged
            have hspent := affordable_of_spend hfactor (maxpropGrant_of_topUp hgrant).1 hfirst
              hafford
            cases hsent : container.updateParallelism granted.interParallelism
                granted.intraParallelism with
            | none => simpa [visit, hgrant, hsent] using hafford.1
            | some updated =>
                have hlive := (ExecutionInfo.updateParallelism_eq_some.mp hsent).1
                simp only [visit, hgrant, hsent, Option.map_some]
                split
                · exact hspent.1
                · next hrest =>
                    rw [if_neg (by simp [hlive, hrest])] at hlater
                    exact ih hspent hlater
      · simp only [hstate, if_false] at hcharged ⊢
        exact ih hskipped hcharged

/-- **What `max_prop` hands out.** A pass over any containers and any positive
amount of cores hands out what it accounts for exactly when it is balanced. -/
theorem maxprop_hands_out_iff {scheduler : Scheduler}
    (hcap : 1 ≤ scheduler.maxResourcesPerCont) (havailable : 1 ≤ available) :
    MaxpropHandsOut scheduler available ↔ MaxpropBalanced scheduler available := by
  unfold MaxpropHandsOut MaxpropBalanced
  by_cases hnone : scheduler.execInfoList = []
  · have hloop : maxpropReassigment scheduler available = ⟨false, available, []⟩ := if_pos hnone
    simp [hloop, hnone, visits, totalExec, (zero_lt_one.trans_le havailable).le]
  cases hpass : passesOverAll scheduler.schedulerContainer.policyClass scheduler.execInfoList with
  | true =>
      have hloop : maxpropReassigment scheduler available =
          ⟨false, available, scheduler.execInfoList⟩ := by
        rw [maxpropReassigment, if_neg hnone, if_pos hpass]
      simp [hloop, (zero_lt_one.trans_le havailable).le, List.forall₂_same]
  | false =>
      rcases maxpropFactor_affordable (zero_lt_one.trans_le havailable) hnone with
        ⟨hfactor, hafford⟩
      have hloop : maxpropReassigment scheduler available =
          reassignLoop (maxpropTopUp scheduler.maxResourcesPerCont
              (maxpropFactor available scheduler.execInfoList))
            (fun container => container.setState .update) available scheduler.execInfoList := by
        rw [maxpropReassigment, if_neg hnone, if_neg (by simp [hpass])]
      generalize maxpropFactor available scheduler.execInfoList = factor at *
      have hspec := passSpec (maxpropTopUp scheduler.maxResourcesPerCont factor)
        (fun container => container.setState .update) (fun _ => rfl) available
        scheduler.execInfoList
      have hvisits : ∀ visited ∈ visits (maxpropTopUp scheduler.maxResourcesPerCont factor)
          available scheduler.execInfoList, maxpropTopUp scheduler.maxResourcesPerCont factor
            visited.available visited.container = some visited.granted := fun visited hmem =>
        (spec_of_mem_visits hmem).2.2
      have hwithin := (hspec.containers (fun before after => after ≠ before →
        after.intraExecParallelism ≤ scheduler.maxResourcesPerCont)
        fun container hne => absurd rfl hne).mpr fun visited hmem _ _ =>
          maxprop_within_cap (hvisits visited hmem)
      have hgrowth := sum_growth (fun _ => 0) (overcharge scheduler.maxResourcesPerCont factor)
        fun visited hmem => maxprop_growth hcap (hvisits visited hmem)
      have hnothing : ∀ made : List Visit, (made.map fun _ => (0 : ℤ)).sum = 0 := by simp
      rw [hnothing, add_zero] at hgrowth
      simp only [hloop, hspec.exited, hwithin, and_true, forall_true_left]
      constructor
      · rintro ⟨hlive, -, -, htotal⟩
        rw [hspec.growth hlive, hspec.remaining hlive, hgrowth] at htotal
        exact ⟨hlive, by omega⟩
      · rintro ⟨hlive, hbalance⟩
        have hnonneg := maxprop_remaining_nonneg hfactor
          (fun container => container.setState .update) hafford
          (charged_le_factor hfactor hbalance)
        have hcharged : 0 ≤ ((visits (maxpropTopUp scheduler.maxResourcesPerCont factor) available
            scheduler.execInfoList).map fun visited => visited.granted.charged).sum := by
          apply List.sum_nonneg
          intro charged hcharged
          rcases List.mem_map.mp hcharged with ⟨visited, hmem, rfl⟩
          obtain ⟨-, -, hgrant⟩ := maxpropGrant_of_topUp (hvisits visited hmem)
          cases hcases : visited.granted
          rw [hcases] at hgrant
          cases hgrant <;> dsimp only <;> omega
        have hremaining := hspec.remaining hlive
        refine ⟨hlive, hnonneg, by omega, ?_⟩
        rw [hspec.growth hlive, hremaining, hgrowth]
        omega

/-- A host whose only container has nine intra threads of the ten it may have. -/
def nearMaximum : Scheduler :=
  { Scheduler.init 16 10 (.init .fcfs .maxProp) with
    execInfoList := [⟨"instance0", "0", 8787, 1, 9, 1, 9, ⟨"instance0", false⟩, "tf", 0, .start⟩] }

/-- One core raises the container to the maximum. -/
theorem one_core_handed_out : MaxpropHandsOut nearMaximum 1 ↔ MaxpropBalanced nearMaximum 1 :=
  maxprop_hands_out_iff (by decide) (by decide)

/-- Out of four cores the container is given one thread, and ten are taken off. -/
theorem maximum_charged_whole :
    (maxpropReassigment nearMaximum 4).resourcesAvailables = -6 ∧
      ¬MaxpropHandsOut nearMaximum 4 := by
  have hrest : (maxpropReassigment nearMaximum 4).resourcesAvailables = -6 := by decide +kernel
  refine ⟨hrest, ?_⟩
  intro hhands
  have hnonneg := hhands.2.1
  rw [hrest] at hnonneg
  exact absurd hnonneg (by decide)

end Maxprop

end ContainerScheduler.Analysis
