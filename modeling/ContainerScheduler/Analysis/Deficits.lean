/-
# Deficits of topped up containers

A container lacks the difference of what its user asked for and what it was given, for its
inter and its intra threads. What a pass of `strict` gives should come off that difference.

`update_parallelism` records the values that are sent as the figures of the user too. A top-up
in full sends these figures, but a partial one replaces them by what the container has, and
the rest of the request is lost.
-/

import ContainerScheduler.Analysis.HandedOut

namespace ContainerScheduler.Analysis

open Host Math

/-! ## One top-up -/

/-- A container lacks what it lacked before, less what it was given meanwhile. -/
structure KeepsDeficit (before after : ExecutionInfo) : Prop where
  inter : after.interUserParallelism - after.interExecParallelism =
    before.interUserParallelism - before.interExecParallelism -
      (after.interExecParallelism - before.interExecParallelism)
  intra : after.intraUserParallelism - after.intraExecParallelism =
    before.intraUserParallelism - before.intraExecParallelism -
      (after.intraExecParallelism - before.intraExecParallelism)

/-- A top-up that is not in part: there are the cores for all that is required, and what is
required of the one component that is sent alone is not cut to the maximum. A part that makes
no positive figure is not recorded. -/
def ServedInFull (cap : ℤ) (visited : Visit) : Prop :=
  let container := visited.container
  let inter := interRequired cap container
  let intra := intraRequired cap container
  if 0 < intra then
    if intra ≤ visited.available then
      inter ≤ 0 ∨ inter + intra ≤ visited.available ∨
        container.intraUserParallelism - container.intraExecParallelism ≤ cap ∨
        container.intraExecParallelism + intra ≤ 0
    else container.intraExecParallelism + visited.available ≤ 0
  else inter ≤ visited.available ∨ container.interExecParallelism + visited.available ≤ 0

section TopUp

variable {cap : ℤ} {before after : ExecutionInfo}

/-- The deficits are kept when the figures of the user are. -/
theorem keepsDeficit_iff : KeepsDeficit before after ↔
    after.interUserParallelism = before.interUserParallelism ∧
      after.intraUserParallelism = before.intraUserParallelism := by
  constructor
  · intro hkeeps
    have hinter := hkeeps.inter
    have hintra := hkeeps.intra
    constructor <;> omega
  · intro hsame
    rcases hsame with ⟨hinter, hintra⟩
    constructor <;> omega

/-- A top-up keeps the figures of the user if and only if the values that it sends are these
figures, or are not recorded. -/
theorem keepsDeficit_recorded_iff {visited : Visit} :
    KeepsDeficit visited.container visited.recorded ↔
      (visited.granted.interParallelism ≤ 0 ∨
        visited.granted.interParallelism = visited.container.interUserParallelism) ∧
      (visited.granted.intraParallelism ≤ 0 ∨
        visited.granted.intraParallelism = visited.container.intraUserParallelism) := by
  rw [keepsDeficit_iff]
  simp only [Visit.recorded, ExecutionInfo.recordUpdate]
  apply and_congr
  · split_ifs <;> omega
  · split_ifs <;> omega

/-- **A top-up keeps the deficits** if and only if it is in full. -/
theorem keepsDeficit_iff_servedInFull {visited : Visit}
    (hgrant : strictTopUp cap visited.available visited.container = some visited.granted) :
    KeepsDeficit visited.container visited.recorded ↔ ServedInFull cap visited := by
  rw [keepsDeficit_recorded_iff]
  rcases visited with ⟨available, container, granted⟩
  rcases strictGrant_of_topUp hgrant with ⟨hfree, hcases⟩
  simp only [ServedInFull] at hfree hcases ⊢
  have hinter : interRequired cap container = min cap _ := parallelismRequired_eq_min _ _ _
  have hintra : intraRequired cap container = min cap _ := parallelismRequired_eq_min _ _ _
  generalize interRequired cap container = inter at *
  generalize intraRequired cap container = intra at *
  cases hcases with
  | both hinterPos hintraPos hfits =>
      rw [if_pos hintraPos, if_pos (by omega)]
      dsimp only
      omega
  | intraOfBoth hinterPos hintraPos hmore hfits =>
      rw [if_pos hintraPos, if_pos hfits]
      dsimp only
      omega
  | someIntra hintraPos hmore =>
      rw [if_pos hintraPos, if_neg (not_le.mpr hmore)]
      dsimp only
      omega
  | allIntra hinterNone hintraPos hfits =>
      rw [if_pos hintraPos, if_pos hfits]
      dsimp only
      omega
  | allInter hintraNone hinterPos hfits =>
      rw [if_neg (not_lt.mpr hintraNone)]
      dsimp only
      omega
  | someInter hintraNone hinterPos hmore =>
      rw [if_neg (not_lt.mpr hintraNone)]
      dsimp only
      omega

end TopUp

/-! ## Sequences of passes -/

/-- Passes of `strict`, each with its free cores. No pass follows one whose send raises. -/
def strictPasses (scheduler : Scheduler) : Machine Scheduler ℤ where
  init := scheduler
  step scheduler available :=
    let trace := strictReassigment scheduler available
    if trace.exited then none else some { scheduler with execInfoList := trace.execInfoList }

/-- After a pass each container lacks what it lacked before less what it was given. -/
def PassKeepsDeficits (scheduler : Scheduler) (available : ℤ) : Prop :=
  List.Forall₂ KeepsDeficit scheduler.execInfoList
    (strictReassigment scheduler available).execInfoList

/-- Every container that a pass tops up is served in full. -/
def PassServesInFull (scheduler : Scheduler) (available : ℤ) : Prop :=
  let cap := scheduler.maxResourcesPerCont
  passesOverAll scheduler.schedulerContainer.policyClass scheduler.execInfoList = false →
    ∀ visited ∈ visits (strictTopUp cap) available scheduler.execInfoList,
      ¬ visited.Breaks → ServedInFull cap visited

theorem passKeepsDeficits_iff (scheduler : Scheduler) (available : ℤ) :
    PassKeepsDeficits scheduler available ↔ PassServesInFull scheduler available := by
  unfold PassKeepsDeficits PassServesInFull strictReassigment
  have hrefl : ∀ info, KeepsDeficit info info := fun info => keepsDeficit_iff.mpr ⟨rfl, rfl⟩
  cases hpass : passesOverAll scheduler.schedulerContainer.policyClass scheduler.execInfoList with
  | true =>
      rw [if_pos rfl]
      simp only [Bool.true_eq_false, false_imp_iff, iff_true]
      exact List.forall₂_same.mpr fun info _ => hrefl info
  | false =>
      rw [if_neg Bool.false_ne_true]
      simp only [forall_true_left]
      have hspec := passSpec (strictTopUp scheduler.maxResourcesPerCont) id (fun _ => rfl)
        available scheduler.execInfoList
      rw [hspec.containers KeepsDeficit hrefl]
      apply forall₂_congr
      intro visited hmem
      rw [id, keepsDeficit_iff_servedInFull (spec_of_mem_visits hmem).2.2]

/-- **A sequence of passes keeps the deficits** if and only if every top-up in it is in
full. -/
theorem deficits_kept_iff (scheduler : Scheduler) (amounts : List ℤ) :
    (strictPasses scheduler).RunMeets PassKeepsDeficits amounts scheduler ↔
      (strictPasses scheduler).RunMeets PassServesInFull amounts scheduler := by
  have hsame : PassKeepsDeficits = PassServesInFull := by
    funext scheduler available
    exact propext (passKeepsDeficits_iff scheduler available)
  rw [hsame]

/-- **The rest of a request is lost**: a container with one of eight intra threads is given
two, and then it lacks none, so that nothing of three more cores goes to it. -/
theorem partial_grant_loses_rest :
    strictReassigment cutContainer 2 =
        ⟨false, 0, [⟨"instance0", "0", 8787, 1, 3, 1, 3, ⟨"instance0", false⟩, "tf", 0, .start⟩]⟩ ∧
      ¬ (strictPasses cutContainer).RunMeets PassKeepsDeficits [2, 3] cutContainer := by
  have htrace : strictReassigment cutContainer 2 =
      ⟨false, 0, [⟨"instance0", "0", 8787, 1, 3, 1, 3, ⟨"instance0", false⟩, "tf", 0,
        .start⟩]⟩ := by decide +kernel
  refine ⟨htrace, ?_⟩
  intro hmeets
  have hkeeps : List.Forall₂ KeepsDeficit cutContainer.execInfoList _ := hmeets.1
  rw [htrace] at hkeeps
  rcases hkeeps with _ | ⟨hkeeps, -⟩
  exact absurd hkeeps.intra (by decide)

end ContainerScheduler.Analysis
