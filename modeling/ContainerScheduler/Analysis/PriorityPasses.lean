/-
# Priorities in a reassignment pass

With several priorities a pass should top up only containers of the highest one.
The test that passes over a container reads the variable of the preceding loop,
which is the last listed container, so the pass visits either every running
container or none.

A pass that visits respects the priorities when it reaches, while cores remain, no
container of a lower priority that takes something.
-/

import ContainerScheduler.Analysis.HandedOut

namespace ContainerScheduler.Analysis

open Host

/-- No listed container has a higher priority. -/
def HasTopPriority (infos : List ExecutionInfo) (container : ExecutionInfo) : Prop :=
  ∀ other ∈ infos, other.priority ≤ container.priority

/-- A component of the container grew. -/
def Increased (before after : ExecutionInfo) : Prop :=
  before.interExecParallelism < after.interExecParallelism ∨
    before.intraExecParallelism < after.intraExecParallelism

instance (infos : List ExecutionInfo) (container : ExecutionInfo) :
    Decidable (HasTopPriority infos container) := by
  unfold HasTopPriority
  infer_instance

instance (before after : ExecutionInfo) : Decidable (Increased before after) := by
  unfold Increased
  infer_instance

section Pass

variable (needs : ExecutionInfo → Prop) (available : ℤ) (infos : List ExecutionInfo)

/-- Cores are free, and a running container of the highest priority needs some. -/
def TopNeeds : Prop :=
  0 < available ∧
    ∃ container ∈ infos, container.state = .start ∧ HasTopPriority infos container ∧
      needs container

/-- A pass that turns some containers into others respects their priorities: it
increases only containers of the highest one, and some of them if one is in need. -/
def RespectsPriorities (others : List ExecutionInfo) : Prop :=
  List.Forall₂ (fun before after => Increased before after → HasTopPriority infos before) infos
      others ∧
    (TopNeeds needs available infos →
      ∃ pair ∈ infos.zip others, HasTopPriority infos pair.1 ∧ Increased pair.1 pair.2)

/-- The client of a visited container hears of a positive value. -/
def Visit.Takes (visited : Visit) : Prop :=
  ¬visited.Breaks ∧
    (0 < visited.granted.interParallelism ∨ 0 < visited.granted.intraParallelism)

/-- Either the last container is of the highest priority, the containers that are
reached while cores remain and take something are, too, and there is one if a
container of the highest priority is in need; or none is in need. -/
def ServesTopFirst (topUp : ℤ → ExecutionInfo → Option TopUp) (policyClass : PolicyClass) : Prop :=
  if passesOverAll policyClass infos then ¬TopNeeds needs available infos
  else
    (∀ visited ∈ visits topUp available infos, visited.Takes →
      HasTopPriority infos visited.container) ∧
    (TopNeeds needs available infos → ∃ visited ∈ visits topUp available infos, visited.Takes)

end Pass

section Loop

variable {needs : ExecutionInfo → Prop} {available : ℤ} {infos : List ExecutionInfo}
  {topUp : ℤ → ExecutionInfo → Option TopUp} {finish : ExecutionInfo → ExecutionInfo}

/-- A container that is not increased respects every order of priorities. -/
theorem not_increased_self (container : ExecutionInfo) : ¬Increased container container := by
  rintro (hinter | hintra)
  · exact lt_irrefl _ hinter
  · exact lt_irrefl _ hintra

theorem respectsPriorities_self_iff :
    RespectsPriorities needs available infos infos ↔ ¬TopNeeds needs available infos := by
  constructor
  · rintro ⟨-, hserves⟩ hneeds
    rcases hserves hneeds with ⟨⟨before, after⟩, hmem, -, hincreased⟩
    have hsame : List.Forall₂ Eq infos infos := List.forall₂_same.mpr fun _ _ => rfl
    obtain rfl : before = after := (List.forall₂_iff_zip.mp hsame).2 hmem
    exact not_increased_self before hincreased
  · intro hnone
    refine ⟨?_, fun hneeds => absurd hneeds hnone⟩
    apply List.forall₂_same.mpr
    intro container _ hincreased
    exact absurd hincreased (not_increased_self container)

/-- The loop respects the priorities when its visits do, if what a visit sends is
an increase. -/
theorem respectsPriorities_loop_iff
    (hfinish : ∀ info : ExecutionInfo, (finish info).execParallelism = info.execParallelism)
    (hincreases : ∀ visited ∈ visits topUp available infos,
      (Increased visited.container (finish visited.recorded) ↔
        0 < visited.granted.interParallelism ∨ 0 < visited.granted.intraParallelism)) :
    RespectsPriorities needs available infos
        (reassignLoop topUp finish available infos).execInfoList ↔
      (∀ visited ∈ visits topUp available infos, visited.Takes →
        HasTopPriority infos visited.container) ∧
      (TopNeeds needs available infos →
        ∃ visited ∈ visits topUp available infos, visited.Takes) := by
  have hspec := passSpec topUp finish hfinish available infos
  have htakes : ∀ visited ∈ visits topUp available infos, (visited.Takes ↔
      ¬visited.Breaks ∧ Increased visited.container (finish visited.recorded)) :=
    fun visited hmem => and_congr_right fun _ => (hincreases visited hmem).symm
  have honly : List.Forall₂ (fun before after => Increased before after →
      HasTopPriority infos before) infos (reassignLoop topUp finish available infos).execInfoList ↔
      ∀ visited ∈ visits topUp available infos, visited.Takes →
        HasTopPriority infos visited.container := by
    rw [hspec.containers _ fun container hincreased =>
      absurd hincreased (not_increased_self container)]
    refine forall₂_congr fun visited hmem => ?_
    rw [htakes visited hmem, and_imp]
  have hsome : (∃ pair ∈ infos.zip (reassignLoop topUp finish available infos).execInfoList,
      HasTopPriority infos pair.1 ∧ Increased pair.1 pair.2) ↔
      ∃ visited ∈ visits topUp available infos,
        HasTopPriority infos visited.container ∧ visited.Takes := by
    have hnone := hspec.containers
      (fun before after => ¬(HasTopPriority infos before ∧ Increased before after))
      fun container hboth => not_increased_self container hboth.2
    have hlength := ((hspec.containers (fun _ _ => True) fun _ => trivial).mpr
      fun _ _ _ => trivial).length_eq
    rw [List.forall₂_iff_zip] at hnone
    rw [← not_iff_not]
    push Not
    constructor
    · intro hall visited hmem htop htaken
      obtain ⟨hlive, hincreased⟩ := (htakes visited hmem).mp htaken
      exact hnone.mp ⟨hlength, fun hpair hboth => hall _ hpair hboth.1 hboth.2⟩ visited hmem hlive
        ⟨htop, hincreased⟩
    · intro hall pair hpair htop hincreased
      refine (hnone.mpr fun visited hmem hlive hboth => ?_).2 hpair ⟨htop, hincreased⟩
      exact hall visited hmem hboth.1 ((htakes visited hmem).mpr ⟨hlive, hboth.2⟩)
  rw [RespectsPriorities, honly, hsome]
  refine and_congr_right fun htop => imp_congr_right fun _ => ?_
  constructor
  · rintro ⟨visited, hmem, -, htaken⟩
    exact ⟨visited, hmem, htaken⟩
  · rintro ⟨visited, hmem, htaken⟩
    exact ⟨visited, hmem, htop visited hmem htaken, htaken⟩

end Loop

/-! ## The two passes -/

/-- A container has fewer threads of a kind than its user asked for. -/
def LacksThreads (container : ExecutionInfo) : Prop :=
  container.interExecParallelism < container.interUserParallelism ∨
    container.intraExecParallelism < container.intraUserParallelism

/-- A container has fewer intra threads than it may have. -/
def BelowMaximum (cap : ℤ) (container : ExecutionInfo) : Prop :=
  container.intraExecParallelism < cap

/-- What `strict` sends is more than what the container has. -/
theorem strict_increases {cap : ℤ} {visited : Visit}
    (hgrant : strictTopUp cap visited.available visited.container = some visited.granted) :
    Increased visited.container visited.recorded ↔
      0 < visited.granted.interParallelism ∨ 0 < visited.granted.intraParallelism := by
  rcases visited with ⟨available, container, granted⟩
  obtain ⟨hfree, hgrant⟩ := strictGrant_of_topUp hgrant
  simp only at hfree hgrant
  simp only [Increased, Visit.recorded, ExecutionInfo.recordUpdate]
  have hinter : interRequired cap container = min cap _ := parallelismRequired_eq_min _ _ _
  have hintra : intraRequired cap container = min cap _ := parallelismRequired_eq_min _ _ _
  generalize interRequired cap container = inter at *
  generalize intraRequired cap container = intra at *
  cases hgrant <;> dsimp only <;> split_ifs <;> omega

/-- What `max_prop` sends is more than what the container has. -/
theorem maxprop_increases {cap factor : ℤ} (hfactor : 0 < factor) {visited : Visit}
    (hgrant : maxpropTopUp cap factor visited.available visited.container =
      some visited.granted) :
    Increased visited.container (visited.recorded.setState .update) ↔
      0 < visited.granted.interParallelism ∨ 0 < visited.granted.intraParallelism := by
  rcases visited with ⟨available, container, granted⟩
  obtain ⟨-, hless, hgrant⟩ := maxpropGrant_of_topUp hgrant
  simp only at hless hgrant
  simp only [Increased, Visit.recorded, ExecutionInfo.recordUpdate, ExecutionInfo.setState]
  cases hgrant <;> dsimp only <;> split_ifs <;> omega

/-- Without free cores nothing is visited. -/
theorem visits_of_nonpos {cap factor available : ℤ} (hnone : available ≤ 0)
    (infos : List ExecutionInfo) : visits (maxpropTopUp cap factor) available infos = [] := by
  induction infos with
  | nil => rfl
  | cons container containers ih =>
      have hgrant : maxpropTopUp cap factor available container = none := by
        rw [maxpropTopUp, if_neg fun hroom => absurd hroom.1 (not_lt.mpr hnone)]
      rw [visits]
      simp [hgrant, ih]

/-- Two priorities; the first container has the lower one, and both lack a thread. -/
def lowerPriorityFirst : Scheduler :=
  { Scheduler.init 16 10 (.init (.priority 2) .strict) with
    execInfoList :=
      [⟨"instance0", "0", 8787, 1, 2, 1, 1, ⟨"instance0", false⟩, "tf", 0, .start⟩,
        ⟨"instance1", "1", 8788, 1, 2, 1, 1, ⟨"instance1", false⟩, "tf", 1, .start⟩] }

end ContainerScheduler.Analysis
