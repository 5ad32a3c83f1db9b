/-
# The visits of a reassignment pass

A pass over the containers tops some of them up until no core remains or a send
raises. Its visits list these top-ups in order, each with the cores that remained
when the container was reached. What a pass leaves behind is read off its visits:
the cores that remain, the parallelism handed out, and each container.
-/

import ContainerScheduler.Analysis.ReassignAccounting

namespace ContainerScheduler.Analysis

open Host

/-- A container reached by a pass, and what it is granted. -/
structure Visit where
  available : ℤ
  container : ExecutionInfo
  granted : TopUp
  deriving DecidableEq, Repr

namespace Visit

/-- The send to the client raises. -/
def Breaks (visited : Visit) : Prop := visited.container.clientsocket.failed = true

instance (visited : Visit) : Decidable visited.Breaks := by
  unfold Breaks
  infer_instance

/-- The container after it was told. -/
def recorded (visited : Visit) : ExecutionInfo :=
  visited.container.recordUpdate visited.granted.interParallelism visited.granted.intraParallelism

/-- How much the total of the container grows. -/
def growth (visited : Visit) : ℤ :=
  visited.recorded.execParallelism - visited.container.execParallelism

end Visit

/-- The exec parallelism of all listed containers, whatever their states. -/
def totalExec (infos : List ExecutionInfo) : ℤ := (infos.map ExecutionInfo.execParallelism).sum

@[simp]
theorem totalExec_cons (info : ExecutionInfo) (infos : List ExecutionInfo) :
    totalExec (info :: infos) = info.execParallelism + totalExec infos := by
  simp [totalExec]

section Pass

variable (topUp : ℤ → ExecutionInfo → Option TopUp)

/-- The top-ups of a pass over some containers, in order. -/
def visits : ℤ → List ExecutionInfo → List Visit
  | _, [] => []
  | available, container :: containers =>
      if container.state = .start then
        match topUp available container with
        | none => if available = 0 then [] else visits available containers
        | some granted =>
            ⟨available, container, granted⟩ ::
              if container.clientsocket.failed = true ∨ available - granted.charged = 0 then []
              else visits (available - granted.charged) containers
      else visits available containers

variable {topUp} {finish : ExecutionInfo → ExecutionInfo} {available : ℤ}
  {infos : List ExecutionInfo}

/-- Visited containers are listed, run, and were granted what the top-up says. -/
theorem spec_of_mem_visits {visited : Visit} (hmem : visited ∈ visits topUp available infos) :
    visited.container ∈ infos ∧ visited.container.state = .start ∧
      topUp visited.available visited.container = some visited.granted := by
  induction infos generalizing available with
  | nil => cases hmem
  | cons container containers ih =>
      have hlater : ∀ remaining, visited ∈ visits topUp remaining containers →
          visited.container ∈ container :: containers ∧ visited.container.state = .start ∧
            topUp visited.available visited.container = some visited.granted :=
        fun remaining hmem => (ih hmem).imp_left (List.mem_cons_of_mem container)
      rw [visits] at hmem
      split at hmem
      next hstate =>
          split at hmem
          next hnone =>
              split at hmem
              · cases hmem
              · exact hlater _ hmem
          next granted hgrant =>
              rcases List.mem_cons.mp hmem with rfl | hmem
              · exact ⟨List.mem_cons_self, hstate, hgrant⟩
              · split at hmem
                · cases hmem
                · exact hlater _ hmem
      next hstate => exact hlater _ hmem

/-- What a pass leaves behind, read off its visits. -/
structure PassSpec (topUp : ℤ → ExecutionInfo → Option TopUp)
    (finish : ExecutionInfo → ExecutionInfo) (available : ℤ) (infos : List ExecutionInfo) :
    Prop where
  /-- The pass raises when the send of one of its visits does. -/
  exited : (reassignLoop topUp finish available infos).exited = false ↔
    ∀ visited ∈ visits topUp available infos, ¬visited.Breaks
  /-- A pass that ends takes the charges of its visits off. -/
  remaining : (∀ visited ∈ visits topUp available infos, ¬visited.Breaks) →
    (reassignLoop topUp finish available infos).resourcesAvailables =
      available - ((visits topUp available infos).map fun visited => visited.granted.charged).sum
  /-- The containers grow by what the visits record. -/
  growth : (∀ visited ∈ visits topUp available infos, ¬visited.Breaks) →
    totalExec (reassignLoop topUp finish available infos).execInfoList =
      totalExec infos + ((visits topUp available infos).map Visit.growth).sum
  /-- A relation that holds of unchanged containers holds of all when it holds of
  the visited ones. -/
  containers : ∀ R : ExecutionInfo → ExecutionInfo → Prop, (∀ container, R container container) →
    (List.Forall₂ R infos (reassignLoop topUp finish available infos).execInfoList ↔
      ∀ visited ∈ visits topUp available infos, ¬visited.Breaks →
        R visited.container (finish visited.recorded))

/-- A container that is passed over stays as it is. -/
theorem PassSpec.skip {container : ExecutionInfo} {containers : List ExecutionInfo}
    (hspec : PassSpec topUp finish available containers)
    (hloop : reassignLoop topUp finish available (container :: containers) =
      (reassignLoop topUp finish available containers).after container)
    (hvisits : visits topUp available (container :: containers) =
      visits topUp available containers) :
    PassSpec topUp finish available (container :: containers) where
  exited := by
    rw [hloop, hvisits]
    exact hspec.exited
  remaining := by
    rw [hloop, hvisits]
    exact hspec.remaining
  growth hlive := by
    rw [hvisits] at hlive
    rw [hloop, hvisits, ReassignTrace.after, totalExec_cons, totalExec_cons, hspec.growth hlive,
      add_assoc]
  containers R hsame := by
    rw [hloop, hvisits, ReassignTrace.after, List.forall₂_cons, hspec.containers R hsame]
    exact and_iff_right (hsame container)

/-- A pass that has come to its end leaves the other containers as they are. -/
theorem PassSpec.stop {container : ExecutionInfo} {containers : List ExecutionInfo}
    (hloop : reassignLoop topUp finish available (container :: containers) =
      ⟨false, available, container :: containers⟩)
    (hvisits : visits topUp available (container :: containers) = []) :
    PassSpec topUp finish available (container :: containers) where
  exited := by simp [hloop, hvisits]
  remaining := by simp [hloop, hvisits]
  growth := by simp [hloop, hvisits]
  containers R hsame := by
    rw [hloop, hvisits]
    exact ⟨fun _ _ hmem => absurd hmem List.not_mem_nil,
      fun _ => List.forall₂_same.mpr fun info _ => hsame info⟩

variable (topUp finish) in
/-- Every pass leaves behind what its visits say, if `finish` keeps the totals. -/
theorem passSpec (hfinish : ∀ info : ExecutionInfo, (finish info).execParallelism =
      info.execParallelism) (available : ℤ) (infos : List ExecutionInfo) :
    PassSpec topUp finish available infos := by
  induction infos generalizing available with
  | nil =>
      exact ⟨by simp [reassignLoop, visits], by simp [reassignLoop, visits],
        by simp [reassignLoop, visits], by simp [reassignLoop, visits]⟩
  | cons container containers ih =>
      by_cases hstate : container.state = .start
      swap
      · exact (ih available).skip (by simp [reassignLoop, hstate]) (by simp [visits, hstate])
      cases hgrant : topUp available container with
      | none =>
          by_cases hzero : available = 0
          · subst hzero
            exact .stop (by simp [reassignLoop, visit, hstate, hgrant])
              (by simp [visits, hstate, hgrant])
          · exact (ih available).skip (by simp [reassignLoop, visit, hstate, hgrant, hzero])
              (by simp [visits, hstate, hgrant, hzero])
      | some granted =>
          set first : Visit := ⟨available, container, granted⟩ with hfirst
          by_cases hbreaks : first.Breaks
          · -- the send raises: the list stays as it is
            have hfailed : container.clientsocket.failed = true := hbreaks
            have hloop : reassignLoop topUp finish available (container :: containers) =
                ⟨true, available, container :: containers⟩ := by
              simp [reassignLoop, visit, hstate, hgrant, ExecutionInfo.updateParallelism, hfailed]
            have hvisits : visits topUp available (container :: containers) = [first] := by
              simp [visits, hstate, hgrant, hfailed, hfirst]
            refine ⟨?_, fun hlive => ?_, fun hlive => ?_, ?_⟩
            · simp [hloop, hvisits, hbreaks]
            · rw [hvisits, List.forall_mem_singleton] at hlive
              exact absurd hbreaks hlive
            · rw [hvisits, List.forall_mem_singleton] at hlive
              exact absurd hbreaks hlive
            · intro R hsame
              rw [hloop, hvisits, List.forall_mem_singleton]
              exact ⟨fun _ hlive => absurd hbreaks hlive,
                fun _ => List.forall₂_same.mpr fun info _ => hsame info⟩
          · have hfailed : container.clientsocket.failed = false := by
              simpa [Visit.Breaks] using hbreaks
            have hgrowth : (finish first.recorded).execParallelism =
                container.execParallelism + first.growth := by
              rw [hfinish, Visit.growth, add_sub_cancel]
            by_cases hzero : available - granted.charged = 0
            · have hloop : reassignLoop topUp finish available (container :: containers) =
                  ⟨false, 0, finish first.recorded :: containers⟩ := by
                simp [reassignLoop, visit, hstate, hgrant, ExecutionInfo.updateParallelism,
                  hfailed, hzero, Visit.recorded, hfirst]
              have hvisits : visits topUp available (container :: containers) = [first] := by
                simp [visits, hstate, hgrant, hzero, hfirst]
              refine ⟨?_, fun _ => ?_, fun _ => ?_, fun R hsame => ?_⟩
              · simp [hloop, hvisits, hbreaks]
              · simp [hloop, hvisits, hfirst, hzero]
              · simp only [hloop, hvisits, totalExec_cons, hgrowth, List.map_cons, List.map_nil,
                  List.sum_singleton]
                omega
              · rw [hloop, hvisits, List.forall_mem_singleton, List.forall₂_cons]
                exact ⟨fun hall _ => hall.1, fun hall => ⟨hall hbreaks,
                  List.forall₂_same.mpr fun info _ => hsame info⟩⟩
            · have hspec := ih (available - granted.charged)
              have hloop : reassignLoop topUp finish available (container :: containers) =
                  (reassignLoop topUp finish (available - granted.charged) containers).after
                    (finish first.recorded) := by
                simp [reassignLoop, visit, hstate, hgrant, ExecutionInfo.updateParallelism,
                  hfailed, hzero, Visit.recorded, hfirst]
              have hvisits : visits topUp available (container :: containers) =
                  first :: visits topUp (available - granted.charged) containers := by
                simp [visits, hstate, hgrant, hfailed, hzero, hfirst]
              have hlater : (∀ visited ∈ visits topUp available (container :: containers),
                  ¬visited.Breaks) ↔
                  ∀ visited ∈ visits topUp (available - granted.charged) containers,
                    ¬visited.Breaks := by
                rw [hvisits, List.forall_mem_cons]
                exact and_iff_right hbreaks
              refine ⟨?_, fun hlive => ?_, fun hlive => ?_, fun R hsame => ?_⟩
              · rw [hlater, ← hspec.exited, hloop]
                rfl
              · rw [hloop, ReassignTrace.after, hspec.remaining (hlater.mp hlive), hvisits,
                  List.map_cons, List.sum_cons, sub_sub]
              · rw [hloop, ReassignTrace.after, totalExec_cons, totalExec_cons,
                  hspec.growth (hlater.mp hlive), hvisits, List.map_cons, List.sum_cons, hgrowth]
                omega
              · rw [hloop, ReassignTrace.after, List.forall₂_cons, hspec.containers R hsame,
                  hvisits, List.forall_mem_cons]
                exact and_congr_left fun _ => ⟨fun hfirst _ => hfirst, fun hfirst => hfirst hbreaks⟩

end Pass

end ContainerScheduler.Analysis
