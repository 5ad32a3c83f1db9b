/-
# Every node is processed exactly once

In a run without failures the nodes that are ready are, each once, in the hands of a
closure or propagated. A node leaves the hands of its closure when its outputs are
propagated, and the nodes these make ready come into the same hands, so no node is
taken up twice. When no closure has a node left, every node whose inputs were all
propagated was propagated itself, and with a graph without cycles these are all nodes.
-/

import ContainerScheduler.Analysis.Activation
import ContainerScheduler.Analysis.FinishOnce
import Mathlib.Data.List.Nodup

namespace ContainerScheduler.Analysis

open Executor Math

universe u v w

/-! ## Lists over the closures -/

section Collect

variable {ν : Type u} {ω : Type v} {β : Type w} (items : Worker ν ω → List β)

/-- What all closures have. -/
def collect (workers : List (Worker ν ω)) : List β := workers.flatMap items

@[simp]
theorem collect_nil : collect items [] = [] := rfl

@[simp]
theorem collect_singleton (worker : Worker ν ω) : collect items [worker] = items worker := by
  simp [collect]

variable {workers : List (Worker ν ω)} {worker : Worker ν ω} {index : ℕ}

/-- What one closure has and what the others have. -/
theorem collect_perm (hworker : workers[index]? = some worker) :
    (collect items workers).Perm (items worker ++ collect items (workers.eraseIdx index)) := by
  obtain ⟨hindex, rfl⟩ := List.getElem?_eq_some_iff.mp hworker
  have hperm := (List.getElem_cons_eraseIdx_perm hindex).flatMap_right items
  simpa [collect] using hperm.symm

/-- A move changes what the closure has that moved and what those have that it started. -/
theorem collect_move (hworker : workers[index]? = some worker) (moved : Worker ν ω)
    (spawned : List (Worker ν ω)) :
    (collect items (workers.set index moved ++ spawned)).Perm
      ((items moved ++ collect items spawned) ++ collect items (workers.eraseIdx index)) := by
  obtain ⟨hindex, -⟩ := List.getElem?_eq_some_iff.mp hworker
  have hset := (List.set_perm_cons_eraseIdx hindex moved).flatMap_right items
  have happend : collect items (workers.set index moved ++ spawned) =
      collect items (workers.set index moved) ++ collect items spawned := by simp [collect]
  rw [happend, List.append_assoc]
  refine (List.Perm.append_right _ hset).trans ?_
  rw [List.flatMap_cons, List.append_assoc]
  exact List.Perm.append_left _ List.perm_append_comm

omit items in
/-- What holds of all closures holds of them after a move if it does of the new ones. -/
theorem forall_move {P : Worker ν ω → Prop} (hall : ∀ other ∈ workers, P other)
    {moved : Worker ν ω} {spawned : List (Worker ν ω)}
    (hnew : ∀ other ∈ moved :: spawned, P other) :
    ∀ other ∈ workers.set index moved ++ spawned, P other := by
  intro other hother
  obtain hset | hspawned := List.mem_append.mp hother
  · obtain hold | rfl := List.mem_or_eq_of_mem_set hset
    · exact hall other hold
    · exact hnew other List.mem_cons_self
  · exact hnew other (List.mem_cons_of_mem _ hspawned)

end Collect

variable {ν : Type u} {α : Type v} [DecidableEq ν] {graph : Graph ν}

/-! ## Nodes in hand -/

section Once

variable (graph)

/-- The nodes that are activated: those that are ready, and of the sinks only those
that have no inputs. -/
def Activated (iteration : IterationState ν α) (node : ν) : Prop :=
  node ∈ graph.nodes ∧ (graph.kind node = .sink → graph.inEdges node = []) ∧
    IsReady graph iteration.arrived (remaining graph iteration.propagated) node

/-- The nodes in hand and those that were propagated are the activated ones, each
once; and the iteration is there as long as a node is in hand. -/
structure Once (iteration : IterationState ν α) (held : List ν) : Prop where
  fits : Fits graph iteration (remaining graph iteration.propagated)
  nodup : (held ++ iteration.propagated).Nodup
  mem : ∀ node, node ∈ held ++ iteration.propagated ↔ Activated graph iteration node
  outstandingOps : iteration.outstandingOps = held.length
  deleted : iteration.deleted = true → held = []

variable {graph} {iteration : IterationState ν α} {held : List ν}

theorem isReady_of_none_left {arrived : List (Edge ν × Bool)} {left : List (Edge ν)} {node : ν}
    (hnone : ∀ edge ∈ left, edge.dst ≠ node) : IsReady graph arrived left node := by
  by_cases hkind : graph.kind node = .merge
  · rw [isReady_merge hkind]
    refine ⟨?_, .inr ?_⟩ <;>
      exact List.countP_eq_zero.mpr fun edge hedge => by simp [hnone edge hedge]
  · rw [isReady_ordinary hkind]
    exact List.countP_eq_zero.mpr fun edge hedge => by simp [hnone edge hedge]

/-- Before anything arrived, only such a node is ready. -/
theorem isReady_nil_iff {left : List (Edge ν)} {node : ν} :
    IsReady graph [] left node ↔ ∀ edge ∈ left, edge.dst ≠ node := by
  refine ⟨fun hready edge hedge hdst => ?_, isReady_of_none_left⟩
  by_cases hkind : graph.kind node = .merge
  · obtain ⟨hcontrol, hlive | hdata⟩ := (isReady_merge hkind).mp hready
    · simp [arrivedData] at hlive
    · have hcontrol := List.countP_eq_zero.mp hcontrol edge hedge
      have hdata := List.countP_eq_zero.mp hdata edge hedge
      cases hat : edge.isControl <;> simp [hdst, hat] at hcontrol hdata
  · have hnone := List.countP_eq_zero.mp ((isReady_ordinary hkind).mp hready) edge hedge
    simp [hdst] at hnone

theorem Once.perm {held' : List ν} (honce : Once graph iteration held) (hheld : held.Perm held') :
    Once graph iteration held' where
  fits := honce.fits
  nodup := ((List.Perm.append_right _ hheld).nodup_iff).mp honce.nodup
  mem := fun node => by
    rw [← (List.Perm.append_right iteration.propagated hheld).mem_iff, honce.mem node]
  outstandingOps := by rw [honce.outstandingOps, hheld.length_eq]
  deleted := fun hdeleted => by
    obtain rfl := honce.deleted hdeleted
    exact List.nil_perm.mp hheld

/-- Before anything ran, the root nodes are in hand. -/
theorem once_initialIteration :
    Once graph (initialIteration graph : IterationState ν α) graph.rootNodes where
  fits := fits_initialIteration
  nodup := by simpa [initialIteration, Graph.rootNodes] using graph.nodes_nodup.filter _
  mem := fun node => by
    simp only [initialIteration, List.append_nil, Graph.rootNodes, List.mem_filter, Activated,
      isReady_nil_iff, decide_eq_true_eq, remaining, activatingEdges, Graph.inEdges,
      List.filter_eq_nil_iff]
    constructor
    · rintro ⟨hnode, hroot⟩
      exact ⟨hnode, fun _ => hroot, fun edge hedge => hroot edge hedge.1.1⟩
    · rintro ⟨hnode, hsink, hready⟩
      refine ⟨hnode, fun edge hedge => ?_⟩
      rintro rfl
      by_cases hkind : graph.kind edge.dst = .sink
      · exact hsink hkind edge hedge rfl
      · exact hready edge ⟨⟨hedge, by simpa using hkind⟩, by simp⟩ rfl
  outstandingOps := rfl
  deleted := fun hdeleted => by cases hdeleted

theorem Fits.clearInputs {left : List (Edge ν)} (hfits : Fits graph iteration left) (node : ν) :
    Fits graph (iteration.clearInputs node) left :=
  ⟨hfits.edges, hfits.pending, hfits.merge, hfits.dead⟩

theorem activated_of_becomes_ready {arrived : List (Edge ν × Bool)} {propagated : List ν} {node : ν}
    (hnot : ¬ IsReady graph arrived (remaining graph propagated) node) :
    node ∈ graph.nodes ∧ graph.kind node ≠ .sink := by
  have hsome : ∃ edge ∈ remaining graph propagated, edge.dst = node := by
    by_contra hnone
    exact hnot (isReady_of_none_left fun edge hedge hdst => hnone ⟨edge, hedge, hdst⟩)
  obtain ⟨edge, hedge, rfl⟩ := hsome
  simp only [remaining, activatingEdges, List.mem_filter, decide_eq_true_eq] at hedge
  exact ⟨graph.dst_mem edge hedge.1.1, hedge.1.2⟩

/-- **Propagation.** The node in hand is replaced by those that become ready. -/
theorem Once.propagate {tagged : TaggedNode ν} {outputs : Entries α}
    (honce : Once graph iteration (tagged.node :: held)) :
    let propagated := propagateOutputs graph tagged outputs (iteration.clearInputs tagged.node)
    Once graph propagated.1 (propagated.2.map TaggedNode.node ++ held) := by
  have hnew : tagged.node ∉ held ∧ tagged.node ∉ iteration.propagated := by
    simpa using (List.nodup_cons.mp honce.nodup).1
  have hleft := @remaining_concat ν _ graph iteration.propagated tagged.node hnew.2
  have hactivates := @activateNodes_activates ν α _ graph tagged.isDead outputs _ tagged.node _
    ((honce.fits.perm hleft).clearInputs tagged.node)
  have hbefore : ∀ node, IsReady graph iteration.arrived
      ((graph.outEdges tagged.node).filter (fun edge => graph.kind edge.dst ≠ .sink) ++
        remaining graph (iteration.propagated ++ [tagged.node])) node ↔
      IsReady graph iteration.arrived (remaining graph iteration.propagated) node :=
    fun node => (isReady_perm hleft node).symm
  have hpropagated := @activateNodes_propagated ν α _ graph tagged.isDead outputs
    (iteration.clearInputs tagged.node) tagged.node
  simp only [propagateOutputs]
  generalize activateNodes graph tagged.node tagged.isDead outputs
    (iteration.clearInputs tagged.node) = activated at hactivates hpropagated ⊢
  obtain ⟨after, made⟩ := activated
  obtain ⟨hfits, hnodup, hmem, hstays, hops, hdeleted⟩ := hactivates
  simp only [IterationState.clearInputs, hbefore] at hmem hstays hops hdeleted hpropagated
  have hmade : ∀ node ∈ made.map TaggedNode.node, ¬ Activated graph iteration node :=
    fun node hnode hactivated => ((hmem node).mp hnode).2 hactivated.2.2
  refine ⟨?_, ?_, ?_, ?_, ?_⟩
  · simp only [hpropagated]
    exact ⟨hfits.edges, hfits.pending, hfits.merge, hfits.dead⟩
  · simp only [hpropagated]
    have hdisjoint : List.Disjoint (made.map TaggedNode.node)
        (tagged.node :: held ++ iteration.propagated) :=
      fun node hnode hold => hmade node hnode ((honce.mem node).mp hold)
    have hall := List.Nodup.append hnodup honce.nodup hdisjoint
    refine hall.perm ?_
    simp only [List.append_assoc]
    refine List.Perm.append_left _ ?_
    exact (List.perm_append_singleton tagged.node (held ++ iteration.propagated)).symm.trans
      (List.Perm.of_eq (by simp))
  · intro node
    have hlists : node ∈ made.map TaggedNode.node ++ held ++
          (iteration.propagated ++ [tagged.node]) ↔
        node ∈ made.map TaggedNode.node ∨ node ∈ tagged.node :: held ++ iteration.propagated := by
      simp [or_assoc, or_left_comm, or_comm]
    simp only [hpropagated, Activated]
    rw [hlists, honce.mem node]
    constructor
    · rintro (hnode | ⟨hnode, hsink, hready⟩)
      · obtain ⟨hready, hnot⟩ := (hmem node).mp hnode
        obtain ⟨hnode, hkind⟩ := activated_of_becomes_ready hnot
        exact ⟨hnode, fun hsink => absurd hsink hkind, hready⟩
      · exact ⟨hnode, hsink, hstays node hready⟩
    · rintro ⟨hnode, hsink, hready⟩
      by_cases hold : IsReady graph iteration.arrived (remaining graph iteration.propagated) node
      · exact .inr ⟨hnode, hsink, hold⟩
      · exact .inl ((hmem node).mpr ⟨hready, hold⟩)
  · simp only [hops, honce.outstandingOps, List.length_cons, List.length_append, List.length_map]
    omega
  · intro hgone
    have hthere : iteration.deleted = false := by
      refine Bool.eq_false_iff.mpr fun hgone => ?_
      cases honce.deleted hgone
    simp only [hdeleted, hthere, hops, honce.outstandingOps, Bool.false_or, decide_eq_true_eq,
      List.length_cons] at hgone
    refine List.eq_nil_of_length_eq_zero ?_
    simp only [List.length_append, List.length_map]
    omega

end Once

/-! ## The closures -/

section Workers

/-- The nodes a closure has in hand: ready, under way, or made ready and not yet
scheduled. -/
def heldBy (worker : Worker ν (Entries α)) : List (TaggedNode ν) :=
  worker.inlineReady.getD [] ++
    match worker.pc with
    | .computing tagged | .computed tagged _ => [tagged]
    | .nodeDone _ => worker.made
    | .dispatching closures => closures
    | .looping | .scheduleFinish | .finishing | .ended => []

/-- The node a closure has begun and not propagated. -/
def runningBy (worker : Worker ν (Entries α)) : List ν :=
  match worker.pc with
  | .computing tagged | .computed tagged _ => [tagged.node]
  | _ => []

/-- The node a closure has propagated and not counted. -/
def leavingBy (worker : Worker ν (Entries α)) : List ν :=
  match worker.pc with
  | .nodeDone tagged => [tagged.node]
  | _ => []

/-- A run without failures: inputs are prepared and kernels put something out. -/
def NodesSucceed :
    ExecutorState ν (Entries α) (IterationState ν α) → ExecutorStep (Entries α) → Prop
  | _, .worker _ (.process prepared) => prepared = true
  | _, .worker _ (.compute outputs) => outputs.isSome = true
  | _, _ => True

instance : ∀ (state : ExecutorState ν (Entries α) (IterationState ν α))
    (label : ExecutorStep (Entries α)), Decidable (NodesSucceed state label)
  | _, .worker _ (.process prepared) => inferInstanceAs (Decidable (prepared = true))
  | _, .worker _ (.compute outputs) => inferInstanceAs (Decidable (outputs.isSome = true))
  | _, .worker _ .propagate => .isTrue trivial
  | _, .worker _ (.nodeDone _) => .isTrue trivial
  | _, .worker _ .dispatch => .isTrue trivial
  | _, .worker _ .leave => .isTrue trivial
  | _, .worker _ .scheduleFinish => .isTrue trivial
  | _, .worker _ .finish => .isTrue trivial
  | _, .worker _ .incDeferred => .isTrue trivial
  | _, .decDeferred => .isTrue trivial
  | _, .finishDeferred => .isTrue trivial

variable (graph)

/-- The nodes in hand are the activated ones that were not propagated; the nodes that
were processed are under way or propagated; and those that were propagated are being
counted or counted. -/
structure ProcessedOnce (state : ExecutorState ν (Entries α) (IterationState ν α)) : Prop where
  ok : ∀ worker ∈ state.workers, worker.ok = true
  once : Once graph state.shared.frames ((collect heldBy state.workers).map TaggedNode.node)
  processed : (state.shared.processed.map TaggedNode.node).Perm
    (collect runningBy state.workers ++ state.shared.frames.propagated)
  done : state.shared.frames.propagated.Perm
    (collect leavingBy state.workers ++ state.shared.nodeDones.map Prod.fst)

variable {graph} {state : ExecutorState ν (Entries α) (IterationState ν α)}
  {after : Shared ν (IterationState ν α)} {worker moved : Worker ν (Entries α)}
  {spawned : List (Worker ν (Entries α))} {index : ℕ}

section

variable (hinv : ProcessedOnce graph state) (hworker : state.workers[index]? = some worker)

include hinv hworker

/-- A closure moves and nothing is propagated. It may begin some nodes and count
others. -/
theorem processedOnce_quiet (hframes : after.frames = state.shared.frames)
    (hok : ∀ other ∈ moved :: spawned, other.ok = true)
    (hheld : (heldBy moved ++ collect heldBy spawned).Perm (heldBy worker))
    (begun counted : List ν)
    (hprocessed : after.processed.map TaggedNode.node =
      state.shared.processed.map TaggedNode.node ++ begun)
    (hrunning : (runningBy moved ++ collect runningBy spawned).Perm (begun ++ runningBy worker))
    (hdones : after.nodeDones.map Prod.fst = state.shared.nodeDones.map Prod.fst ++ counted)
    (hleaving : (counted ++ (leavingBy moved ++ collect leavingBy spawned)).Perm
      (leavingBy worker)) :
    ProcessedOnce graph ⟨after, state.workers.set index moved ++ spawned⟩ where
  ok := forall_move hinv.ok hok
  once := by
    rw [hframes]
    refine hinv.once.perm (List.Perm.map _ ?_)
    exact (collect_perm heldBy hworker).trans
      ((List.Perm.append_right _ hheld.symm).trans (collect_move heldBy hworker moved spawned).symm)
  processed := by
    refine List.perm_iff_count.mpr fun node => ?_
    have hbefore := (collect_perm runningBy hworker).count_eq node
    have hafter := (collect_move runningBy hworker moved spawned).count_eq node
    have hold := hinv.processed.count_eq node
    have hchange := hrunning.count_eq node
    simp only [hprocessed, hframes, List.count_append] at *
    omega
  done := by
    refine List.perm_iff_count.mpr fun node => ?_
    have hbefore := (collect_perm leavingBy hworker).count_eq node
    have hafter := (collect_move leavingBy hworker moved spawned).count_eq node
    have hold := hinv.done.count_eq node
    have hchange := hleaving.count_eq node
    simp only [hdones, hframes, List.count_append] at *
    omega

theorem processedOnce_process {isExpensive kernelIsAsync : ν → Bool}
    (hmove : worker.process (graphItems graph isExpensive kernelIsAsync) state.shared true =
      some (after, moved, spawned)) :
    ProcessedOnce graph ⟨after, state.workers.set index moved ++ spawned⟩ := by
  have hok := hinv.ok worker (List.mem_of_getElem? hworker)
  unfold Worker.process at hmove
  split at hmove
  next tagged inlineReady hpc hinline =>
      simp only [Bool.true_eq_false, if_false] at hmove
      split at hmove <;> [skip; split at hmove] <;> cases hmove
      all_goals
        refine processedOnce_quiet hinv hworker rfl ?_ ?_ [tagged.node] [] ?_ ?_ ?_ ?_
      all_goals
        simp [heldBy, runningBy, leavingBy, Worker.callback, hpc, hinline, hok]
  · cases hmove

theorem processedOnce_compute {isExpensive kernelIsAsync : ν → Bool}
    {outputs : Option (Entries α)} (houtputs : outputs.isSome = true)
    (hmove : worker.compute (graphItems graph isExpensive kernelIsAsync) state.shared outputs =
      some (after, moved, spawned)) :
    ProcessedOnce graph ⟨after, state.workers.set index moved ++ spawned⟩ := by
  unfold Worker.compute at hmove
  split at hmove
  next tagged hpc =>
      cases hmove
      refine processedOnce_quiet hinv hworker rfl ?_ ?_ [] [] ?_ ?_ ?_ ?_ <;>
        simp [heldBy, runningBy, leavingBy, hpc, houtputs]
  · cases hmove

end

/-- What a closure without an error does when it propagates. -/
theorem propagate_eq {isExpensive kernelIsAsync : ν → Bool} (hok : worker.ok = true)
    (hmove : worker.propagate (graphItems graph isExpensive kernelIsAsync) state.shared =
      some (after, moved, spawned)) :
    ∃ tagged outputs frames ready, worker.pc = .computed tagged outputs ∧
      propagateOutputs graph tagged outputs (state.shared.frames.clearInputs tagged.node) =
        (frames, ready) ∧
      after = { state.shared with frames := frames } ∧
      moved = { worker with
        ready := ready
        pc := .nodeDone tagged } ∧
      spawned = [] := by
  unfold Worker.propagate at hmove
  split at hmove
  next tagged outputs hpc =>
      simp only [hok, if_true] at hmove
      cases hmove
      refine ⟨tagged, outputs, _, _, hpc, rfl, rfl, ?_, rfl⟩
      rw [hok]
      rfl
  · cases hmove

section

variable (hinv : ProcessedOnce graph state) (hworker : state.workers[index]? = some worker)

include hinv hworker

/-- The node that is propagated is replaced by those it makes ready. -/
theorem processedOnce_propagate {isExpensive kernelIsAsync : ν → Bool}
    (hmove : worker.propagate (graphItems graph isExpensive kernelIsAsync) state.shared =
      some (after, moved, spawned)) :
    ProcessedOnce graph ⟨after, state.workers.set index moved ++ spawned⟩ := by
  have hok := hinv.ok worker (List.mem_of_getElem? hworker)
  obtain ⟨tagged, outputs, frames, ready, hpc, hframes, rfl, hmoved, rfl⟩ := propagate_eq hok hmove
  have hheld := (collect_perm heldBy hworker).map TaggedNode.node
  have hfront : ((heldBy worker ++ collect heldBy (state.workers.eraseIdx index)).map
      TaggedNode.node).Perm (tagged.node :: ((worker.inlineReady.getD []).map TaggedNode.node ++
        (collect heldBy (state.workers.eraseIdx index)).map TaggedNode.node)) := by
    simp only [heldBy, hpc, List.map_append, List.map_cons, List.append_assoc,
      List.singleton_append]
    exact List.perm_middle
  have honce := @Once.propagate ν α _ graph _ _ tagged outputs
    (hinv.once.perm (hheld.trans hfront))
  rw [hframes] at honce
  have hpropagated : frames.propagated = state.shared.frames.propagated ++ [tagged.node] := by
    have hlist := @propagateOutputs_propagated ν α _ graph outputs
      (state.shared.frames.clearInputs tagged.node) tagged
    rw [hframes] at hlist
    exact hlist
  refine ⟨forall_move hinv.ok (by simp [hmoved, hok]), honce.perm ?_,
    List.perm_iff_count.mpr fun node => ?_, List.perm_iff_count.mpr fun node => ?_⟩
  · refine List.Perm.trans ?_ ((collect_move heldBy hworker moved []).map TaggedNode.node).symm
    simp only [hmoved, heldBy, Worker.made, hok, if_true, List.map_append, collect_nil,
      List.append_nil, ← List.append_assoc]
    exact List.Perm.append_right _ List.perm_append_comm
  · have hbefore := (collect_perm runningBy hworker).count_eq node
    have hafter := (collect_move runningBy hworker moved []).count_eq node
    have hold := hinv.processed.count_eq node
    simp only [hpropagated, hmoved, List.count_append, List.count_nil, runningBy, hpc, collect_nil]
      at hbefore hafter hold ⊢
    omega
  · have hbefore := (collect_perm leavingBy hworker).count_eq node
    have hafter := (collect_move leavingBy hworker moved []).count_eq node
    have hold := hinv.done.count_eq node
    simp only [hpropagated, hmoved, List.count_append, List.count_nil, leavingBy, hpc, collect_nil]
      at hbefore hafter hold ⊢
    omega

/-- `NodeDone` counts the node, and what it made ready is scheduled. -/
theorem processedOnce_nodeDone {isExpensive kernelIsAsync : ν → Bool} {notSleepThread : Bool}
    (hmove : worker.nodeDone (graphItems graph isExpensive kernelIsAsync) state.shared
      notSleepThread = some (after, moved, spawned)) :
    ProcessedOnce graph ⟨after, state.workers.set index moved ++ spawned⟩ := by
  have hok := hinv.ok worker (List.mem_of_getElem? hworker)
  obtain ⟨tagged, inlineReady, closures, completed, hpc, -, hplaced, rfl, rfl, rfl⟩ :=
    Worker.nodeDone_eq hmove
  refine processedOnce_quiet hinv hworker rfl ?_ ?_ [] [tagged.node] ?_ ?_ ?_ ?_
  · simpa using hok
  · simpa [heldBy, hpc] using hplaced
  all_goals simp [runningBy, leavingBy, hpc]

theorem processedOnce_dispatch
    (hmove : worker.dispatch state.shared = some (after, moved, spawned)) :
    ProcessedOnce graph ⟨after, state.workers.set index moved ++ spawned⟩ := by
  have hok := hinv.ok worker (List.mem_of_getElem? hworker)
  unfold Worker.dispatch at hmove
  split at hmove
  next hpc =>
      cases hmove
      refine processedOnce_quiet hinv hworker rfl ?_ ?_ [] [] ?_ ?_ ?_ ?_ <;>
        simp [heldBy, runningBy, leavingBy, hpc, hok]
  next tagged closures hpc =>
      cases hmove
      refine processedOnce_quiet hinv hworker rfl ?_ ?_ [] [] ?_ ?_ ?_ ?_
      · simpa [Worker.closure] using hok
      · simp only [heldBy, Worker.closure, collect_singleton, Option.getD_some, List.append_nil,
          List.append_assoc, hpc]
        exact List.Perm.append_left _ List.perm_append_comm
      all_goals simp [runningBy, leavingBy, Worker.closure, hpc]
  · cases hmove

/-- The moves at the end of a closure concern no node. -/
theorem processedOnce_end
    (hmove : worker.leave state.shared = some (after, moved, spawned) ∨
      worker.scheduleFinish state.shared = some (after, moved, spawned) ∨
      worker.finish state.shared = some (after, moved, spawned) ∨
      worker.incDeferred state.shared = some (after, moved, spawned)) :
    ProcessedOnce graph ⟨after, state.workers.set index moved ++ spawned⟩ := by
  have hok := hinv.ok worker (List.mem_of_getElem? hworker)
  rcases hmove with hmove | hmove | hmove | hmove
  · unfold Worker.leave at hmove
    split at hmove
    next hpc hnil =>
        cases hmove
        refine processedOnce_quiet hinv hworker rfl ?_ ?_ [] [] ?_ ?_ ?_ ?_ <;>
          cases worker.completed <;> simp [heldBy, runningBy, leavingBy, hpc, hok]
    · cases hmove
  · unfold Worker.scheduleFinish at hmove
    split at hmove
    next hpc =>
        split at hmove <;> cases hmove
        all_goals
          refine processedOnce_quiet hinv hworker rfl ?_ ?_ [] [] ?_ ?_ ?_ ?_ <;>
            simp [heldBy, runningBy, leavingBy, hpc, hok]
    · cases hmove
  · unfold Worker.finish at hmove
    split at hmove
    next hpc =>
        cases hmove
        refine processedOnce_quiet hinv hworker rfl ?_ ?_ [] [] ?_ ?_ ?_ ?_ <;>
          simp [heldBy, runningBy, leavingBy, hpc, hok]
    · cases hmove
  · unfold Worker.incDeferred at hmove
    split at hmove
    next tagged hpc =>
        cases hmove
        refine processedOnce_quiet hinv hworker rfl ?_ ?_ [] [] ?_ ?_ ?_ ?_ <;>
          simp [hok]
    · cases hmove

theorem processedOnce_move {isExpensive kernelIsAsync : ν → Bool} {move : WorkerMove (Entries α)}
    (hallowed : NodesSucceed state (.worker index move))
    (hmove : worker.move (graphItems graph isExpensive kernelIsAsync) state.shared move =
      some (after, moved, spawned)) :
    ProcessedOnce graph ⟨after, state.workers.set index moved ++ spawned⟩ := by
  cases move with
  | process prepared =>
      obtain rfl : prepared = true := hallowed
      exact processedOnce_process hinv hworker hmove
  | compute outputs => exact processedOnce_compute hinv hworker hallowed hmove
  | propagate => exact processedOnce_propagate hinv hworker hmove
  | nodeDone notSleepThread => exact processedOnce_nodeDone hinv hworker hmove
  | dispatch => exact processedOnce_dispatch hinv hworker hmove
  | leave => exact processedOnce_end hinv hworker (.inl hmove)
  | scheduleFinish => exact processedOnce_end hinv hworker (.inr (.inl hmove))
  | finish => exact processedOnce_end hinv hworker (.inr (.inr (.inl hmove)))
  | incDeferred => exact processedOnce_end hinv hworker (.inr (.inr (.inr hmove)))

end

end Workers

/-! ## Runs -/

section Runs

variable {isExpensive kernelIsAsync : ν → Bool}
  {state after : ExecutorState ν (Entries α) (IterationState ν α)}

/-- **The step lemma of the nodes in hand.** -/
theorem processedOnce_step {label : ExecutorStep (Entries α)} (hinv : ProcessedOnce graph state)
    (hallowed : NodesSucceed state label)
    (hstep : state.step (graphItems graph isExpensive kernelIsAsync) label = some after) :
    ProcessedOnce graph after := by
  cases label with
  | worker index move =>
      obtain ⟨worker, shared, moved, spawned, hworker, hmove, rfl⟩ :=
        ExecutorState.worker_step hstep
      exact processedOnce_move hinv hworker hallowed hmove
  | decDeferred =>
      obtain ⟨shared, hdec, rfl⟩ := Option.map_eq_some_iff.mp hstep
      simp only [Shared.decDeferred, Option.ite_none_right_eq_some, Option.some.injEq] at hdec
      obtain ⟨-, rfl⟩ := hdec
      exact ⟨hinv.ok, hinv.once, hinv.processed, hinv.done⟩
  | finishDeferred =>
      obtain ⟨shared, hfinish, rfl⟩ := Option.map_eq_some_iff.mp hstep
      simp only [Shared.finishDeferred, Option.ite_none_right_eq_some, Option.some.injEq] at hfinish
      obtain ⟨-, rfl⟩ := hfinish
      exact ⟨hinv.ok, hinv.once, hinv.processed, hinv.done⟩

/-- **The run lemma of the nodes in hand.** -/
theorem processedOnce_of_reaches
    (hreached : (graphExecutor graph isExpensive kernelIsAsync).Reaches NodesSucceed state) :
    ProcessedOnce graph state := by
  refine hreached.invariant (P := ProcessedOnce graph) ?_
    fun _ _ _ _ hinv hallowed htaken => processedOnce_step hinv hallowed htaken
  have honce : Once graph (initialIteration graph : IterationState ν α) graph.rootNodes :=
    once_initialIteration
  by_cases hroots : graph.rootNodes = []
  · rw [hroots] at honce
    refine ⟨?_, by simpa [graphExecutor, runAsync, hroots] using honce, ?_, ?_⟩ <;>
      simp [graphExecutor, runAsync, hroots, initialIteration]
  · refine ⟨?_, ?_, ?_, ?_⟩
    · simp [graphExecutor, runAsync, hroots, Worker.starter]
    · simpa [graphExecutor, runAsync, hroots, Worker.starter, heldBy, Function.comp_def] using honce
    all_goals
      simp [graphExecutor, runAsync, hroots, Worker.starter, runningBy, leavingBy, initialIteration]

end Runs

end ContainerScheduler.Analysis
