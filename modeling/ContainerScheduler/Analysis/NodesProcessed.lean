/-
# All nodes of a graph are processed

A run without failures takes every node of a graph without cycles up once, after its
inputs, and comes to an end. The last `NodeDone` takes the counter of outstanding
operations to zero, and it is the only one that reports completion.
-/

import ContainerScheduler.Analysis.ExactlyOnce

namespace ContainerScheduler.Analysis

open Executor Math

universe u v w

variable {ν : Type u} {α : Type v} [DecidableEq ν] {graph : Graph ν}

/-! ## Inputs -/

section Inputs

variable (graph)

/-- All control inputs of a node arrived, and all its data inputs, or, for a merge,
one data input with a value. -/
def InputsArrived (arrived : List (Edge ν × Bool)) (node : ν) : Prop :=
  (∀ edge ∈ graph.inEdges node, edge.isControl = true → edge ∈ arrived.map Prod.fst) ∧
    ((graph.kind node = .merge ∧
        ∃ edge ∈ graph.inEdges node, edge.isControl = false ∧ (edge, false) ∈ arrived) ∨
      ∀ edge ∈ graph.inEdges node, edge.isControl = false → edge ∈ arrived.map Prod.fst)

variable {graph} {iteration : IterationState ν α} {left : List (Edge ν)} {node : ν}

theorem arrived_or_left (hfits : Fits graph iteration left)
    (hsink : graph.kind node = .sink → graph.inEdges node = []) {edge : Edge ν}
    (hedge : edge ∈ graph.inEdges node) :
    edge ∈ iteration.arrived.map Prod.fst ∨ edge ∈ left := by
  have hkind : graph.kind node ≠ .sink := by
    intro hkind
    rw [hsink hkind] at hedge
    cases hedge
  simp only [Graph.inEdges, List.mem_filter, decide_eq_true_eq] at hedge
  obtain ⟨hmem, rfl⟩ := hedge
  have hactivating : edge ∈ activatingEdges graph := by
    simp [activatingEdges, hmem, hkind]
  exact List.mem_append.mp (hfits.edges.mem_iff.mpr hactivating)

/-- An edge that arrived is an edge of the graph, and not to a sink. -/
theorem mem_edges_of_arrived (hfits : Fits graph iteration left) {edge : Edge ν} {dead : Bool}
    (harrived : (edge, dead) ∈ iteration.arrived) :
    edge ∈ graph.edges ∧ graph.kind edge.dst ≠ .sink := by
  have hmem : edge ∈ activatingEdges graph :=
    hfits.edges.mem_iff.mp (List.mem_append_left _ (List.mem_map_of_mem harrived))
  simpa [activatingEdges] using hmem

/-- The inputs of a ready node arrived. -/
theorem inputsArrived_of_isReady (hfits : Fits graph iteration left)
    (hsink : graph.kind node = .sink → graph.inEdges node = [])
    (hready : IsReady graph iteration.arrived left node) :
    InputsArrived graph iteration.arrived node := by
  have hdst : ∀ edge ∈ graph.inEdges node, edge.dst = node := by simp [Graph.inEdges]
  by_cases hkind : graph.kind node = .merge
  · obtain ⟨hcontrol, hdata⟩ := (isReady_merge hkind).mp hready
    refine ⟨fun edge hedge hat => ?_, hdata.imp (fun hlive => ⟨hkind, ?_⟩) ?_⟩
    · refine (arrived_or_left hfits hsink hedge).resolve_right fun hleft => ?_
      have hnone := List.countP_eq_zero.mp hcontrol edge hleft
      simp [hdst edge hedge, hat] at hnone
    · obtain ⟨⟨edge, dead⟩, harrived, hlive⟩ := List.countP_pos_iff.mp hlive
      simp only [decide_eq_true_eq] at hlive
      obtain ⟨rfl, hat, rfl⟩ := hlive
      have hmem := (mem_edges_of_arrived hfits harrived).1
      exact ⟨edge, by simpa [Graph.inEdges] using hmem, hat, harrived⟩
    · intro hnone edge hedge hat
      refine (arrived_or_left hfits hsink hedge).resolve_right fun hleft => ?_
      have hnone := List.countP_eq_zero.mp hnone edge hleft
      simp [hdst edge hedge, hat] at hnone
  · have hall : ∀ edge ∈ graph.inEdges node, edge ∈ iteration.arrived.map Prod.fst := by
      intro edge hedge
      refine (arrived_or_left hfits hsink hedge).resolve_right fun hleft => ?_
      have hnone := List.countP_eq_zero.mp ((isReady_ordinary hkind).mp hready) edge hleft
      simp [hdst edge hedge] at hnone
    exact ⟨fun edge hedge _ => hall edge hedge, .inr fun edge hedge _ => hall edge hedge⟩

end Inputs

/-! ## Completeness -/

section Complete

variable {iteration : IterationState ν α}

/-- With no node in hand, every node but the sink was propagated, by induction on the
rank: the sources of its inputs were. -/
theorem propagated_of_none_held (honce : Once graph iteration []) :
    ∀ node ∈ graph.nodes, graph.kind node ≠ .sink → node ∈ iteration.propagated := by
  intro node
  induction hrank : graph.rank node using Nat.strong_induction_on generalizing node with
  | _ rank ih =>
      intro hnode hkind
      refine (honce.mem node).mpr ⟨hnode, fun hsink => absurd hsink hkind, ?_⟩
      refine isReady_of_none_left fun edge hedge hdst => ?_
      simp only [remaining, activatingEdges, List.mem_filter, decide_eq_true_eq] at hedge
      obtain ⟨⟨hmem, -⟩, hsrc⟩ := hedge
      have hless := graph.acyclic edge hmem
      rw [hdst, hrank] at hless
      exact hsrc (ih _ hless edge.src rfl (graph.src_mem edge hmem) (graph.sink_src edge hmem))

/-- A graph with nodes has a root node. -/
theorem rootNodes_ne_nil (hnodes : graph.nodes ≠ []) : graph.rootNodes ≠ [] := by
  intro hnone
  have hrank : ∀ rank, ∀ node ∈ graph.nodes, graph.rank node ≠ rank := by
    intro rank
    induction rank using Nat.strong_induction_on with
    | _ rank ih =>
        intro node hnode hrank
        have hroot : graph.inEdges node ≠ [] := by
          intro hroot
          have hmem : node ∈ graph.rootNodes := by simp [Graph.rootNodes, hnode, hroot]
          rw [hnone] at hmem
          cases hmem
        obtain ⟨edge, hedge⟩ := List.exists_mem_of_ne_nil _ hroot
        simp only [Graph.inEdges, List.mem_filter, decide_eq_true_eq] at hedge
        have hless := graph.acyclic edge hedge.1
        rw [hedge.2, hrank] at hless
        exact ih _ hless edge.src (graph.src_mem edge hedge.1) rfl
  obtain ⟨node, hnode⟩ := List.exists_mem_of_ne_nil _ hnodes
  exact hrank _ node hnode rfl

end Complete

/-! ## Reports of completion -/

section Reports

omit [DecidableEq ν]

variable {ω : Type v} {γ : Type w} {items : Items ν ω γ}

/-- As long as operations are outstanding no `NodeDone` reported completion; when none
is, the last one did, and no other. -/
structure Reported (shared : Shared ν γ) : Prop where
  busy : shared.numOutstandingOps ≠ 0 → ∀ report ∈ shared.nodeDones, report.2 = false
  idle : shared.numOutstandingOps = 0 → ∃ earlier node, shared.nodeDones =
    earlier ++ [(node, true)] ∧ ∀ report ∈ earlier, report.2 = false

/-- Only `NodeDone` counts and reports. -/
theorem same_reports {shared after : Shared ν γ} {worker moved : Worker ν ω}
    {spawned : List (Worker ν ω)} {move : WorkerMove ω}
    (hmove : worker.move items shared move = some (after, moved, spawned))
    (hother : ∀ notSleepThread, move ≠ .nodeDone notSleepThread) :
    after.numOutstandingOps = shared.numOutstandingOps ∧ after.nodeDones = shared.nodeDones := by
  cases move with
  | nodeDone notSleepThread => exact absurd rfl (hother notSleepThread)
  | _ =>
      simp only [Worker.move, Worker.process, Worker.compute, Worker.propagate, Worker.dispatch,
        Worker.leave, Worker.scheduleFinish, Worker.finish, Worker.incDeferred] at hmove
      grind

theorem Reported.of_same {shared after : Shared ν γ} (hreported : Reported shared)
    (hsame : after.numOutstandingOps = shared.numOutstandingOps ∧
      after.nodeDones = shared.nodeDones) : Reported after := by
  refine ⟨?_, ?_⟩ <;> rw [hsame.1, hsame.2]
  · exact hreported.busy
  · exact hreported.idle

/-- **The step lemma of the reports.** A `NodeDone` reports completion when it takes
the counter to zero; the counter was not zero before. -/
theorem reported_step {state after : ExecutorState ν ω γ} {label : ExecutorStep ω}
    (hcounted : Counted state) (hreported : Reported state.shared)
    (hstep : state.step items label = some after) : Reported after.shared := by
  cases label with
  | worker index move =>
      obtain ⟨worker, shared, moved, spawned, hworker, hmove, rfl⟩ :=
        ExecutorState.worker_step hstep
      cases move with
      | nodeDone notSleepThread =>
          obtain ⟨tagged, inlineReady, closures, completed, hpc, hcompleted, -, rfl, rfl, rfl⟩ :=
            Worker.nodeDone_eq hmove
          have hload := total_eq_add workerLoad hworker
          have hown : workerLoad worker = (worker.inlineReady.getD []).length + 1 := by
            simp [workerLoad, hpc]
          have houtstanding := hcounted.outstanding
          have hbusy := hreported.busy (by omega)
          have hzero : completed = true ↔
              state.shared.numOutstandingOps + worker.made.length - 1 = 0 := by
            rw [hcompleted, ← List.length_eq_zero_iff]
            omega
          refine ⟨fun hmore report hreport => ?_, fun hnone => ?_⟩
          · obtain hold | hnew := List.mem_append.mp hreport
            · exact hbusy report hold
            · obtain rfl := List.mem_singleton.mp hnew
              exact Bool.eq_false_iff.mpr fun hat => hmore (hzero.mp hat)
          · obtain rfl := hzero.mpr hnone
            exact ⟨state.shared.nodeDones, tagged.node, rfl, hbusy⟩
      | _ => exact hreported.of_same (same_reports hmove (by simp))
  | decDeferred =>
      obtain ⟨shared, hdec, rfl⟩ := Option.map_eq_some_iff.mp hstep
      simp only [Shared.decDeferred, Option.ite_none_right_eq_some, Option.some.injEq] at hdec
      obtain ⟨-, rfl⟩ := hdec
      exact hreported.of_same ⟨rfl, rfl⟩
  | finishDeferred =>
      obtain ⟨shared, hfinish, rfl⟩ := Option.map_eq_some_iff.mp hstep
      simp only [Shared.finishDeferred, Option.ite_none_right_eq_some, Option.some.injEq] at hfinish
      obtain ⟨-, rfl⟩ := hfinish
      exact hreported.of_same ⟨rfl, rfl⟩

theorem reported_of_reaches {roots : List (TaggedNode ν)} {frames : γ} (hroots : roots ≠ [])
    {state : ExecutorState ν ω γ}
    (hreached : (runAsync items roots frames).Reaches Machine.Unguarded state) :
    Reported state.shared := by
  refine hreached.invariant (P := fun state => Reported state.shared) ?_
    fun _ _ _ hreached hreported _ htaken =>
      reported_step (counted_of_reaches hroots hreached) hreported htaken
  refine ⟨fun _ report hreport => ?_, fun hnone => ?_⟩
  · cases hreport
  · have hlength : roots.length ≠ 0 := by simpa using hroots
    exact absurd (Int.natCast_eq_zero.mp hnone) hlength

end Reports

/-! ## Progress -/

section Progress

variable {isExpensive kernelIsAsync : ν → Bool}
  {state after : ExecutorState ν (Entries α) (IterationState ν α)}

/-- A closure has left its loop with nothing in `inline_ready`. -/
def Emptied {ω : Type w} (worker : Worker ν ω) : Prop :=
  worker.pc = .scheduleFinish ∨ worker.pc = .finishing ∨ worker.pc = .ended →
    worker.inlineReady.getD [] = []

omit [DecidableEq ν] in
theorem emptied_move {ω : Type v} {γ : Type w} {items : Items ν ω γ} {shared after : Shared ν γ}
    {worker moved : Worker ν ω} {spawned : List (Worker ν ω)} {move : WorkerMove ω}
    (hempty : Emptied worker)
    (hmove : worker.move items shared move = some (after, moved, spawned)) :
    ∀ other ∈ moved :: spawned, Emptied other := by
  cases move with
  | nodeDone notSleepThread =>
      obtain ⟨tagged, inlineReady, closures, completed, hpc, -, -, rfl, rfl, rfl⟩ :=
        Worker.nodeDone_eq hmove
      simp [Emptied]
  | _ =>
      simp only [Worker.move, Worker.process, Worker.compute, Worker.propagate, Worker.dispatch,
        Worker.leave, Worker.scheduleFinish, Worker.finish, Worker.incDeferred] at hmove
      unfold Emptied at *
      grind [Worker.closure, Worker.callback]

/-- A closure with a node in hand can move without a failure. -/
theorem succeeding_move {worker : Worker ν (Entries α)} (hempty : Emptied worker)
    (hload : workerLoad worker ≠ 0) (shared : Shared ν (IterationState ν α)) :
    ∃ move, (∀ index, NodesSucceed state (.worker index move)) ∧ move ≠ .incDeferred ∧
      (worker.move (graphItems graph isExpensive kernelIsAsync) shared move).isSome = true := by
  cases hpc : worker.pc with
  | looping =>
      cases hinline : worker.inlineReady.getD [] with
      | nil =>
          refine absurd ?_ hload
          simp [workerLoad, hpc, hinline]
      | cons tagged inlineReady =>
          have hsome : worker.inlineReady = some (tagged :: inlineReady) := by
            cases hat : worker.inlineReady with
            | none => simp [hat] at hinline
            | some _ => simpa [hat] using hinline
          refine ⟨.process true, fun _ => rfl, by simp, ?_⟩
          simp only [Worker.move, Worker.process, hpc, hsome]
          split <;> [rfl; split <;> [rfl; split <;> rfl]]
  | computing tagged =>
      exact ⟨.compute (some fun _ => none), fun _ => rfl, by simp,
        by simp [Worker.move, Worker.compute, hpc]⟩
  | computed tagged outputs =>
      refine ⟨.propagate, fun _ => trivial, by simp, ?_⟩
      simp only [Worker.move, Worker.propagate, hpc]
      split <;> rfl
  | nodeDone tagged =>
      exact ⟨.nodeDone true, fun _ => trivial, by simp, by simp [Worker.move, Worker.nodeDone, hpc]⟩
  | dispatching closures =>
      refine ⟨.dispatch, fun _ => trivial, by simp, ?_⟩
      cases closures <;> simp [Worker.move, Worker.dispatch, hpc]
  | _ =>
      refine absurd ?_ hload
      have hnil := hempty (by simp [hpc])
      simp [workerLoad, hpc, hnil]

/-- The work a closure has left, counted in moves. A node that is to be dispatched
counts for the closure that is started with it. -/
def workLeft (worker : Worker ν (Entries α)) : ℕ :=
  16 * (worker.inlineReady.getD []).length +
    match worker.pc with
    | .looping => 3
    | .computing _ => 7
    | .computed .. => 6
    | .nodeDone _ => 5 + 20 * worker.made.length
    | .dispatching closures => 4 + 20 * closures.length
    | .scheduleFinish => 2
    | .finishing => 1
    | .ended => 0

variable (graph)

/-- The work a run has left: that of the closures, that of the nodes that are not yet
activated, and the deferred operations. -/
def runLeft (state : ExecutorState ν (Entries α) (IterationState ν α)) : ℕ :=
  total workLeft state.workers +
    20 * (graph.nodes.length -
      ((collect heldBy state.workers).length + state.shared.frames.propagated.length)) +
    2 * state.shared.numDeferredOps.toNat + state.shared.finishingDeferred

variable {graph}

omit [DecidableEq ν] in
/-- `NodeDone` takes nothing out of `inline_ready`. -/
theorem nodeDone_inlineReady {ω : Type v} {γ : Type w} {items : Items ν ω γ}
    {shared next : Shared ν γ} {worker moved : Worker ν ω} {spawned : List (Worker ν ω)}
    {notSleepThread : Bool}
    (hmove : worker.nodeDone items shared notSleepThread = some (next, moved, spawned)) :
    (worker.inlineReady.getD []).length ≤ (moved.inlineReady.getD []).length := by
  unfold Worker.nodeDone at hmove
  split at hmove
  next tagged hpc =>
      cases hmove
      cases worker.ok
      · exact le_rfl
      · exact (prefix_scheduleReady _ _).length_le
  · cases hmove

/-- A move uses up work; the nodes it makes ready are no longer among those that are not
yet activated. -/
theorem left_move {worker moved : Worker ν (Entries α)} {spawned : List (Worker ν (Entries α))}
    {next : Shared ν (IterationState ν α)} {move : WorkerMove (Entries α)} {index : ℕ}
    (hok : worker.ok = true) (hallowed : NodesSucceed state (.worker index move))
    (hother : move ≠ .incDeferred)
    (hmove : worker.move (graphItems graph isExpensive kernelIsAsync) state.shared move =
      some (next, moved, spawned)) :
    ∃ gained, workLeft moved + total workLeft spawned < workLeft worker + 20 * gained ∧
      (heldBy moved).length + (collect heldBy spawned).length + next.frames.propagated.length =
        (heldBy worker).length + state.shared.frames.propagated.length + gained ∧
      next.numDeferredOps = state.shared.numDeferredOps ∧
      next.finishingDeferred = state.shared.finishingDeferred := by
  cases move with
  | process prepared =>
      obtain rfl : prepared = true := hallowed
      simp only [Worker.move, Worker.process] at hmove
      split at hmove
      next tagged inlineReady hpc hinline =>
          simp only [Bool.true_eq_false, if_false] at hmove
          split at hmove <;> [skip; split at hmove] <;> cases hmove
          all_goals
            refine ⟨0, ?_, ?_, rfl, rfl⟩
            · simp [workLeft, Worker.callback, hpc, hinline]
              try omega
            · simp [heldBy, Worker.callback, hpc, hinline]
              try omega
      · cases hmove
  | compute outputs =>
      simp only [Worker.move, Worker.compute] at hmove
      split at hmove
      next tagged hpc =>
          cases hmove
          exact ⟨0, by simp [workLeft, hpc], by simp [heldBy, hpc], rfl, rfl⟩
      · cases hmove
  | propagate =>
      obtain ⟨tagged, outputs, frames, ready, hpc, hframes, rfl, rfl, rfl⟩ := propagate_eq hok hmove
      have hpropagated := @propagateOutputs_propagated ν α _ graph outputs
        (state.shared.frames.clearInputs tagged.node) tagged
      rw [hframes] at hpropagated
      have hlength : frames.propagated.length = state.shared.frames.propagated.length + 1 := by
        rw [show frames.propagated = _ from hpropagated, List.length_append, List.length_singleton]
        rfl
      refine ⟨ready.length, ?_, ?_, rfl, rfl⟩
      · simp [workLeft, Worker.made, hok, hpc]
        omega
      · simp [heldBy, Worker.made, hok, hpc]
        omega
  | nodeDone notSleepThread =>
      have hinline := nodeDone_inlineReady hmove
      obtain ⟨tagged, inlineReady, closures, completed, hpc, -, hplaced, rfl, rfl, rfl⟩ :=
        Worker.nodeDone_eq hmove
      have hlength := hplaced.length_eq
      simp only [List.length_append] at hinline hlength
      refine ⟨0, ?_, ?_, rfl, rfl⟩
      · simp [workLeft, hpc]
        omega
      · simp [heldBy, hpc]
        omega
  | dispatch =>
      simp only [Worker.move, Worker.dispatch] at hmove
      split at hmove
      next hpc =>
          cases hmove
          exact ⟨0, by simp [workLeft, hpc], by simp [heldBy, hpc], rfl, rfl⟩
      next tagged closures hpc =>
          cases hmove
          refine ⟨0, ?_, ?_, rfl, rfl⟩
          · simp [workLeft, Worker.closure, hpc]
            omega
          · simp [heldBy, Worker.closure, hpc]
            omega
      · cases hmove
  | leave =>
      simp only [Worker.move, Worker.leave] at hmove
      split at hmove
      next hpc hnil =>
          cases hmove
          refine ⟨0, ?_, ?_, rfl, rfl⟩ <;>
            cases worker.completed <;> simp [workLeft, heldBy, hpc]
      · cases hmove
  | scheduleFinish =>
      simp only [Worker.move, Worker.scheduleFinish] at hmove
      split at hmove
      next hpc =>
          split at hmove <;> cases hmove
          all_goals exact ⟨0, by simp [workLeft, hpc], by simp [heldBy, hpc], rfl, rfl⟩
      · cases hmove
  | finish =>
      simp only [Worker.move, Worker.finish] at hmove
      split at hmove
      next hpc =>
          cases hmove
          exact ⟨0, by simp [workLeft, hpc], by simp [heldBy, hpc], rfl, rfl⟩
      · cases hmove
  | incDeferred => exact absurd rfl hother

/-- The nodes in hand and those propagated are not more than the nodes. -/
theorem held_le (hinv : ProcessedOnce graph state) :
    (collect heldBy state.workers).length + state.shared.frames.propagated.length ≤
      graph.nodes.length := by
  have hsubset : (collect heldBy state.workers).map TaggedNode.node ++
      state.shared.frames.propagated ⊆ graph.nodes :=
    fun node hnode => ((hinv.once.mem node).mp hnode).1
  simpa using (List.subperm_of_subset hinv.once.nodup hsubset).length_le

/-- Every step but the deferring of an operation brings the run closer to its end. -/
theorem runLeft_decreases {label : ExecutorStep (Entries α)} (hinv : ProcessedOnce graph state)
    (hallowed : NodesSucceed state label) (hother : ∀ index, label ≠ .worker index .incDeferred)
    (hstep : state.step (graphItems graph isExpensive kernelIsAsync) label = some after) :
    runLeft graph after < runLeft graph state := by
  have hle := held_le (processedOnce_step hinv hallowed hstep)
  cases label with
  | worker index move =>
      obtain ⟨worker, shared, moved, spawned, hworker, hmove, rfl⟩ :=
        ExecutorState.worker_step hstep
      have hok := hinv.ok worker (List.mem_of_getElem? hworker)
      obtain ⟨gained, hless, hheld, hdeferred, hfinishing⟩ :=
        left_move hok hallowed (fun heq => hother index (by rw [heq])) hmove
      have hbefore := (collect_perm heldBy hworker).length_eq
      have hafter := (collect_move heldBy hworker moved spawned).length_eq
      simp only [List.length_append] at hbefore hafter
      simp only [runLeft, total_move _ hworker, total_eq_add workLeft hworker, hdeferred,
        hfinishing] at hle ⊢
      omega
  | decDeferred =>
      obtain ⟨shared, hdec, rfl⟩ := Option.map_eq_some_iff.mp hstep
      simp only [Shared.decDeferred, Option.ite_none_right_eq_some, Option.some.injEq] at hdec
      obtain ⟨hsome, rfl⟩ := hdec
      simp only [runLeft]
      split <;> omega
  | finishDeferred =>
      obtain ⟨shared, hfinish, rfl⟩ := Option.map_eq_some_iff.mp hstep
      simp only [Shared.finishDeferred, Option.ite_none_right_eq_some, Option.some.injEq] at hfinish
      obtain ⟨hsome, rfl⟩ := hfinish
      simp only [runLeft]
      omega

theorem emptied_of_reaches
    (hreached : (graphExecutor graph isExpensive kernelIsAsync).Reaches NodesSucceed state) :
    ∀ worker ∈ state.workers, Emptied worker := by
  refine hreached.invariant (P := fun state => ∀ worker ∈ state.workers, Emptied worker) ?_
    fun source label target _ hempty _ htaken => ?_
  · intro worker hworker
    simp only [graphExecutor, runAsync] at hworker
    split at hworker
    · cases hworker
    · obtain rfl := List.mem_singleton.mp hworker
      simp [Emptied, Worker.starter]
  · cases label with
    | worker index move =>
        obtain ⟨worker, shared, moved, spawned, hworker, hmove, rfl⟩ :=
          ExecutorState.worker_step htaken
        exact forall_move hempty (emptied_move (hempty worker (List.mem_of_getElem? hworker)) hmove)
    | decDeferred =>
        obtain ⟨shared, -, rfl⟩ := Option.map_eq_some_iff.mp htaken
        exact hempty
    | finishDeferred =>
        obtain ⟨shared, -, rfl⟩ := Option.map_eq_some_iff.mp htaken
        exact hempty

end Progress

/-! ## The whole run -/

section Runs

variable {isExpensive kernelIsAsync : ν → Bool}
  {state : ExecutorState ν (Entries α) (IterationState ν α)}

/-- A graph without nodes starts no closure. -/
theorem idle_of_no_nodes (hnodes : graph.nodes = [])
    (hreached : (graphExecutor graph isExpensive kernelIsAsync).Reaches NodesSucceed state) :
    state.workers = [] ∧ state.shared.numOutstandingOps = 0 := by
  refine hreached.invariant (P := fun state => state.workers = [] ∧
    state.shared.numOutstandingOps = 0) ?_ fun source label target _ hidle _ htaken => ?_
  · simp [graphExecutor, runAsync, Graph.rootNodes, hnodes]
  · cases label with
    | worker index move =>
        obtain ⟨worker, shared, moved, spawned, hworker, -, -⟩ := ExecutorState.worker_step htaken
        simp [hidle.1] at hworker
    | decDeferred =>
        obtain ⟨shared, hdec, rfl⟩ := Option.map_eq_some_iff.mp htaken
        simp only [Shared.decDeferred, Option.ite_none_right_eq_some, Option.some.injEq] at hdec
        obtain ⟨-, rfl⟩ := hdec
        exact hidle
    | finishDeferred =>
        obtain ⟨shared, hfinish, rfl⟩ := Option.map_eq_some_iff.mp htaken
        simp only [Shared.finishDeferred, Option.ite_none_right_eq_some, Option.some.injEq]
          at hfinish
        obtain ⟨-, rfl⟩ := hfinish
        exact hidle

theorem unguarded_of_nodesSucceed
    (hreached : (graphExecutor graph isExpensive kernelIsAsync).Reaches NodesSucceed state) :
    (graphExecutor graph isExpensive kernelIsAsync).Reaches Machine.Unguarded state :=
  hreached.mono fun _ _ _ => trivial

theorem roots_ne_nil (hnodes : graph.nodes ≠ []) :
    (graph.rootNodes.map fun node => (⟨node, false⟩ : TaggedNode ν)) ≠ [] := by
  simpa using rootNodes_ne_nil hnodes

/-- No operation is outstanding exactly when no closure has a node. -/
theorem outstanding_eq_zero_iff
    (hreached : (graphExecutor graph isExpensive kernelIsAsync).Reaches NodesSucceed state) :
    state.shared.numOutstandingOps = 0 ↔ NoOutstandingNodes state := by
  by_cases hnodes : graph.nodes = []
  · obtain ⟨hworkers, hzero⟩ := idle_of_no_nodes hnodes hreached
    simp [NoOutstandingNodes, hworkers, hzero]
  · have hcounted := counted_of_reaches (roots_ne_nil hnodes) (unguarded_of_nodesSucceed hreached)
    rw [hcounted.outstanding]
    refine ⟨fun hzero worker hmem => ?_, fun hnone => by simp [total_load_eq_zero hnone]⟩
    obtain ⟨index, hworker⟩ := List.getElem?_of_mem hmem
    have hload := total_eq_add workerLoad hworker
    omega

omit [DecidableEq ν] in
/-- A closure without nodes has none in hand, runs none and counts none. -/
theorem nothing_of_load_eq_zero {worker : Worker ν (Entries α)} (hload : workerLoad worker = 0) :
    heldBy worker = [] ∧ runningBy worker = [] ∧ leavingBy worker = [] := by
  obtain ⟨hinline, hpc⟩ := Nat.add_eq_zero_iff.mp hload
  have hnil := List.length_eq_zero_iff.mp hinline
  cases hat : worker.pc <;> simp [heldBy, runningBy, leavingBy, hat, hnil] <;> simp [hat] at hpc
  exact hpc

omit [DecidableEq ν] in
/-- The nodes that are under way are in hand. -/
theorem running_sublist (workers : List (Worker ν (Entries α))) :
    (collect runningBy workers).Sublist ((collect heldBy workers).map TaggedNode.node) := by
  induction workers with
  | nil => exact List.Sublist.refl _
  | cons worker workers ih =>
      have hworker : (runningBy worker).Sublist ((heldBy worker).map TaggedNode.node) := by
        cases hpc : worker.pc <;> simp [runningBy, heldBy, hpc]
      simpa [collect] using hworker.append ih

omit [DecidableEq ν] in
/-- A node that is processed was the first in `inline_ready`. -/
theorem process_takes {ω : Type v} {γ : Type w} {items : Items ν ω γ} {shared after : Shared ν γ}
    {worker moved : Worker ν ω} {spawned : List (Worker ν ω)} {prepared : Bool}
    (hmove : worker.process items shared prepared = some (after, moved, spawned)) :
    ∃ tagged inlineReady, worker.inlineReady = some (tagged :: inlineReady) ∧
      after.processed = shared.processed ++ [tagged] := by
  unfold Worker.process at hmove
  split at hmove
  next tagged inlineReady hpc hinline =>
      refine ⟨tagged, inlineReady, hinline, ?_⟩
      simp only at hmove
      split at hmove <;> [skip; split at hmove <;> [skip; split at hmove]] <;> cases hmove <;> rfl
  · cases hmove

/-- **Every node is processed exactly once.** In every run without failures no node is
processed twice, and none before its inputs arrived; at most the last `NodeDone` reports
completion, and it does when it takes the counter to zero. As long as operations are
outstanding a step without a failure is possible, and all steps but the deferring of
an operation bring the run closer to its end. When no operation is outstanding, every
node but the sink was processed and counted. -/
theorem nodes_processed_once
    (hreached : (graphExecutor graph isExpensive kernelIsAsync).Reaches NodesSucceed state) :
    (state.shared.processed.map TaggedNode.node).Nodup ∧
      (∀ index prepared after tagged, (graphExecutor graph isExpensive kernelIsAsync).step state
          (.worker index (.process prepared)) = some after →
        after.shared.processed = state.shared.processed ++ [tagged] →
        InputsArrived graph state.shared.frames.arrived tagged.node) ∧
      (graph.nodes ≠ [] → Reported state.shared) ∧
      (state.shared.numOutstandingOps ≠ 0 → ∃ label after, NodesSucceed state label ∧
        (∀ index, label ≠ .worker index .incDeferred) ∧
        (graphExecutor graph isExpensive kernelIsAsync).step state label = some after) ∧
      (∀ label after, NodesSucceed state label → (∀ index, label ≠ .worker index .incDeferred) →
        (graphExecutor graph isExpensive kernelIsAsync).step state label = some after →
        runLeft graph after < runLeft graph state) ∧
      (state.shared.numOutstandingOps = 0 →
        (∀ node ∈ graph.nodes, graph.kind node ≠ .sink →
          (state.shared.processed.map TaggedNode.node).count node = 1) ∧
        (state.shared.nodeDones.map Prod.fst).Perm
          (state.shared.processed.map TaggedNode.node)) := by
  have hinv := processedOnce_of_reaches hreached
  have hnodup : (state.shared.processed.map TaggedNode.node).Nodup := by
    refine hinv.processed.nodup_iff.mpr (hinv.once.nodup.sublist ?_)
    exact (running_sublist state.workers).append_right _
  refine ⟨hnodup, fun index prepared after tagged hstep hprocessed => ?_, fun hnodes => ?_,
    fun hsome => ?_, fun label after hallowed hother hstep => ?_, fun hzero => ?_⟩
  · obtain ⟨worker, shared, moved, spawned, hworker, hmove, rfl⟩ := ExecutorState.worker_step hstep
    obtain ⟨taken, inlineReady, hinline, htaken⟩ := process_takes hmove
    obtain rfl : taken = tagged := by simpa [htaken] using hprocessed
    have hheld : taken ∈ collect heldBy state.workers := by
      refine List.mem_flatMap.mpr ⟨worker, List.mem_of_getElem? hworker, ?_⟩
      simp [heldBy, hinline]
    obtain ⟨-, hsink, hready⟩ := (hinv.once.mem taken.node).mp
      (List.mem_append_left _ (List.mem_map_of_mem hheld))
    exact inputsArrived_of_isReady hinv.once.fits hsink hready
  · exact reported_of_reaches (roots_ne_nil hnodes) (unguarded_of_nodesSucceed hreached)
  · have hload : ∃ worker ∈ state.workers, workerLoad worker ≠ 0 := by
      by_contra hnone
      refine hsome ((outstanding_eq_zero_iff hreached).mpr fun worker hmem => ?_)
      by_contra hload
      exact hnone ⟨worker, hmem, hload⟩
    obtain ⟨worker, hmem, hload⟩ := hload
    obtain ⟨index, hworker⟩ := List.getElem?_of_mem hmem
    have hempty := emptied_of_reaches hreached worker hmem
    obtain ⟨move, hallowed, hother, hmove⟩ := @succeeding_move ν α _ graph isExpensive
      kernelIsAsync state worker hempty hload state.shared
    obtain ⟨moved, hmoved⟩ := Option.isSome_iff_exists.mp hmove
    refine ⟨.worker index move, ⟨moved.1, state.workers.set index moved.2.1 ++ moved.2.2⟩,
      hallowed index, ?_, ?_⟩
    · rintro _ ⟨⟩
      exact hother rfl
    · simp [graphExecutor, runAsync, ExecutorState.step, hworker, hmoved]
  · exact runLeft_decreases hinv hallowed hother hstep
  · have hnone := (outstanding_eq_zero_iff hreached).mp hzero
    have hnothing := fun worker hmem => nothing_of_load_eq_zero (hnone worker hmem)
    have hheld : collect heldBy state.workers = [] :=
      List.flatMap_eq_nil_iff.mpr fun worker hmem => (hnothing worker hmem).1
    have hrunning : collect runningBy state.workers = [] :=
      List.flatMap_eq_nil_iff.mpr fun worker hmem => (hnothing worker hmem).2.1
    have hleaving : collect leavingBy state.workers = [] :=
      List.flatMap_eq_nil_iff.mpr fun worker hmem => (hnothing worker hmem).2.2
    have hprocessed := hinv.processed
    have hdone := hinv.done
    have honce := hinv.once
    rw [hrunning, List.nil_append] at hprocessed
    rw [hleaving, List.nil_append] at hdone
    rw [hheld] at honce
    refine ⟨fun node hnode hkind => ?_, hdone.symm.trans hprocessed.symm⟩
    refine List.count_eq_one_of_mem hnodup (hprocessed.mem_iff.mpr ?_)
    exact propagated_of_none_held honce node hnode hkind

end Runs

/-! ## A run -/

/-- A switch, a node on each of its outputs, and a merge of both that also waits for
the switch. -/
def branches : Graph ℕ where
  nodes := [0, 1, 2, 3, 4]
  kind := fun node => [.switch, .ordinary, .ordinary, .merge, .sink].getD node .ordinary
  numInputs := fun node => [0, 1, 1, 2, 0].getD node 0
  edges := [⟨0, 1, some 0, 0⟩, ⟨0, 2, some 1, 0⟩, ⟨0, 3, none, 0⟩, ⟨1, 3, some 0, 0⟩,
    ⟨2, 3, some 0, 1⟩, ⟨3, 4, none, 0⟩]
  rank := id
  nodes_nodup := by decide
  src_mem := by decide
  dst_mem := by decide
  acyclic := by decide
  slots := by decide
  merge_inputs := by decide
  sink_src := by decide

/-- The second output of the switch is dead; the merge is taken up before the dead
branch is. -/
theorem branches_processed_once :
    ∃ state : ExecutorState ℕ (Entries Unit) (IterationState ℕ Unit),
      state.shared.processed.map TaggedNode.node = [0, 1, 3, 2] ∧
        (state.shared.nodeDones.map Prod.fst).Perm
          (state.shared.processed.map TaggedNode.node) := by
  have hrun : ∃ state : ExecutorState ℕ (Entries Unit) (IterationState ℕ Unit),
      (graphExecutor branches (fun _ => false) (fun _ => false)).Reaches NodesSucceed state ∧
        decide (state.shared.numOutstandingOps = 0 ∧
          state.shared.processed.map TaggedNode.node = [0, 1, 3, 2]) = true := by
    refine Machine.exists_reaches
      [.worker 0 .dispatch, .worker 0 .dispatch, .worker 0 .leave, .worker 1 (.process true),
        .worker 1 (.compute (some fun slot => if slot = 0 then some () else none)),
        .worker 1 .propagate, .worker 1 (.nodeDone false), .worker 1 .dispatch,
        .worker 2 (.process true), .worker 2 (.compute (some fun _ => some ())),
        .worker 2 .propagate, .worker 2 (.nodeDone true), .worker 2 .dispatch,
        .worker 2 (.process true), .worker 1 .dispatch, .worker 3 (.process true),
        .worker 2 (.compute (some fun _ => some ())), .worker 2 .propagate,
        .worker 2 (.nodeDone true), .worker 3 .propagate, .worker 3 (.nodeDone true)]
      ?_ ?_ <;> decide +kernel
  obtain ⟨state, hreached, hended⟩ := hrun
  obtain ⟨hzero, hprocessed⟩ := of_decide_eq_true hended
  exact ⟨state, hprocessed, ((nodes_processed_once hreached).2.2.2.2.2 hzero).2⟩

end ContainerScheduler.Analysis
