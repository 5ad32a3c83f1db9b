/-
# The counters of a graph and its readiness

At any moment every edge has arrived or is still to arrive. The counter of an
ordinary node is the number of edges to it that are still to arrive; the counter of
a merge is twice the number of such control edges, and one more until a live input
has arrived. So a node is put on the ready list by exactly the edge with which it
becomes ready, and each propagation adds to the ready nodes those it put there.
-/

import ContainerScheduler.Executor.Graph
import Mathlib.Data.List.Count

namespace ContainerScheduler.Analysis

open Executor

universe u v

variable {ν : Type u} {α : Type v} [DecidableEq ν] (graph : Graph ν)

/-! ## Edges that arrived and edges that are left -/

/-- The edges to a node that are left, of all kinds. -/
def leftTo (node : ν) (left : List (Edge ν)) : ℕ := left.countP fun edge => edge.dst = node

def leftControl (node : ν) (left : List (Edge ν)) : ℕ :=
  left.countP fun edge => edge.dst = node ∧ edge.isControl

def leftData (node : ν) (left : List (Edge ν)) : ℕ :=
  left.countP fun edge => edge.dst = node ∧ edge.isControl = false

/-- The data edges to a node that arrived, dead or with a value. -/
def arrivedData (node : ν) (dead : Bool) (arrived : List (Edge ν × Bool)) : ℕ :=
  arrived.countP fun arrival =>
    arrival.1.dst = node ∧ arrival.1.isControl = false ∧ arrival.2 = dead

section Counting

variable (node : ν) (edge : Edge ν) (left : List (Edge ν)) (arrived : List (Edge ν × Bool))

theorem leftTo_cons : leftTo node (edge :: left) =
    leftTo node left + if edge.dst = node then 1 else 0 := by
  simp [leftTo, List.countP_cons]

theorem leftControl_cons : leftControl node (edge :: left) =
    leftControl node left + if edge.dst = node ∧ edge.isControl then 1 else 0 := by
  simp [leftControl, List.countP_cons]

theorem leftData_cons : leftData node (edge :: left) =
    leftData node left + if edge.dst = node ∧ edge.isControl = false then 1 else 0 := by
  simp [leftData, List.countP_cons]

theorem arrivedData_concat (dead arrives : Bool) :
    arrivedData node dead (arrived ++ [(edge, arrives)]) = arrivedData node dead arrived +
      if edge.dst = node ∧ edge.isControl = false ∧ arrives = dead then 1 else 0 := by
  simp [arrivedData, List.countP_cons]

theorem arrivedData_add : arrivedData node false arrived + arrivedData node true arrived =
    (arrived.map Prod.fst).countP fun edge => edge.dst = node ∧ edge.isControl = false := by
  induction arrived with
  | nil => rfl
  | cons arrival arrived ih =>
      obtain ⟨edge, dead⟩ := arrival
      simp only [arrivedData] at ih ⊢
      rw [List.map_cons, List.countP_cons, List.countP_cons, List.countP_cons, ← ih]
      by_cases hdst : edge.dst = node
      · cases edge.isControl <;> cases dead <;> simp [hdst] <;> omega
      · simp [hdst]

end Counting

/-- A node is ready: nothing is left to arrive, or, for a merge, no control input
is left and a live input arrived or no data input is left. -/
def IsReady (arrived : List (Edge ν × Bool)) (left : List (Edge ν)) (node : ν) : Prop :=
  match graph.kind node with
  | .merge =>
      leftControl node left = 0 ∧ (0 < arrivedData node false arrived ∨ leftData node left = 0)
  | _ => leftTo node left = 0

/-- The edges whose target is not a sink. -/
def activatingEdges : List (Edge ν) :=
  graph.edges.filter fun edge => graph.kind edge.dst ≠ .sink

/-- The counters are what the arrivals make of them. -/
structure Fits (iteration : IterationState ν α) (left : List (Edge ν)) : Prop where
  edges : (iteration.arrived.map Prod.fst ++ left).Perm (activatingEdges graph)
  pending : ∀ node, graph.kind node ≠ .merge → graph.kind node ≠ .sink →
    (iteration.counts node).pending = leftTo node left
  merge : ∀ node, graph.kind node = .merge → (iteration.counts node).pending =
    2 * leftControl node left + if arrivedData node false iteration.arrived = 0 then 1 else 0
  dead : ∀ node, graph.kind node = .merge → (iteration.counts node).pending ≠ 0 →
    (iteration.counts node).deadCount = arrivedData node true iteration.arrived

variable {graph}

/-- The data edges of a node that arrived and those that are left are its inputs. -/
theorem Fits.numInputs {iteration : IterationState ν α} {left : List (Edge ν)}
    (hfits : Fits graph iteration left) {node : ν} (hmem : node ∈ graph.nodes)
    (hsink : graph.kind node ≠ .sink) :
    arrivedData node false iteration.arrived + arrivedData node true iteration.arrived +
      leftData node left = graph.numInputs node := by
  have hslots := (graph.slots node hmem).length_eq
  rw [List.length_map, List.length_range, ← List.countP_eq_length_filter] at hslots
  have hperm := hfits.edges.countP_eq fun edge => edge.dst = node ∧ edge.isControl = false
  rw [List.countP_append, ← arrivedData_add, activatingEdges, List.countP_filter] at hperm
  rw [leftData, hperm, ← hslots]
  refine List.countP_congr fun edge _ => ?_
  simp only [Bool.and_eq_true, decide_eq_true_eq]
  constructor
  · exact And.left
  · rintro ⟨rfl, hdata⟩
    exact ⟨⟨rfl, hdata⟩, by simpa using hsink⟩

/-! ## One edge -/

section Arrive

variable (kind : NodeKind) (numInputs : ℕ) (counts : Counts) (isControl isDead hasValue : Bool)

/-- An edge to an ordinary node takes one off its counter. -/
theorem arrive_ordinary (hkind : kind ≠ .merge) :
    arrive kind numInputs counts isControl isDead hasValue =
      let counted := counts.adjustForActivation (isDead || (!isControl && !hasValue))
      ⟨counted, decide (0 < counted.deadCount), decide (counted.pending = 0), !isControl⟩ := by
  cases kind with
  | merge => exact absurd rfl hkind
  | _ => rfl

theorem adjustForActivation_pending (incrementDead : Bool) :
    (counts.adjustForActivation incrementDead).pending = counts.pending - 1 := by
  cases incrementDead
  · rfl
  · simp only [Counts.adjustForActivation, Counts.incrementDeadCount, if_true]
    split <;> rfl

theorem markLive_pending : counts.markLive.pending = counts.pending / 2 * 2 := by
  by_cases hready : counts.pending = 0 <;> simp [Counts.markLive, Counts.NotReady, hready]

theorem markLive_deadCount : counts.markLive.deadCount = counts.deadCount := by
  unfold Counts.markLive
  split <;> rfl

theorem incrementDeadCount_pending : counts.incrementDeadCount.pending = counts.pending := by
  unfold Counts.incrementDeadCount
  split <;> rfl

end Arrive

/-! ## One edge -/

section Edge

variable {iteration : IterationState ν α} {edge : Edge ν} {left : List (Edge ν)} {isDead : Bool}
  {outputs : Entries α}

/-- What an edge makes of its target in an iteration. -/
def arrivalOf (graph : Graph ν) (iteration : IterationState ν α) (edge : Edge ν) (isDead : Bool)
    (outputs : Entries α) : Arrival :=
  arrive (graph.kind edge.dst) (graph.numInputs edge.dst) (iteration.counts edge.dst)
    edge.isControl isDead (edge.carried outputs).isSome

/-- An edge arrives, and with it, its target becomes ready. -/
def BecomesReady (graph : Graph ν) (arrived : List (Edge ν × Bool)) (edge : Edge ν)
    (left : List (Edge ν)) (dead : Bool) : Prop :=
  ¬ IsReady graph arrived (edge :: left) edge.dst ∧
    IsReady graph (arrived ++ [(edge, dead)]) left edge.dst

/-- The counters of a merge after an edge to it, whether the edge makes it ready, and
whether it is dead then. -/
structure MergeCounted (graph : Graph ν) (arrived : List (Edge ν × Bool)) (edge : Edge ν)
    (left : List (Edge ν)) (arrival : Arrival) (arrivesDead : Bool) : Prop where
  pending : arrival.counts.pending = 2 * leftControl edge.dst left +
    if arrivedData edge.dst false (arrived ++ [(edge, arrivesDead)]) = 0 then 1 else 0
  deadCount : arrival.counts.pending ≠ 0 →
    arrival.counts.deadCount = arrivedData edge.dst true (arrived ++ [(edge, arrivesDead)])
  ready : arrival.ready = true ↔ BecomesReady graph arrived edge left arrivesDead
  dead : arrival.ready = true → (arrival.dead = true ↔
    arrivedData edge.dst false (arrived ++ [(edge, arrivesDead)]) = 0)

theorem isReady_merge {arrived : List (Edge ν × Bool)} {node : ν}
    (hkind : graph.kind node = .merge) :
    IsReady graph arrived left node ↔ leftControl node left = 0 ∧
      (0 < arrivedData node false arrived ∨ leftData node left = 0) := by
  simp only [IsReady, hkind]

theorem isReady_ordinary {arrived : List (Edge ν × Bool)} {node : ν}
    (hkind : graph.kind node ≠ .merge) :
    IsReady graph arrived left node ↔ leftTo node left = 0 := by
  unfold IsReady
  split
  next hmerge => exact absurd hmerge hkind
  · rfl

section

variable (hfits : Fits graph iteration (edge :: left)) (hkind : graph.kind edge.dst = .merge)

include hfits hkind

/-- A control edge to a merge. -/
theorem merge_control (hmem : edge.dst ∈ graph.nodes) (hcontrol : edge.isControl = true) :
    MergeCounted graph iteration.arrived edge left (arrivalOf graph iteration edge isDead outputs)
      (edge.arrivesDead isDead outputs) := by
  have hinputs := hfits.numInputs hmem (by simp [hkind])
  have hpending := hfits.merge edge.dst hkind
  have hdead := hfits.dead edge.dst hkind
  simp only [leftControl_cons, leftData_cons, hcontrol, and_true, if_true, Bool.true_eq_false,
    and_false, if_false, add_zero] at hinputs hpending
  have hsome : (iteration.counts edge.dst).pending ≠ 0 := by omega
  have hdead := hdead hsome
  refine ⟨?_, ?_, ?_, ?_⟩ <;>
    simp only [arrivalOf, arrive, hkind, hcontrol, if_true, Counts.decrementPending, BecomesReady,
      isReady_merge hkind, arrivedData_concat, leftControl_cons, leftData_cons, Bool.true_eq_false,
      and_false, and_true, false_and, if_false, decide_eq_true_eq, add_zero, hdead]
  · omega
  · exact fun _ => trivial
  · split at hpending <;> omega
  · split at hpending <;> omega

/-- A data edge with a value to a merge: the first one clears the lowest bit. -/
theorem merge_live (hdata : edge.isControl = false)
    (hvalue : (edge.carried outputs).isNone = false) :
    MergeCounted graph iteration.arrived edge left (arrivalOf graph iteration edge isDead outputs)
      (edge.arrivesDead isDead outputs) := by
  have hpending := hfits.merge edge.dst hkind
  have hdead := hfits.dead edge.dst hkind
  have hsome : (edge.carried outputs).isSome = true := by
    rw [← Option.not_isNone, hvalue]
    rfl
  simp only [leftControl_cons, hdata, and_false, if_false, add_zero, Bool.false_eq_true] at hpending
  refine ⟨?_, ?_, ?_, ?_⟩ <;>
    simp only [arrivalOf, arrive, hkind, hdata, hsome, Edge.arrivesDead, hvalue, if_true, if_false,
      Bool.false_eq_true, markLive_pending, markLive_deadCount, BecomesReady, isReady_merge hkind,
      arrivedData_concat, leftControl_cons, leftData_cons, and_false, and_self, decide_eq_true_eq,
      add_zero]
  · split at hpending <;> split <;> omega
  · intro hnotReady
    refine hdead ?_
    omega
  · split at hpending <;> omega
  · simp

/-- A data edge without a value to a merge: the last one makes it ready and dead. -/
theorem merge_dead (hmem : edge.dst ∈ graph.nodes) (hdata : edge.isControl = false)
    (hvalue : (edge.carried outputs).isNone = true) :
    MergeCounted graph iteration.arrived edge left (arrivalOf graph iteration edge isDead outputs)
      (edge.arrivesDead isDead outputs) := by
  have hinputs := hfits.numInputs hmem (by simp [hkind])
  have hpending := hfits.merge edge.dst hkind
  have hdead := hfits.dead edge.dst hkind
  have hsome : (edge.carried outputs).isSome = false := by
    rw [← Option.not_isNone, hvalue]
    rfl
  have hcounted : (iteration.counts edge.dst).pending ≠ 0 →
      (iteration.counts edge.dst).incrementDeadCount.deadCount =
        arrivedData edge.dst true iteration.arrived + 1 := by
    intro hnotReady
    have hcounts : (iteration.counts edge.dst).NotReady := hnotReady
    rw [← hdead hnotReady, Counts.incrementDeadCount, if_pos hcounts]
  simp only [leftControl_cons, leftData_cons, hdata, and_false, and_true, if_true, if_false,
    add_zero, Bool.false_eq_true] at hpending hinputs
  refine ⟨?_, ?_, ?_, ?_⟩ <;>
    simp only [arrivalOf, arrive, hkind, hdata, hsome, Edge.arrivesDead, hvalue, if_true, if_false,
      Bool.false_eq_true, incrementDeadCount_pending, BecomesReady, isReady_merge hkind,
      arrivedData_concat, leftControl_cons, leftData_cons, and_false, and_self, Bool.true_eq_false,
      decide_eq_true_eq, add_zero]
  · exact hpending
  · exact hcounted
  · split at hpending <;> grind
  · split at hpending <;> grind

/-- Any edge to a merge. -/
theorem merge_counted (hmem : edge.dst ∈ graph.nodes) :
    MergeCounted graph iteration.arrived edge left (arrivalOf graph iteration edge isDead outputs)
      (edge.arrivesDead isDead outputs) := by
  cases hcontrol : edge.isControl
  · cases hvalue : (edge.carried outputs).isNone
    · exact merge_live hfits hkind hcontrol hvalue
    · exact merge_dead hfits hkind hmem hcontrol hvalue
  · exact merge_control hfits hkind hmem hcontrol

end

theorem arrivalOf_ready (hfits : Fits graph iteration (edge :: left))
    (hmem : edge.dst ∈ graph.nodes) (hsink : graph.kind edge.dst ≠ .sink) :
    (arrivalOf graph iteration edge isDead outputs).ready = true ↔
      BecomesReady graph iteration.arrived edge left (edge.arrivesDead isDead outputs) := by
  by_cases hkind : graph.kind edge.dst = .merge
  · exact (merge_counted hfits hkind hmem).ready
  · have hpending := hfits.pending edge.dst hkind hsink
    rw [leftTo_cons, if_pos rfl] at hpending
    simp only [arrivalOf, arrive_ordinary _ _ _ _ _ _ hkind, adjustForActivation_pending,
      BecomesReady, isReady_ordinary hkind, leftTo_cons, if_true, decide_eq_true_eq]
    omega

/-- An edge that arrives leaves other nodes as ready as they were. -/
theorem isReady_of_ne {arrived : List (Edge ν × Bool)} {node : ν} {dead : Bool}
    (hne : edge.dst ≠ node) : IsReady graph (arrived ++ [(edge, dead)]) left node ↔
      IsReady graph arrived (edge :: left) node := by
  unfold IsReady
  split <;>
    simp only [leftControl_cons, leftData_cons, leftTo_cons, arrivedData_concat, hne, false_and,
      if_false, add_zero]

/-- A ready node stays ready. -/
theorem IsReady.arrive {arrived : List (Edge ν × Bool)} {node : ν} (dead : Bool)
    (hready : IsReady graph arrived (edge :: left) node) :
    IsReady graph (arrived ++ [(edge, dead)]) left node := by
  by_cases hkind : graph.kind node = .merge
  · rw [isReady_merge hkind] at hready ⊢
    simp only [leftControl_cons, leftData_cons, arrivedData_concat] at hready ⊢
    omega
  · rw [isReady_ordinary hkind] at hready ⊢
    rw [leftTo_cons] at hready
    omega

/-! ## One round of `ActivateNodes` -/

variable (graph iteration edge isDead outputs)

/-- A round on a sink does nothing. -/
theorem activateEdge_sink (ready : List (TaggedNode ν)) (hsink : graph.kind edge.dst = .sink) :
    activateEdge graph isDead outputs (iteration, ready) edge = (iteration, ready) := by
  simp only [activateEdge, hsink, if_true]

/-- The tag of a node that an edge makes ready. -/
def madeBy : List (TaggedNode ν) :=
  let arrival := arrivalOf graph iteration edge isDead outputs
  if arrival.ready then
    [⟨edge.dst, graph.kind edge.dst ≠ .controlTrigger && arrival.dead⟩]
  else []

/-- A round on another node writes the counters of the node, maybe one of its inputs,
and the ready list. -/
theorem activateEdge_eq (ready : List (TaggedNode ν)) (hsink : graph.kind edge.dst ≠ .sink) :
    let arrival := arrivalOf graph iteration edge isDead outputs
    activateEdge graph isDead outputs (iteration, ready) edge =
      ({ iteration with
          counts := Function.update iteration.counts edge.dst arrival.counts
          inputTensors := if arrival.needInput then
              Function.update iteration.inputTensors edge.dst
                (Function.update (iteration.inputTensors edge.dst) edge.inputSlot
                  (edge.carried outputs))
            else iteration.inputTensors
          outstandingOps := iteration.outstandingOps +
            (madeBy graph iteration edge isDead outputs).length
          arrived := iteration.arrived ++ [(edge, edge.arrivesDead isDead outputs)] },
        ready ++ madeBy graph iteration edge isDead outputs) := by
  simp only [activateEdge, hsink, if_false, madeBy, arrivalOf]
  split <;> split <;>
    simp_all [IterationState.setCounts, IterationState.setInput]

variable {graph iteration edge isDead outputs}

/-- A round keeps the counters. -/
theorem Fits.activateEdge (hfits : Fits graph iteration (edge :: left))
    (hmem : edge.dst ∈ graph.nodes) (hsink : graph.kind edge.dst ≠ .sink)
    (ready : List (TaggedNode ν)) :
    Fits graph (activateEdge graph isDead outputs (iteration, ready) edge).1 left := by
  rw [activateEdge_eq graph iteration edge isDead outputs ready hsink]
  refine ⟨?_, ?_, ?_, ?_⟩
  · simpa using hfits.edges
  · intro node hkind hnode
    by_cases hdst : edge.dst = node
    · subst hdst
      have hpending := hfits.pending edge.dst hkind hsink
      rw [leftTo_cons, if_pos rfl] at hpending
      simp only [Function.update_self, arrivalOf, arrive_ordinary _ _ _ _ _ _ hkind,
        adjustForActivation_pending]
      omega
    · simpa [Function.update_of_ne (Ne.symm hdst), leftTo_cons, hdst] using
        hfits.pending node hkind hnode
  · intro node hkind
    by_cases hdst : edge.dst = node
    · subst hdst
      simpa using (merge_counted hfits hkind hmem).pending
    · simpa [Function.update_of_ne (Ne.symm hdst), leftControl_cons, arrivedData_concat, hdst] using
        hfits.merge node hkind
  · intro node hkind hnotReady
    by_cases hdst : edge.dst = node
    · subst hdst
      simp only [Function.update_self] at hnotReady ⊢
      exact (merge_counted hfits hkind hmem).deadCount hnotReady
    · simp only [Function.update_of_ne (Ne.symm hdst)] at hnotReady ⊢
      simpa [arrivedData_concat, hdst] using hfits.dead node hkind hnotReady

/-- The nodes of the tags a round makes. -/
theorem mem_madeBy (hfits : Fits graph iteration (edge :: left))
    (hmem : edge.dst ∈ graph.nodes) (hsink : graph.kind edge.dst ≠ .sink) (node : ν) :
    node ∈ (madeBy graph iteration edge isDead outputs).map TaggedNode.node ↔
      IsReady graph (iteration.arrived ++ [(edge, edge.arrivesDead isDead outputs)]) left node ∧
        ¬ IsReady graph iteration.arrived (edge :: left) node := by
  have hready := @arrivalOf_ready ν α _ graph iteration edge left isDead outputs hfits hmem hsink
  by_cases hdst : edge.dst = node
  · subst hdst
    rw [and_comm, ← BecomesReady, ← hready, madeBy]
    split <;> simp_all
  · rw [isReady_of_ne hdst, and_not_self_iff, madeBy]
    split
    · simpa using fun hnode => hdst hnode.symm
    · simp

end Edge

/-! ## The whole loop -/

section Loop

variable (isDead : Bool) (outputs : Entries α)

/-- What the rounds of a loop keep, when one round keeps it: the edges that are not to
sinks arrive one after the other. -/
theorem activate_induction {P : IterationState ν α × List (TaggedNode ν) → List (Edge ν) → Prop}
    {Q : Edge ν → Prop}
    (hround : ∀ iteration ready edge left, Q edge → graph.kind edge.dst ≠ .sink →
      P (iteration, ready) (edge :: left) →
      P (activateEdge graph isDead outputs (iteration, ready) edge) left)
    (out : List (Edge ν)) (hout : ∀ edge ∈ out, Q edge) (left : List (Edge ν)) :
    ∀ activated, P activated (out.filter (fun edge => graph.kind edge.dst ≠ .sink) ++ left) →
      P (out.foldl (activateEdge graph isDead outputs) activated) left := by
  induction out with
  | nil => exact fun activated hactivated => by simpa using hactivated
  | cons edge out ih =>
      have hedge := hout edge List.mem_cons_self
      have hrest := ih fun other hother => hout other (List.mem_cons_of_mem _ hother)
      rintro ⟨iteration, ready⟩ hactivated
      rw [List.foldl_cons]
      refine hrest _ ?_
      by_cases hsink : graph.kind edge.dst = .sink
      · rw [activateEdge_sink graph iteration edge isDead outputs ready hsink]
        simpa [hsink] using hactivated
      · refine hround iteration ready edge _ hedge hsink ?_
        simpa [hsink] using hactivated

variable (graph)

/-- An iteration after some edges arrived, and the nodes they made ready: those that
were not ready before. -/
structure Activates (before : IterationState ν α) (leftBefore : List (Edge ν))
    (activated : IterationState ν α × List (TaggedNode ν)) (left : List (Edge ν)) : Prop where
  fits : Fits graph activated.1 left
  nodup : (activated.2.map TaggedNode.node).Nodup
  mem : ∀ node, node ∈ activated.2.map TaggedNode.node ↔
    IsReady graph activated.1.arrived left node ∧ ¬ IsReady graph before.arrived leftBefore node
  stays : ∀ node, IsReady graph before.arrived leftBefore node →
    IsReady graph activated.1.arrived left node
  outstandingOps : activated.1.outstandingOps = before.outstandingOps + activated.2.length
  deleted : activated.1.deleted = before.deleted

variable {graph isDead outputs}

theorem Fits.activates {iteration : IterationState ν α} {left : List (Edge ν)}
    (hfits : Fits graph iteration left) : Activates graph iteration left (iteration, []) left where
  fits := hfits
  nodup := List.nodup_nil
  mem := fun node => by simp
  stays := fun _ => id
  outstandingOps := by simp
  deleted := rfl

theorem Activates.round {before iteration : IterationState ν α} {leftBefore left : List (Edge ν)}
    {ready : List (TaggedNode ν)} {edge : Edge ν} (hmem : edge.dst ∈ graph.nodes)
    (hsink : graph.kind edge.dst ≠ .sink)
    (hactivates : Activates graph before leftBefore (iteration, ready) (edge :: left)) :
    Activates graph before leftBefore
      (activateEdge graph isDead outputs (iteration, ready) edge) left := by
  have hmade := @mem_madeBy ν α _ graph iteration edge left isDead outputs hactivates.fits hmem
    hsink
  have hfits := @Fits.activateEdge ν α _ graph iteration edge left isDead outputs hactivates.fits
    hmem hsink ready
  have hstays : ∀ node, IsReady graph iteration.arrived (edge :: left) node →
      IsReady graph (iteration.arrived ++ [(edge, edge.arrivesDead isDead outputs)]) left node :=
    fun node => IsReady.arrive _
  have honce : ((madeBy graph iteration edge isDead outputs).map TaggedNode.node).Nodup := by
    rw [madeBy]
    split <;> simp
  rw [activateEdge_eq graph iteration edge isDead outputs ready hsink] at hfits ⊢
  refine ⟨hfits, ?_, ?_, ?_, ?_, hactivates.deleted⟩
  · rw [List.map_append, List.nodup_append]
    refine ⟨hactivates.nodup, honce, ?_⟩
    -- what a round makes was not ready, what was made before is
    rintro node hready _ hnew rfl
    exact ((hmade node).mp hnew).2 ((hactivates.mem node).mp hready).1
  · intro node
    rw [List.map_append, List.mem_append, hactivates.mem node, hmade node]
    constructor
    · rintro (⟨hready, hnot⟩ | ⟨hready, hnot⟩)
      · exact ⟨hstays node hready, hnot⟩
      · exact ⟨hready, fun hbefore => hnot (hactivates.stays node hbefore)⟩
    · rintro ⟨hready, hnot⟩
      by_cases hold : IsReady graph iteration.arrived (edge :: left) node
      · exact .inl ⟨hold, hnot⟩
      · exact .inr ⟨hready, hold⟩
  · exact fun node hready => hstays node (hactivates.stays node hready)
  · have hops : iteration.outstandingOps = before.outstandingOps + ready.length :=
      hactivates.outstandingOps
    simp [hops, add_assoc]

/-- `ActivateNodes` puts the nodes that become ready on the ready list, each once. -/
theorem activateNodes_activates {iteration : IterationState ν α} {node : ν}
    {left : List (Edge ν)} (hfits : Fits graph iteration
      ((graph.outEdges node).filter (fun edge => graph.kind edge.dst ≠ .sink) ++ left)) :
    Activates graph iteration
      ((graph.outEdges node).filter (fun edge => graph.kind edge.dst ≠ .sink) ++ left)
      (activateNodes graph node isDead outputs iteration) left := by
  refine activate_induction isDead outputs (P := Activates graph iteration _)
    (fun _ _ _ _ hmem hsink => Activates.round hmem hsink) _ ?_ left _ hfits.activates
  exact fun edge hedge => graph.dst_mem edge (List.mem_of_mem_filter hedge)

theorem activateNodes_propagated (iteration : IterationState ν α) (node : ν) :
    (activateNodes graph node isDead outputs iteration).1.propagated = iteration.propagated := by
  unfold activateNodes
  generalize [] = ready
  induction graph.outEdges node generalizing iteration ready with
  | nil => rfl
  | cons edge out ih =>
      rw [List.foldl_cons, ih]
      by_cases hsink : graph.kind edge.dst = .sink
      · rw [activateEdge_sink graph iteration edge isDead outputs ready hsink]
      · rw [activateEdge_eq graph iteration edge isDead outputs ready hsink]

/-- A node that is propagated is put on the list of these. -/
theorem propagateOutputs_propagated (iteration : IterationState ν α) (tagged : TaggedNode ν) :
    (propagateOutputs graph tagged outputs iteration).1.propagated =
      iteration.propagated ++ [tagged.node] := by
  rw [propagateOutputs, activateNodes_propagated]

end Loop

/-! ## The edges of the nodes that were propagated -/

section Remaining

variable (graph)

/-- The edges that are left when some nodes were propagated. -/
def remaining (propagated : List ν) : List (Edge ν) :=
  (activatingEdges graph).filter fun edge => edge.src ∉ propagated

variable {graph}

theorem isReady_perm {arrived : List (Edge ν × Bool)} {left left' : List (Edge ν)}
    (hleft : left.Perm left') (node : ν) :
    IsReady graph arrived left node ↔ IsReady graph arrived left' node := by
  unfold IsReady leftControl leftData leftTo
  split <;> simp only [hleft.countP_eq]

theorem Fits.perm {iteration : IterationState ν α} {left left' : List (Edge ν)}
    (hfits : Fits graph iteration left) (hleft : left.Perm left') :
    Fits graph iteration left' where
  edges := (List.Perm.append_left _ hleft.symm).trans hfits.edges
  pending := fun node hkind hsink => by
    rw [hfits.pending node hkind hsink, leftTo, leftTo, hleft.countP_eq]
  merge := fun node hkind => by
    rw [hfits.merge node hkind, leftControl, leftControl, hleft.countP_eq]
  dead := hfits.dead

/-- To propagate one more node takes its edges away. -/
theorem remaining_concat {propagated : List ν} {node : ν} (hnode : node ∉ propagated) :
    (remaining graph propagated).Perm
      ((graph.outEdges node).filter (fun edge => graph.kind edge.dst ≠ .sink) ++
        remaining graph (propagated ++ [node])) := by
  have hsplit := List.filter_append_perm (fun edge => edge.src = node) (remaining graph propagated)
  refine hsplit.symm.trans (List.Perm.of_eq ?_)
  congr 1
  · simp only [remaining, activatingEdges, Graph.outEdges, List.filter_filter]
    refine List.filter_congr fun edge _ => ?_
    by_cases hsrc : edge.src = node
    · simp [hsrc, hnode]
    · simp [hsrc]
  · simp only [remaining, List.filter_filter]
    refine List.filter_congr fun edge _ => ?_
    simp [and_comm]

/-- Before anything ran, all edges are left. -/
theorem fits_initialIteration :
    Fits graph (initialIteration graph : IterationState ν α) (remaining graph []) where
  edges := by simp [initialIteration, remaining]
  pending := fun node hkind hsink => by
    have hcounts : (getMaxPendingCounts graph node).pending = (graph.inEdges node).length := by
      unfold getMaxPendingCounts
      split
      next hmerge => exact absurd hmerge hkind
      · rfl
    rw [initialIteration, hcounts, leftTo, remaining, activatingEdges, Graph.inEdges,
      List.countP_filter, List.countP_filter, ← List.countP_eq_length_filter]
    refine List.countP_congr fun edge _ => ?_
    by_cases hdst : edge.dst = node
    · simp [hdst, hsink]
    · simp [hdst]
  merge := fun node hkind => by
    simp only [initialIteration, getMaxPendingCounts, hkind]
    have hcontrol : leftControl node (remaining graph []) =
        (graph.inEdges node).countP Edge.isControl := by
      rw [leftControl, remaining, activatingEdges, Graph.inEdges, List.countP_filter,
        List.countP_filter, List.countP_filter]
      refine List.countP_congr fun edge _ => ?_
      by_cases hdst : edge.dst = node
      · simp [hdst, hkind]
      · simp [hdst]
    simp [hcontrol, arrivedData, add_comm]
  dead := fun node hkind _ => by
    simp [initialIteration, getMaxPendingCounts, hkind, arrivedData]

end Remaining

end ContainerScheduler.Analysis
