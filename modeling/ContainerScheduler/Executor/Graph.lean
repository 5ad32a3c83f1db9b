/-
# Activating the nodes of a graph

Every node of a graph without loops has one counter of inputs that are pending and
one of inputs that are dead. When the outputs of a node are propagated, each of its
edges changes the counters of its target, and a target that becomes ready is tagged
as dead or live there and then. An ordinary node waits for all inputs and is dead
when one of them is. A merge waits for its control inputs and for one live data
input, or for all of its data inputs when they are dead: its pending counter holds
twice the number of control inputs that are missing, and its lowest bit is set until
a live input has arrived.

The nodes are ordinary ones, switches, merges and control triggers, of one frame
and one iteration, and a sink whose inputs are ignored. Whether a counter is packed
into three bits or not makes no difference, and the bit that a verbose log sets is
left out. That the last use of an output moves it is not seen by any later use.
-/

import ContainerScheduler.Executor.Process
import Mathlib.Data.List.Perm.Basic

namespace ContainerScheduler.Executor

open Math

universe u v

/-! ## Graphs -/

inductive NodeKind
  | ordinary
  | switch
  | merge
  | controlTrigger
  | sink
  deriving DecidableEq, Repr

/-- An edge; one without an output slot is a control edge. -/
structure Edge (ν : Type u) where
  src : ν
  dst : ν
  outputSlot : Option ℕ
  inputSlot : ℕ
  deriving DecidableEq, Repr

namespace Edge

variable {ν : Type u}

def isControl (edge : Edge ν) : Bool := edge.outputSlot.isNone

end Edge

/-- A finite graph without cycles, in which every input slot of a node is fed by
exactly one data edge, every merge has a data input and no edge leaves a sink. The
order of the edges is the one in which a node's outputs are propagated. -/
structure Graph (ν : Type u) [DecidableEq ν] where
  nodes : List ν
  kind : ν → NodeKind
  numInputs : ν → ℕ
  edges : List (Edge ν)
  rank : ν → ℕ
  nodes_nodup : nodes.Nodup
  src_mem : ∀ edge ∈ edges, edge.src ∈ nodes
  dst_mem : ∀ edge ∈ edges, edge.dst ∈ nodes
  acyclic : ∀ edge ∈ edges, rank edge.src < rank edge.dst
  slots : ∀ node ∈ nodes, ((edges.filter fun edge => edge.dst = node ∧ edge.isControl = false).map
    Edge.inputSlot).Perm (List.range (numInputs node))
  merge_inputs : ∀ node ∈ nodes, kind node = .merge → 0 < numInputs node
  sink_src : ∀ edge ∈ edges, kind edge.src ≠ .sink

namespace Graph

variable {ν : Type u} [DecidableEq ν] (graph : Graph ν)

def outEdges (node : ν) : List (Edge ν) := graph.edges.filter fun edge => edge.src = node

def inEdges (node : ν) : List (Edge ν) := graph.edges.filter fun edge => edge.dst = node

/-- The root nodes, which are ready from the start. -/
def rootNodes : List ν := graph.nodes.filter fun node => graph.inEdges node = []

end Graph

/-! ## Counters -/

/-- The counters of a node. -/
structure Counts where
  pending : ℕ
  deadCount : ℕ
  deriving DecidableEq, Repr

namespace Counts

/-- A node that is pending has not been found ready by its counter. -/
def NotReady (counts : Counts) : Prop := counts.pending ≠ 0

instance (counts : Counts) : Decidable counts.NotReady := by
  unfold NotReady
  infer_instance

def decrementPending (counts : Counts) (amount : ℕ) : Counts :=
  { counts with pending := counts.pending - amount }

/-- Clear the lowest bit of a merge. -/
def markLive (counts : Counts) : Counts :=
  if counts.NotReady then { counts with pending := counts.pending / 2 * 2 } else counts

def incrementDeadCount (counts : Counts) : Counts :=
  if counts.NotReady then { counts with deadCount := counts.deadCount + 1 } else counts

def adjustForActivation (counts : Counts) (incrementDead : Bool) : Counts :=
  (if incrementDead then counts.incrementDeadCount else counts).decrementPending 1

end Counts

/-- The counters a node starts with. -/
def getMaxPendingCounts {ν : Type u} [DecidableEq ν] (graph : Graph ν) (node : ν) : Counts :=
  match graph.kind node with
  | .merge => ⟨1 + 2 * (graph.inEdges node).countP Edge.isControl, 0⟩
  | _ => ⟨(graph.inEdges node).length, 0⟩

/-! ## Iterations -/

/-- The outputs of a node, or its inputs: a slot without a value is dead. -/
abbrev Entries (α : Type v) := ℕ → Option α

/-- The state of the one iteration: counters and inputs of the nodes, and the number
of nodes that are ready or under way. When that number returns to zero the iteration
and its frame are deleted. `arrived` lists the edges that were propagated, with
whether they were dead, and `propagated` the nodes; neither is read. -/
structure IterationState (ν : Type u) (α : Type v) where
  counts : ν → Counts
  inputTensors : ν → Entries α
  outstandingOps : ℤ
  deleted : Bool
  arrived : List (Edge ν × Bool)
  propagated : List ν

namespace IterationState

variable {ν : Type u} {α : Type v} [DecidableEq ν]

def setCounts (iteration : IterationState ν α) (node : ν) (counts : Counts) :
    IterationState ν α :=
  { iteration with counts := Function.update iteration.counts node counts }

def setInput (iteration : IterationState ν α) (node : ν) (slot : ℕ) (value : Option α) :
    IterationState ν α :=
  { iteration with
    inputTensors := Function.update iteration.inputTensors node
      (Function.update (iteration.inputTensors node) slot value) }

/-- `ClearVal` of all inputs of a node. -/
def clearInputs (node : ν) (iteration : IterationState ν α) : IterationState ν α :=
  { iteration with inputTensors := Function.update iteration.inputTensors node (fun _ => none) }

end IterationState

/-! ## Activation -/

section Activation

variable {ν : Type u} {α : Type v} [DecidableEq ν] (graph : Graph ν)

/-- What an edge makes of its target. -/
structure Arrival where
  counts : Counts
  dead : Bool
  ready : Bool
  needInput : Bool
  deriving DecidableEq, Repr

/-- An edge arrives at a node of the given counters: the first live data edge of a
merge sets its input. `hasValue` says whether the output slot of a data edge has a
value. -/
def arrive (kind : NodeKind) (numInputs : ℕ) (counts : Counts) (isControl isDead hasValue : Bool) :
    Arrival :=
  match kind with
  | .merge =>
      if isControl then
        let counted := counts.decrementPending 2
        let dead := decide (counted.deadCount = numInputs)
        ⟨counted, dead, decide (counted.pending = 0 ∨ counted.pending = 1 ∧ dead = true), false⟩
      else if hasValue then
        ⟨counts.markLive, false, decide (counts.pending = 1), decide (counts.pending % 2 = 1)⟩
      else
        let counted := counts.incrementDeadCount
        let dead := decide (counted.deadCount = numInputs)
        ⟨counted, dead, decide (counted.pending = 1 ∧ dead = true), false⟩
  | _ =>
      let counted := counts.adjustForActivation (isDead || (!isControl && !hasValue))
      ⟨counted, decide (0 < counted.deadCount), decide (counted.pending = 0), !isControl⟩

/-- The value an edge carries out of the outputs of its source. -/
def Edge.carried (edge : Edge ν) (outputs : Entries α) : Option α :=
  edge.outputSlot.bind outputs

/-- Whether an edge arrives dead: a control edge out of a dead node, or a data edge
without a value. -/
def Edge.arrivesDead (edge : Edge ν) (isDead : Bool) (outputs : Entries α) : Bool :=
  if edge.isControl then isDead else (edge.carried outputs).isNone

/-- One round of the loop of `ActivateNodes`. -/
def activateEdge (isDead : Bool) (outputs : Entries α)
    (activated : IterationState ν α × List (TaggedNode ν)) (edge : Edge ν) :
    IterationState ν α × List (TaggedNode ν) :=
  let (iteration, ready) := activated
  if graph.kind edge.dst = .sink then (iteration, ready)
  else
    let arrival := arrive (graph.kind edge.dst) (graph.numInputs edge.dst)
      (iteration.counts edge.dst) edge.isControl isDead (edge.carried outputs).isSome
    let counted := iteration.setCounts edge.dst arrival.counts
    let filled := if arrival.needInput then
        counted.setInput edge.dst edge.inputSlot (edge.carried outputs)
      else counted
    let logged := { filled with
      arrived := filled.arrived ++ [(edge, edge.arrivesDead isDead outputs)] }
    if arrival.ready then
      ({ logged with outstandingOps := logged.outstandingOps + 1 },
        ready ++ [⟨edge.dst, graph.kind edge.dst ≠ .controlTrigger && arrival.dead⟩])
    else (logged, ready)

/-- Activate the targets of a node's edges. -/
def activateNodes (node : ν) (isDead : Bool) (outputs : Entries α)
    (iteration : IterationState ν α) : IterationState ν α × List (TaggedNode ν) :=
  (graph.outEdges node).foldl (activateEdge graph isDead outputs) (iteration, [])

/-- `PropagateOutputs` for nodes that neither enter nor leave a frame nor start an
iteration. -/
def propagateOutputs (tagged : TaggedNode ν) (outputs : Entries α)
    (iteration : IterationState ν α) : IterationState ν α × List (TaggedNode ν) :=
  let activated := activateNodes graph tagged.node tagged.isDead outputs iteration
  let outstanding := activated.1.outstandingOps - 1
  ({ activated.1 with
    outstandingOps := outstanding
    deleted := activated.1.deleted || decide (outstanding = 0)
    propagated := activated.1.propagated ++ [tagged.node] }, activated.2)

/-- What the executor knows of the nodes of a graph: none of them transfers. -/
def graphItems (isExpensive kernelIsAsync : ν → Bool) :
    Items ν (Entries α) (IterationState ν α) where
  isTransferNode := fun _ => false
  kernelIsAsync := kernelIsAsync
  isExpensive := isExpensive
  emptyOutputs := fun _ _ => none
  clearInputs := IterationState.clearInputs
  propagateOutputs := propagateOutputs graph

/-- The iteration before anything ran. -/
def initialIteration : IterationState ν α where
  counts := getMaxPendingCounts graph
  inputTensors := fun _ _ => none
  outstandingOps := graph.rootNodes.length
  deleted := false
  arrived := []
  propagated := []

/-- The executor on a graph. -/
def graphExecutor (isExpensive kernelIsAsync : ν → Bool) :
    Machine (ExecutorState ν (Entries α) (IterationState ν α)) (ExecutorStep (Entries α)) :=
  runAsync (graphItems graph isExpensive kernelIsAsync)
    (graph.rootNodes.map fun node => ⟨node, false⟩) (initialIteration graph)

end Activation

end ContainerScheduler.Executor
