/-
# Deadness and values without a schedule

What a graph computes does not need an executor: whether a node is dead and what it
puts out follow from its inputs, and the graph has no cycles. A merge is dead when all
its data inputs are, a control trigger never is, and any other node is dead when one of
its inputs is. A dead node puts out nothing, a live one what its kernel makes of the
values on its data edges.
-/

import ContainerScheduler.Executor.Graph

namespace ContainerScheduler.Executor

open Math

universe u v

variable {ν : Type u} {α : Type v} [DecidableEq ν]

namespace Graph

variable (graph : Graph ν)

/-- Whether a node is dead, from which edges are. -/
def deadFrom (edgeDead : Edge ν → Bool) (node : ν) : Bool :=
  match graph.kind node with
  | .merge => (graph.inEdges node).all fun edge => edge.isControl || edgeDead edge
  | .controlTrigger => false
  | _ => (graph.inEdges node).any edgeDead

/-- The data edge that feeds a slot of a node. -/
def feeding (node : ν) (slot : ℕ) : Option (Edge ν) :=
  (graph.inEdges node).find? fun edge => edge.isControl = false ∧ edge.inputSlot = slot

/-- Whether a node is dead and what it puts out, up to a depth in the graph. -/
def referenceAt (kernel : ν → Entries α → Entries α) : ℕ → ν → Bool × Entries α
  | 0, _ => (true, fun _ => none)
  | depth + 1, node =>
      let edgeDead := fun edge : Edge ν =>
        edge.arrivesDead (referenceAt kernel depth edge.src).1 (referenceAt kernel depth edge.src).2
      let inputs := fun slot => (graph.feeding node slot).bind fun edge =>
        edge.carried (referenceAt kernel depth edge.src).2
      if graph.deadFrom edgeDead node then (true, fun _ => none) else (false, kernel node inputs)

variable (kernel : ν → Entries α → Entries α)

/-- Whether a node is dead. -/
def referenceDead (node : ν) : Bool := (graph.referenceAt kernel (graph.rank node + 1) node).1

/-- What a node puts out. -/
def referenceOutputs (node : ν) : Entries α :=
  (graph.referenceAt kernel (graph.rank node + 1) node).2

/-- Whether an edge is dead. -/
def edgeDead (edge : Edge ν) : Bool :=
  edge.arrivesDead (graph.referenceDead kernel edge.src) (graph.referenceOutputs kernel edge.src)

/-- The value on an edge. -/
def edgeValue (edge : Edge ν) : Option α := edge.carried (graph.referenceOutputs kernel edge.src)

/-- The values on the data edges of a node. -/
def referenceInputs (node : ν) : Entries α := fun slot =>
  (graph.feeding node slot).bind (graph.edgeValue kernel)

/-- Every merge can receive at most one data input with a value. -/
def AtMostOneLive : Prop :=
  ∀ node ∈ graph.nodes, graph.kind node = .merge →
    ((graph.inEdges node).countP fun edge =>
      edge.isControl = false ∧ graph.edgeDead kernel edge = false) ≤ 1

instance : Decidable (graph.AtMostOneLive kernel) := by
  unfold AtMostOneLive
  infer_instance

end Graph

/-! ## The recursion -/

section Recursion

variable {graph : Graph ν} {kernel : ν → Entries α → Entries α}

theorem Graph.mem_inEdges {edge : Edge ν} {node : ν} :
    edge ∈ graph.inEdges node ↔ edge ∈ graph.edges ∧ edge.dst = node := by
  simp [Graph.inEdges]

/-- Whether a node is dead depends on the edges to it only. -/
theorem Graph.deadFrom_congr {edgeDead edgeDead' : Edge ν → Bool} {node : ν}
    (hedges : ∀ edge ∈ graph.inEdges node, edgeDead edge = edgeDead' edge) :
    graph.deadFrom edgeDead node = graph.deadFrom edgeDead' node := by
  unfold Graph.deadFrom
  split
  · rw [Bool.eq_iff_iff, List.all_eq_true, List.all_eq_true]
    exact forall₂_congr fun edge hedge => by rw [hedges edge hedge]
  · rfl
  · rw [Bool.eq_iff_iff, List.any_eq_true, List.any_eq_true]
    exact exists_congr fun edge => and_congr_right fun hedge => by rw [hedges edge hedge]

/-- The edge that feeds a slot is an edge to the node. -/
theorem Graph.mem_of_feeding {node : ν} {slot : ℕ} {edge : Edge ν}
    (hfeeding : graph.feeding node slot = some edge) :
    edge ∈ graph.inEdges node ∧ edge.isControl = false ∧ edge.inputSlot = slot := by
  refine ⟨List.mem_of_find?_eq_some hfeeding, ?_⟩
  simpa using List.find?_some hfeeding

/-- A depth above the rank of a node makes no difference. -/
theorem Graph.referenceAt_eq {depth depth' : ℕ} {node : ν} (hdepth : graph.rank node < depth)
    (hdepth' : graph.rank node < depth') :
    graph.referenceAt kernel depth node = graph.referenceAt kernel depth' node := by
  induction depth generalizing depth' node with
  | zero => exact absurd hdepth (Nat.not_lt_zero _)
  | succ depth ih =>
      obtain ⟨depth', rfl⟩ := Nat.exists_eq_succ_of_ne_zero (Nat.ne_zero_of_lt hdepth')
      have hsrc : ∀ edge ∈ graph.inEdges node, graph.referenceAt kernel depth edge.src =
          graph.referenceAt kernel depth' edge.src := by
        intro edge hedge
        obtain ⟨hmem, rfl⟩ := Graph.mem_inEdges.mp hedge
        have hless := graph.acyclic edge hmem
        exact ih (by omega) (by omega)
      have hdead := @Graph.deadFrom_congr ν _ graph
        (fun edge => edge.arrivesDead (graph.referenceAt kernel depth edge.src).1
          (graph.referenceAt kernel depth edge.src).2)
        (fun edge => edge.arrivesDead (graph.referenceAt kernel depth' edge.src).1
          (graph.referenceAt kernel depth' edge.src).2) node
        fun edge hedge => by simp only [hsrc edge hedge]
      have hinputs : (fun slot => (graph.feeding node slot).bind fun edge =>
            edge.carried (graph.referenceAt kernel depth edge.src).2) =
          fun slot => (graph.feeding node slot).bind fun edge =>
            edge.carried (graph.referenceAt kernel depth' edge.src).2 := by
        funext slot
        cases hfeeding : graph.feeding node slot with
        | none => rfl
        | some edge =>
            simp only [Option.bind_some, hsrc edge (Graph.mem_of_feeding hfeeding).1]
      simp only [Graph.referenceAt, hdead, hinputs]

/-- **The recursive equation** of deadness and outputs. -/
theorem Graph.reference_eq (node : ν) :
    graph.referenceAt kernel (graph.rank node + 1) node =
      if graph.deadFrom (graph.edgeDead kernel) node then (true, fun _ => none)
      else (false, kernel node (graph.referenceInputs kernel node)) := by
  have hsrc : ∀ edge ∈ graph.inEdges node, graph.referenceAt kernel (graph.rank node) edge.src =
      graph.referenceAt kernel (graph.rank edge.src + 1) edge.src := by
    intro edge hedge
    obtain ⟨hmem, rfl⟩ := Graph.mem_inEdges.mp hedge
    exact Graph.referenceAt_eq (graph.acyclic edge hmem) (Nat.lt_succ_self _)
  have hdead := @Graph.deadFrom_congr ν _ graph
    (fun edge => edge.arrivesDead (graph.referenceAt kernel (graph.rank node) edge.src).1
      (graph.referenceAt kernel (graph.rank node) edge.src).2) (graph.edgeDead kernel) node
    fun edge hedge => by
      simp only [hsrc edge hedge, Graph.edgeDead, Graph.referenceDead, Graph.referenceOutputs]
  have hinputs : (fun slot => (graph.feeding node slot).bind fun edge =>
        edge.carried (graph.referenceAt kernel (graph.rank node) edge.src).2) =
      graph.referenceInputs kernel node := by
    funext slot
    cases hfeeding : graph.feeding node slot with
    | none => simp [Graph.referenceInputs, hfeeding]
    | some edge =>
        simp only [Graph.referenceInputs, hfeeding, Option.bind_some, Graph.edgeValue,
          Graph.referenceOutputs, hsrc edge (Graph.mem_of_feeding hfeeding).1]
  simp only [Graph.referenceAt, hdead, hinputs]

theorem Graph.referenceDead_eq (node : ν) :
    graph.referenceDead kernel node = graph.deadFrom (graph.edgeDead kernel) node := by
  rw [Graph.referenceDead, Graph.reference_eq]
  split
  next hdead => exact hdead.symm
  next hlive => exact (Bool.eq_false_iff.mpr hlive).symm

/-- A dead node puts out nothing. -/
theorem Graph.referenceOutputs_dead {node : ν} (hdead : graph.referenceDead kernel node = true) :
    graph.referenceOutputs kernel node = fun _ => none := by
  rw [Graph.referenceDead_eq] at hdead
  rw [Graph.referenceOutputs, Graph.reference_eq, if_pos hdead]

/-- A live node puts out what its kernel makes of its inputs. -/
theorem Graph.referenceOutputs_live {node : ν} (hlive : graph.referenceDead kernel node = false) :
    graph.referenceOutputs kernel node = kernel node (graph.referenceInputs kernel node) := by
  rw [Graph.referenceDead_eq] at hlive
  rw [Graph.referenceOutputs, Graph.reference_eq, if_neg (Bool.eq_false_iff.mp hlive)]

end Recursion

end ContainerScheduler.Executor
