/-
# Graphs and their depth-first search

Nodes are known by their ids: 0 is the source, 1 the sink, and the others are operations. Nodes that
were removed leave their ids unused. The out-edges of a node are a set that is iterated in some
order.

The search enters and leaves nodes by calls of `enter` and `leave`, which the caller may not give.
What was called is listed in its order. An access behind the end of `visited` ends the search
without a list.
-/

import ContainerScheduler.Math.PostOrder
import Mathlib.Data.List.Sort

namespace ContainerScheduler.Graphs

inductive NodeClass
  | enter
  | exit
  | loopCond
  | other
  deriving DecidableEq

structure Node where
  name : String
  nodeClass : NodeClass
  /-- The attribute `frame_name`; `none` where `GetNodeAttr` gives an error. -/
  frameName : Option String

structure Edge where
  id : ℕ
  src : ℕ
  srcOutput : ℤ
  dst : ℕ
  dstInput : ℤ
  deriving DecidableEq

structure Graph where
  numNodeIds : ℕ
  node : ℕ → Option Node
  outEdges : ℕ → List Edge
  lt_of_isSome : ∀ n, (node n).isSome → n < numNodeIds
  source_isSome : (node 0).isSome
  src_eq : ∀ n, ∀ edge ∈ outEdges n, edge.src = n
  dst_isSome : ∀ n, ∀ edge ∈ outEdges n, (node edge.dst).isSome

/-- `IsOp`. -/
def isOp (n : ℕ) : Bool := 1 < n

namespace Graph

variable (graph : Graph)

/-- `op_nodes`, in the order of the ids. -/
def opNodes : List ℕ :=
  (List.range graph.numNodeIds).filter fun n => isOp n && (graph.node n).isSome

/-- The same graph, but for the order in which the edges are listed. -/
structure SameEdges (graph graph' : Graph) : Prop where
  numNodeIds_eq : graph'.numNodeIds = graph.numNodeIds
  node_eq : graph'.node = graph.node
  perm : ∀ n, (graph'.outEdges n).Perm (graph.outEdges n)

theorem SameEdges.symm {graph graph' : Graph} (hsame : SameEdges graph graph') :
    SameEdges graph' graph :=
  ⟨hsame.numNodeIds_eq.symm, hsame.node_eq.symm, fun n => (hsame.perm n).symm⟩

end Graph

/-! ## Depth-first search -/

open Math

inductive Visit
  | enter (node : ℕ)
  | leave (node : ℕ)
  deriving DecidableEq

abbrev NodeComparator := ℕ → ℕ → Bool

abbrev EdgeFilter := Edge → Bool

/-- What `std::sort` leaves open: the order of nodes that the comparator does not tell apart. -/
structure NodeSort where
  sort : NodeComparator → List ℕ → List ℕ
  perm : ∀ less nodes, (sort less nodes).Perm nodes
  sorted : ∀ less nodes, (∀ n m, less n m = true → less m n = false) →
    (∀ n m k, less n k = true → less n m = true ∨ less m k = true) →
      (sort less nodes).Pairwise fun n m => less m n = false

def acceptsEdge (edgeFilter : Option EdgeFilter) (edge : Edge) : Bool :=
  match edgeFilter with
  | none => true
  | some accepts => accepts edge

/-- The nodes for which work is added, in this order. -/
def successors (graph : Graph) (sort : NodeSort) (stableComparator : Option NodeComparator)
    (edgeFilter : Option EdgeFilter) (n : ℕ) : List ℕ :=
  let accepted := (graph.outEdges n).filter (acceptsEdge edgeFilter)
  match stableComparator with
  | none => accepted.map Edge.dst
  | some less => sort.sort less (accepted.map Edge.dst)

/-- Pushes a node that is not visited. -/
def addWork (visited : List Bool) (stack : List (Work ℕ)) (out : ℕ) : List (Work ℕ) :=
  if visited[out]? = some true then stack else ⟨out, false⟩ :: stack

theorem count_set_lt {visited : List Bool} {n : ℕ} (hn : visited[n]? = some false) :
    (visited.set n true).count false < visited.count false := by
  obtain ⟨hlt, hget⟩ := List.getElem?_eq_some_iff.mp hn
  have hpositive : 0 < visited.count false :=
    List.count_pos_iff.mpr (hget ▸ List.getElem_mem hlt)
  rw [List.count_set hlt, hget]
  simp only [beq_self_eq_true, if_true, Bool.true_beq, Bool.false_eq_true, if_false]
  omega

/-- The loop of `DFSFromHelper`; the back of the stack comes first. -/
def dfsLoop (next : ℕ → List ℕ) (enter leave : Bool) (visited : List Bool) (stack : List (Work ℕ))
    (visits : List Visit) : Option (List Visit) :=
  match stack with
  | [] => some visits
  | work :: stack =>
      if work.leave then dfsLoop next enter leave visited stack (visits ++ [.leave work.node])
      else
        match hvisited : visited[work.node]? with
        | none => none
        | some true => dfsLoop next enter leave visited stack visits
        | some false =>
            let visited' := visited.set work.node true
            dfsLoop next enter leave visited'
              ((next work.node).foldl (addWork visited')
                (if leave then ⟨work.node, true⟩ :: stack else stack))
              (if enter then visits ++ [.enter work.node] else visits)
termination_by (visited.count false, stack.length)
decreasing_by
  · exact Prod.Lex.right _ (Nat.lt_succ_self _)
  · exact Prod.Lex.right _ (Nat.lt_succ_self _)
  · exact Prod.Lex.left _ _ (count_set_lt hvisited)

def dfsFromHelper (graph : Graph) (sort : NodeSort) (start : List ℕ) (enter leave : Bool)
    (stableComparator : Option NodeComparator) (edgeFilter : Option EdgeFilter) :
    Option (List Visit) :=
  dfsLoop (successors graph sort stableComparator edgeFilter) enter leave
    (List.replicate graph.numNodeIds false) (start.reverse.map fun n => ⟨n, false⟩) []

def dfsFrom (graph : Graph) (sort : NodeSort) (start : List ℕ) (enter leave : Bool)
    (stableComparator : Option NodeComparator) (edgeFilter : Option EdgeFilter) :
    Option (List Visit) :=
  dfsFromHelper graph sort start enter leave stableComparator edgeFilter

/-- From the source node. -/
def dfs (graph : Graph) (sort : NodeSort) (enter leave : Bool)
    (stableComparator : Option NodeComparator) (edgeFilter : Option EdgeFilter) :
    Option (List Visit) :=
  dfsFromHelper graph sort [0] enter leave stableComparator edgeFilter

def Visit.entered : Visit → Option ℕ
  | enter node => some node
  | leave _ => none

def Visit.left : Visit → Option ℕ
  | enter _ => none
  | leave node => some node

def getPostOrder (graph : Graph) (sort : NodeSort) (stableComparator : Option NodeComparator)
    (edgeFilter : Option EdgeFilter) : Option (List ℕ) :=
  (dfs graph sort false true stableComparator edgeFilter).map fun visits =>
    visits.filterMap Visit.left

def getReversePostOrder (graph : Graph) (sort : NodeSort)
    (stableComparator : Option NodeComparator) (edgeFilter : Option EdgeFilter) :
    Option (List ℕ) :=
  (getPostOrder graph sort stableComparator edgeFilter).map List.reverse

end ContainerScheduler.Graphs
