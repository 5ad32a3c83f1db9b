/-
# Incremental detection of cycles

`GraphCycles` keeps for each node a rank, a marker for its searches and the sets of its
predecessors and successors. A new edge that goes up in rank is simply added. One that
goes down starts a search forward from its target, bounded by the rank of its source: if
that meets the source there is a cycle, and the edge is taken back. Otherwise a search
backward from the source follows, and the ranks of what both have found are dealt out
again.

The fields of the nodes are functions on the ids below the size; `freeNodes` is a stack
whose top is the head. Every operation that erases from a set has no result where the
code erases a value that is not there.
-/

import ContainerScheduler.Compiler.OrderedSet
import ContainerScheduler.Math.DepthFirst
import ContainerScheduler.Math.PathSearch
import ContainerScheduler.Math.RankRepair
import ContainerScheduler.Math.Transition

namespace ContainerScheduler.Compiler

open Math

/-- `GraphCycles::Rep`: the fields of `nodes_` by id, and the unused ids. -/
structure Rep where
  size : ℕ
  rank : ℕ → ℕ
  visited : ℕ → Bool
  inSet : ℕ → OrderedSet ℕ
  outSet : ℕ → OrderedSet ℕ
  freeNodes : List ℕ

namespace Rep

/-- A graph without nodes. -/
def new : Rep where
  size := 0
  rank _ := 0
  visited _ := false
  inSet _ := .empty
  outSet _ := .empty
  freeNodes := []

/-- An id that `NewNode` has handed out and that has not been given back. -/
def Live (rep : Rep) (node : ℕ) : Prop := node < rep.size ∧ node ∉ rep.freeNodes

instance (rep : Rep) (node : ℕ) : Decidable (rep.Live node) :=
  inferInstanceAs (Decidable (_ ∧ _))

/-- There is an edge between two nodes. -/
def Edge (rep : Rep) (source target : ℕ) : Prop := target ∈ rep.outSet source

/-- `HasEdge`. -/
def hasEdge (rep : Rep) (x y : ℕ) : Bool := (rep.outSet x).contains y

theorem hasEdge_iff {rep : Rep} {x y : ℕ} : rep.hasEdge x y = true ↔ rep.Edge x y :=
  OrderedSet.contains_iff

/-! ## Nodes -/

/-- `NewNode`: the top of the free ids with the rank it has, or a new node whose rank is
its id. -/
def newNode (rep : Rep) : ℕ × Rep :=
  match rep.freeNodes with
  | [] =>
      (rep.size,
        { rep with
          size := rep.size + 1
          rank := Function.update rep.rank rep.size rep.size
          visited := Function.update rep.visited rep.size false
          inSet := Function.update rep.inSet rep.size .empty
          outSet := Function.update rep.outSet rep.size .empty })
  | node :: rest => (node, { rep with freeNodes := rest })

/-- Erase a node from the sets of the listed ones. -/
def eraseFrom (node : ℕ) : List ℕ → (ℕ → OrderedSet ℕ) → Option (ℕ → OrderedSet ℕ)
  | [], sets => some sets
  | y :: ys, sets => do
      let erased ← (sets y).erase node
      eraseFrom node ys (Function.update sets y erased)

/-- `RemoveNode`. -/
def removeNode (rep : Rep) (node : ℕ) : Option Rep := do
  let inSet ← eraseFrom node (rep.outSet node).valueSequence rep.inSet
  let outSet ← eraseFrom node (inSet node).valueSequence rep.outSet
  return { rep with
    inSet := Function.update inSet node .empty
    outSet := Function.update outSet node .empty
    freeNodes := node :: rep.freeNodes }

/-- `RemoveEdge`. -/
def removeEdge (rep : Rep) (x y : ℕ) : Option Rep := do
  let out ← (rep.outSet x).erase y
  let into ← (rep.inSet y).erase x
  return { rep with
    outSet := Function.update rep.outSet x out
    inSet := Function.update rep.inSet y into }

/-! ## The searches -/

/-- More pops than a search can make: one, and one for each element of the sets. -/
def searchFuel (size : ℕ) (sets : ℕ → OrderedSet ℕ) : ℕ :=
  ((List.range size).map fun v => (sets v).valueSequence.length).sum + 2

/-- `ForwardDFS`: over the successors below a rank, stopped by one at the rank. -/
def forwardDFS (rep : Rep) (n upperBound : ℕ) : Option (Found ℕ) :=
  search (fun v => (rep.outSet v).valueSequence) (fun w => rep.rank w == upperBound)
    (fun w => rep.rank w < upperBound) (searchFuel rep.size rep.outSet) rep.visited [] [n]

/-- `BackwardDFS`: over the predecessors above a rank. -/
def backwardDFS (rep : Rep) (n lowerBound : ℕ) : Option (Found ℕ) :=
  search (fun v => (rep.inSet v).valueSequence) (fun _ => false)
    (fun w => lowerBound < rep.rank w) (searchFuel rep.size rep.inSet) rep.visited [] [n]

/-- `ClearVisitedBits`. -/
def clearVisitedBits (rep : Rep) (nodes : List ℕ) : Rep :=
  { rep with visited := fun v => rep.visited v && !nodes.contains v }

/-- `Reorder`: sort both lists of nodes by rank, clear their markers and deal out the
merged ranks. -/
def reorderNodes (rep : Rep) (deltab deltaf : List ℕ) : Rep :=
  { rep.clearVisitedBits (deltab ++ deltaf) with rank := reorder rep.rank deltab deltaf }

/-! ## Edges -/

/-- `InsertEdge`: whether the graph has the edge now, and the graph. -/
def insertEdge (rep : Rep) (x y : ℕ) : Option (Bool × Rep) :=
  if x = y then some (false, rep)
  else if !((rep.outSet x).insert y).1 then some (true, rep)
  else
    let added :=
      { rep with
        outSet := Function.update rep.outSet x ((rep.outSet x).insert y).2
        inSet := Function.update rep.inSet y ((rep.inSet y).insert x).2 }
    if rep.rank x ≤ rep.rank y then some (true, added)
    else do
      let forward ← added.forwardDFS y (rep.rank x)
      if forward.stopped then
        -- a cycle: undo the insertion and clear the markers of the search
        let restored ← { added with visited := forward.visited }.removeEdge x y
        return (false, restored.clearVisitedBits forward.marked)
      else
        let searched := { added with visited := forward.visited }
        let backward ← searched.backwardDFS x (rep.rank y)
        return (true,
          { searched with visited := backward.visited }.reorderNodes backward.marked
            forward.marked)

/-- `IsReachableNonConst`. -/
def isReachableNonConst (rep : Rep) (x y : ℕ) : Option (Bool × Rep) :=
  if x = y then some (true, rep)
  else if rep.rank y ≤ rep.rank x then some (false, rep)
  else do
    let forward ← rep.forwardDFS x (rep.rank y)
    return (forward.stopped,
      { rep with visited := forward.visited }.clearVisitedBits forward.marked)

/-- Insert the listed edges one after the other; their results are not looked at. -/
def insertEdges : List (ℕ × ℕ) → Rep → Option Rep
  | [], rep => some rep
  | (x, y) :: edges, rep => do
      let inserted ← rep.insertEdge x y
      insertEdges edges inserted.2

/-- `ContractEdge`, after its check that the edge is there. The sets that are moved away
from the second node leave empty ones. -/
def contractEdge (rep : Rep) (a b : ℕ) : Option (Bool × Rep) := do
  let removed ← rep.removeEdge a b
  let (reachable, searched) ← removed.isReachableNonConst a b
  if reachable then
    let restored ← searched.insertEdge a b
    return (false, restored.2)
  else
    let out := searched.outSet b
    let into := searched.inSet b
    let inSet ← eraseFrom b out.valueSequence (Function.update searched.inSet b .empty)
    let outSet ← eraseFrom b into.valueSequence (Function.update searched.outSet b .empty)
    let detached :=
      { searched with inSet, outSet, freeNodes := b :: searched.freeNodes }
    let forwarded ← insertEdges (out.valueSequence.map fun y => (a, y)) detached
    let merged ← insertEdges (into.valueSequence.map fun y => (y, a)) forwarded
    return (true, merged)

/-! ## Paths -/

/-- `FindPath`: the length of a path, or 0, and the array with its first nodes. The set of
seen nodes is a list. -/
def findPath (rep : Rep) (x y : ℕ) (maxPathLen : ℤ) (path : ℤ → ℕ) : Option (ℤ × (ℤ → ℕ)) :=
  pathSearch (fun v => (rep.outSet v).valueSequence) y maxPathLen (2 * rep.size + 3) [] [some x] 0
    path

/-- `IsReachable`. -/
def isReachable (rep : Rep) (x y : ℕ) : Option Bool :=
  (rep.findPath x y 0 fun _ => 0).map fun found => decide (found.1 > 0)

/-- `CanContractEdge`, after its check that the edge is there. -/
def canContractEdge (rep : Rep) (a b : ℕ) : Option (Bool × Rep) := do
  let removed ← rep.removeEdge a b
  let (reachable, searched) ← removed.isReachableNonConst a b
  let restored ← searched.insertEdge a b
  return (!reachable, restored.2)

end Rep

/-! ## Sequences of calls -/

/-- A call of a user of the graph. -/
inductive GraphCall
  | newNode
  | removeNode (node : ℕ)
  | insertEdge (x y : ℕ)
  | removeEdge (x y : ℕ)
  | contractEdge (a b : ℕ)
deriving DecidableEq

namespace GraphCall

/-- The ids that a call passes are live, and `ContractEdge` checks that its edge exists. -/
def Allowed (rep : Rep) : GraphCall → Prop
  | newNode => True
  | removeNode node => rep.Live node
  | insertEdge x y => rep.Live x ∧ rep.Live y
  | removeEdge x y => rep.Live x ∧ rep.Live y
  | contractEdge a b => (rep.Live a ∧ rep.Live b) ∧ rep.hasEdge a b = true

instance (rep : Rep) : (call : GraphCall) → Decidable (call.Allowed rep)
  | newNode => inferInstanceAs (Decidable True)
  | removeNode _ => inferInstanceAs (Decidable (rep.Live _))
  | insertEdge _ _ => inferInstanceAs (Decidable (_ ∧ _))
  | removeEdge _ _ => inferInstanceAs (Decidable (_ ∧ _))
  | contractEdge _ _ => inferInstanceAs (Decidable (_ ∧ _))

/-- The graph after a call, if the call has a result. -/
def exec (rep : Rep) : GraphCall → Option Rep
  | newNode => some rep.newNode.2
  | removeNode node => rep.removeNode node
  | insertEdge x y => (rep.insertEdge x y).map Prod.snd
  | removeEdge x y => rep.removeEdge x y
  | contractEdge a b => (rep.contractEdge a b).map Prod.snd

end GraphCall

/-- The calls on one graph. The state is `none` when a call has run into undefined
behaviour, and nothing follows. -/
def graphMachine : Machine (Option Rep) GraphCall where
  init := some .new
  step
    | none, _ => none
    | some rep, call => if call.Allowed rep then some (call.exec rep) else none

/-- A call that changes the graph, or one that asks for a path or a contraction. -/
inductive PathCall
  | change (call : GraphCall)
  | findPath (x y : ℕ) (maxPathLen : ℤ) (path : ℤ → ℕ)
  | isReachable (x y : ℕ)
  | isReachableNonConst (x y : ℕ)
  | canContractEdge (a b : ℕ)

namespace PathCall

/-- The ids that a call passes are live, and `CanContractEdge` checks that its edge exists. -/
def Allowed (rep : Rep) : PathCall → Prop
  | change call => call.Allowed rep
  | findPath x y _ _ => rep.Live x ∧ rep.Live y
  | isReachable x y => rep.Live x ∧ rep.Live y
  | isReachableNonConst x y => rep.Live x ∧ rep.Live y
  | canContractEdge a b => (rep.Live a ∧ rep.Live b) ∧ rep.hasEdge a b = true

instance (rep : Rep) : (call : PathCall) → Decidable (call.Allowed rep)
  | change _ => inferInstanceAs (Decidable (GraphCall.Allowed _ _))
  | findPath .. => inferInstanceAs (Decidable (_ ∧ _))
  | isReachable _ _ => inferInstanceAs (Decidable (_ ∧ _))
  | isReachableNonConst _ _ => inferInstanceAs (Decidable (_ ∧ _))
  | canContractEdge _ _ => inferInstanceAs (Decidable (_ ∧ _))

/-- The graph after a call, if the call has a result. -/
def exec (rep : Rep) : PathCall → Option Rep
  | change call => call.exec rep
  | findPath x y maxPathLen path => (rep.findPath x y maxPathLen path).map fun _ => rep
  | isReachable x y => (rep.isReachable x y).map fun _ => rep
  | isReachableNonConst x y => (rep.isReachableNonConst x y).map Prod.snd
  | canContractEdge a b => (rep.canContractEdge a b).map Prod.snd

end PathCall

/-- All calls on one graph. -/
def pathMachine : Machine (Option Rep) PathCall where
  init := some .new
  step
    | none, _ => none
    | some rep, call => if call.Allowed rep then some (call.exec rep) else none

end ContainerScheduler.Compiler
