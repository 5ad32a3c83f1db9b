/-
# Frames of a graph

A breadth-first search from the source gives every node the frame of the first edge that reaches it,
and compares the names of the frames at the other edges. A second pass looks at the parents and at
the loop conditions of the frames.
-/

import ContainerScheduler.Graphs.Graph
import Mathlib.Data.List.Infix

namespace ContainerScheduler.Graphs

structure ControlFlowInfo where
  frame : Option ℕ
  parentFrame : Option ℕ
  frameName : String
  deriving DecidableEq

instance : Inhabited ControlFlowInfo := ⟨⟨none, none, ""⟩⟩

inductive ControlFlowError
  /-- "has inputs from different frames": an input of `out` in one frame, and the first in another.
  -/
  | differentFrames (out curr : ℕ) (frameName : String) (first : ℕ) (firstName : String)
  /-- What `GetNodeAttr` says. -/
  | noFrameName (out : ℕ)
  /-- "must have a frame name". -/
  | emptyFrameName (out : ℕ)
  /-- "Mismatched parent frames", an internal error. -/
  | mismatchedParents (frameName parentName otherName : String) (node : ℕ)
  /-- "has more than one LoopCond node". -/
  | severalLoopConds (frameName : String) (node loopCond : ℕ)
  /-- A null pointer, or an access behind the end of a vector. -/
  | fault
  deriving DecidableEq

/-- What a pointer or an index leads to. -/
def deref {α : Type} : Option α → Except ControlFlowError α
  | some value => .ok value
  | none => .error .fault

/-! ## The search -/

structure FrameSearch where
  info : List ControlFlowInfo
  parentNodes : List (Option ℕ)
  ready : List ℕ

variable (graph : Graph)

def parentInfo (info : List ControlFlowInfo) (cf : ControlFlowInfo) :
    Except ControlFlowError ControlFlowInfo :=
  deref (cf.parentFrame.bind fun parent => info[parent]?)

/-- Frame, parent and name that a node passes on to its outputs: an exit leads to the parent frame.
-/
def passedOn (info : List ControlFlowInfo) (curr : ℕ) : Except ControlFlowError ControlFlowInfo :=
  (deref (graph.node curr)).bind fun node =>
    (deref info[curr]?).bind fun currInfo =>
      if node.nodeClass = .exit then parentInfo info currInfo else .ok currInfo

def firstInfo (out : ℕ) (node : Node) (passed : ControlFlowInfo) :
    Except ControlFlowError ControlFlowInfo :=
  if node.nodeClass = .enter then
    match node.frameName with
    | none => .error (.noFrameName out)
    | some frameName =>
        if frameName = "" then .error (.emptyFrameName out)
        else .ok ⟨some out, passed.frame, frameName⟩
  else .ok passed

/-- The name with which the frame of a further input is compared. -/
def comparedName (info : List ControlFlowInfo) (node : Node) (outInfo : ControlFlowInfo) :
    Except ControlFlowError String :=
  if node.nodeClass = .enter then (parentInfo info outInfo).map ControlFlowInfo.frameName
  else .ok outInfo.frameName

def processEdge (curr : ℕ) (passed : ControlFlowInfo) (search : FrameSearch) (edge : Edge) :
    Except ControlFlowError FrameSearch :=
  if isOp edge.dst then
    (deref (graph.node edge.dst)).bind fun out =>
      (deref search.info[edge.dst]?).bind fun outInfo =>
        (deref search.parentNodes[edge.dst]?).bind fun parentNode =>
          match parentNode with
          | some first =>
              (comparedName search.info out outInfo).bind fun name =>
                if name = passed.frameName then .ok search
                else .error (.differentFrames edge.dst curr passed.frameName first name)
          | none =>
              (firstInfo edge.dst out passed).map fun outInfo =>
                { info := search.info.set edge.dst outInfo
                  parentNodes := search.parentNodes.set edge.dst (some curr)
                  ready := search.ready ++ [edge.dst] }
  -- sink and source are skipped
  else .ok search

/-- What an edge does if there is no error. -/
inductive EdgeStep (curr : ℕ) (passed : ControlFlowInfo) (search : FrameSearch) (edge : Edge) :
    FrameSearch → Prop
  | skip (hop : isOp edge.dst = false) : EdgeStep curr passed search edge search
  | compare (hop : isOp edge.dst = true) (out : Node) (outInfo : ControlFlowInfo) (first : ℕ)
      (hout : graph.node edge.dst = some out) (hinfo : search.info[edge.dst]? = some outInfo)
      (hfirst : search.parentNodes[edge.dst]? = some (some first))
      (hname : comparedName search.info out outInfo = .ok passed.frameName) :
      EdgeStep curr passed search edge search
  | enter (hop : isOp edge.dst = true) (out : Node) (outInfo outInfo' : ControlFlowInfo)
      (hout : graph.node edge.dst = some out) (hinfo : search.info[edge.dst]? = some outInfo)
      (hfirst : search.parentNodes[edge.dst]? = some none)
      (hinfo' : firstInfo edge.dst out passed = .ok outInfo') :
      EdgeStep curr passed search edge
        { info := search.info.set edge.dst outInfo'
          parentNodes := search.parentNodes.set edge.dst (some curr)
          ready := search.ready ++ [edge.dst] }

theorem bind_eq_ok {α β : Type} {outcome : Except ControlFlowError α}
    {next : α → Except ControlFlowError β} {result : β} :
    outcome.bind next = .ok result ↔ ∃ value, outcome = .ok value ∧ next value = .ok result := by
  cases outcome with
  | error error => exact ⟨nofun, fun ⟨_, hvalue, _⟩ => nomatch hvalue⟩
  | ok value => exact ⟨fun hnext => ⟨value, rfl, hnext⟩, fun ⟨_, rfl, hnext⟩ => hnext⟩

theorem map_eq_ok {α β : Type} {outcome : Except ControlFlowError α} {f : α → β} {result : β} :
    outcome.map f = .ok result ↔ ∃ value, outcome = .ok value ∧ f value = result := by
  cases outcome <;> simp [Except.map]

theorem deref_eq_ok {α : Type} {pointer : Option α} {value : α} :
    deref pointer = .ok value ↔ pointer = some value := by
  cases pointer <;> simp [deref]

variable {graph} {curr : ℕ} {passed : ControlFlowInfo} {search search' : FrameSearch} {edge : Edge}

theorem processEdge_eq_ok :
    processEdge graph curr passed search edge = .ok search' ↔
      EdgeStep graph curr passed search edge search' := by
  rw [processEdge]
  constructor
  · intro hok
    split_ifs at hok with hop
    · obtain ⟨out, hout, hok⟩ := bind_eq_ok.mp hok
      obtain ⟨outInfo, hinfo, hok⟩ := bind_eq_ok.mp hok
      obtain ⟨parentNode, hparent, hok⟩ := bind_eq_ok.mp hok
      rw [deref_eq_ok] at hout hinfo hparent
      cases parentNode with
      | some first =>
          obtain ⟨name, hname, hok⟩ := bind_eq_ok.mp hok
          split_ifs at hok with heq
          cases hok
          subst heq
          exact .compare hop out outInfo first hout hinfo hparent hname
      | none =>
          cases hfirst : firstInfo edge.dst out passed with
          | error error =>
              rw [hfirst] at hok
              cases hok
          | ok outInfo' =>
              rw [hfirst] at hok
              cases hok
              exact .enter hop out outInfo outInfo' hout hinfo hparent hfirst
    · cases hok
      exact .skip (Bool.of_not_eq_true hop)
  · intro hstep
    cases hstep with
    | skip hop => rw [if_neg (Bool.not_eq_true _ ▸ hop)]
    | compare hop out outInfo first hout hinfo hfirst hname =>
        rw [if_pos hop, hout, hinfo, hfirst]
        simp only [deref, Except.bind, hname, if_true]
    | enter hop out outInfo outInfo' hout hinfo hfirst hinfo' =>
        rw [if_pos hop, hout, hinfo, hfirst]
        simp only [deref, Except.bind, hinfo', Except.map]

/-- What is left to do: nodes that are ready, and nodes that were not seen. -/
def FrameSearch.pending (search : FrameSearch) : ℕ :=
  search.ready.length + search.parentNodes.count none

theorem EdgeStep.pending_eq (hstep : EdgeStep graph curr passed search edge search') :
    search'.pending = search.pending := by
  cases hstep with
  | skip | compare => rfl
  | enter hop out outInfo outInfo' hout hinfo hfirst hinfo' =>
      obtain ⟨hlt, hget⟩ := List.getElem?_eq_some_iff.mp hfirst
      have hpositive : 0 < search.parentNodes.count none :=
        List.count_pos_iff.mpr (hget ▸ List.getElem_mem hlt)
      simp only [FrameSearch.pending, List.length_append, List.length_singleton,
        List.count_set hlt, hget]
      simp only [beq_self_eq_true, if_true, reduceCtorEq, beq_iff_eq, if_false]
      omega

theorem pending_of_foldlM {edges : List Edge}
    (hok : edges.foldlM (processEdge graph curr passed) search = .ok search') :
    search'.pending = search.pending := by
  induction edges generalizing search with
  | nil =>
      cases hok
      rfl
  | cons edge edges ih =>
      rw [List.foldlM_cons] at hok
      obtain ⟨middle, hedge, hok⟩ := bind_eq_ok.mp hok
      exact (ih hok).trans (processEdge_eq_ok.mp hedge).pending_eq

variable (graph)

/-- The body of the loop, for the node that was popped. -/
def processNode (curr : ℕ) (search : FrameSearch) : Except ControlFlowError FrameSearch :=
  (passedOn graph search.info curr).bind fun passed =>
    (graph.outEdges curr).foldlM (processEdge graph curr passed) search

variable {graph}

theorem pending_of_processNode {ready : List ℕ} (hready : search.ready = curr :: ready)
    (hprocess : processNode graph curr { search with ready := ready } = .ok search') :
    search'.pending < search.pending := by
  obtain ⟨passed, -, hedges⟩ := bind_eq_ok.mp hprocess
  rw [pending_of_foldlM hedges, FrameSearch.pending, FrameSearch.pending, hready]
  exact Nat.add_lt_add_right (Nat.lt_succ_self _) _

variable (graph)

def frameLoop (search : FrameSearch) : Except ControlFlowError FrameSearch :=
  match _ : search.ready with
  | [] => .ok search
  | curr :: ready =>
      match _ : processNode graph curr { search with ready := ready } with
      | .error error => .error error
      | .ok search' => frameLoop search'
termination_by search.pending
decreasing_by exact pending_of_processNode ‹_› ‹_›

/-! ## The second pass -/

structure Frame where
  name : String
  /-- A pointer to an entry of the map, known by its key. -/
  parent : Option String
  loopCond : Option ℕ
  deriving DecidableEq

def strContains (haystack needle : String) : Bool := decide (needle.toList <:+: haystack.toList)

/-- The loop condition of a frame, if there is one, and the name of its node. -/
def validateLoopCond (frame : Frame) (frameName : String) (n : ℕ) (node : Node) :
    Except ControlFlowError Frame :=
  if node.nodeClass = .loopCond then
    match frame.loopCond with
    | none => .ok { frame with loopCond := some n }
    | some loopCond =>
        (deref (graph.node loopCond)).bind fun other =>
          if !strContains other.name "LoopCounter" && !strContains node.name "LoopCounter" then
            .error (.severalLoopConds frameName n loopCond)
          else .ok { frame with loopCond := some n }
  else .ok frame

/-- A step of the loop, with the frames that `operator[]` finds or makes. -/
def validateNode (info : List ControlFlowInfo) (frames : String → Frame) (n : ℕ) :
    Except ControlFlowError (String → Frame) :=
  (deref (graph.node n)).bind fun node =>
    (deref info[n]?).bind fun cf =>
      if cf.frame = none ∨ cf.parentFrame = none then .ok frames
      else
        (parentInfo info cf).bind fun parent =>
          match (frames cf.frameName).parent with
          | none =>
              (validateLoopCond graph
                { frames cf.frameName with parent := some parent.frameName, name := cf.frameName }
                cf.frameName n node).map (Function.update frames cf.frameName)
          | some other =>
              if other = parent.frameName then
                (validateLoopCond graph (frames cf.frameName) cf.frameName n node).map
                  (Function.update frames cf.frameName)
              else
                .error (.mismatchedParents cf.frameName (frames parent.frameName).name
                  (frames other).name n)

def validateControlFlowInfo (info : List ControlFlowInfo) :
    Except ControlFlowError (String → Frame) :=
  graph.opNodes.foldlM (validateNode graph info) fun _ => ⟨"", none, none⟩

/-! ## Both passes -/

def startSearch : FrameSearch where
  info := (List.replicate graph.numNodeIds default).set 0 ⟨some 0, some 0, ""⟩
  parentNodes := List.replicate graph.numNodeIds none
  ready := [0]

def unreachableNodes (search : FrameSearch) : List String :=
  graph.opNodes.filterMap fun n =>
    if search.parentNodes[n]? = some none then (graph.node n).map Node.name else none

/-- The infos, and the names of the nodes that are not reachable. -/
def buildControlFlowInfo : Except ControlFlowError (List ControlFlowInfo × List String) :=
  (frameLoop graph (startSearch graph)).bind fun search =>
    (validateControlFlowInfo graph search.info).map fun _ =>
      (search.info, unreachableNodes graph search)

end ContainerScheduler.Graphs
