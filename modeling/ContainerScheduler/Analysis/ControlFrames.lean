/-
# Frames are consistent

What the frames stand for is the nesting of loops: an enter adds its frame to those of its inputs,
an exit leaves the innermost one. A search without errors assigns to each node the name of its
innermost frame in the only such nesting, which the order of the edges does not affect.
-/

import ContainerScheduler.Graphs.ControlFlow

namespace ContainerScheduler.Analysis

open Graphs
open Relation

/-! ## Nestings -/

section Stacks

variable {α : Type} {reached : List α → Prop} {default : α}

theorem stack_eq_of_top_eq (htail : ∀ stack, reached stack → reached stack.tail)
    (hdefault : ∀ stack, reached stack → default ∉ stack)
    (hbelow : ∀ stack stack', reached stack → reached stack' →
      stack.headD default = stack'.headD default →
        stack.tail.headD default = stack'.tail.headD default)
    {stack stack' : List α} (hstack : reached stack) (hstack' : reached stack')
    (htop : stack.headD default = stack'.headD default) : stack = stack' := by
  induction stack generalizing stack' with
  | nil =>
      cases stack' with
      | nil => rfl
      | cons top' rest' =>
          obtain rfl : default = top' := htop
          exact absurd List.mem_cons_self (hdefault _ hstack')
  | cons top rest ih =>
      cases stack' with
      | nil =>
          obtain rfl : top = default := htop
          exact absurd List.mem_cons_self (hdefault _ hstack)
      | cons top' rest' =>
          obtain rfl : top = top' := htop
          have hrest : rest = rest' :=
            ih (htail _ hstack) (htail _ hstack') (hbelow _ _ hstack hstack' rfl)
          rw [hrest]

end Stacks

section Nestings

variable (graph : Graph) (nesting : ℕ → List String)

def classOf (n : ℕ) : Option NodeClass := (graph.node n).map Node.nodeClass

/-- An edge leads to an operation. -/
def LeadsToOp (n m : ℕ) : Prop := isOp m = true ∧ ∃ edge ∈ graph.outEdges n, edge.dst = m

/-- Operations lead from the source to a node. -/
def ReachedOp (n : ℕ) : Prop := ReflTransGen (LeadsToOp graph) 0 n

/-- The name of the innermost frame. -/
def topName (frames : List String) : String := frames.headD ""

def ownName (n : ℕ) : Option String := (graph.node n).bind Node.frameName

def outNesting (n : ℕ) : List String :=
  if classOf graph n = some .exit then (nesting n).tail else nesting n

/-- The nesting of a node with an input of this nesting. -/
def nestedIn (n : ℕ) (outer : List String) : List String :=
  if classOf graph n = some .enter then (ownName graph n).getD "" :: outer else outer

/-- All inputs of a node have the nesting that it needs. -/
structure Nests : Prop where
  source_eq : nesting 0 = []
  edge_eq : ∀ n m, ReachedOp graph n → LeadsToOp graph n m →
    nesting m = nestedIn graph m (outNesting graph nesting n)
  named : ∀ n, ReachedOp graph n → isOp n = true → classOf graph n = some .enter →
    ∃ name, ownName graph n = some name ∧ name ≠ ""

/-- What the search compares. -/
def AgreesByName (n m : ℕ) : Prop :=
  topName (if classOf graph m = some .enter then (nesting m).tail else nesting m) =
    topName (outNesting graph nesting n)

variable {graph nesting}

theorem classOf_eq_iff {n : ℕ} {node : Node} {nodeClass : NodeClass}
    (hnode : graph.node n = some node) :
    classOf graph n = some nodeClass ↔ node.nodeClass = nodeClass := by
  rw [classOf, hnode, Option.map_some, Option.some.injEq]

theorem ReachedOp.isSome {n : ℕ} (hreached : ReachedOp graph n) : (graph.node n).isSome := by
  cases hreached with
  | refl => exact graph.source_isSome
  | tail _ hedge =>
      obtain ⟨-, edge, hmem, rfl⟩ := hedge
      exact graph.dst_isSome _ edge hmem

theorem outNesting_congr {nesting' : ℕ → List String} {n : ℕ} (heq : nesting' n = nesting n) :
    outNesting graph nesting' n = outNesting graph nesting n := by
  rw [outNesting, outNesting, heq]

theorem AgreesByName.congr {nesting' : ℕ → List String} {n m : ℕ}
    (hagrees : AgreesByName graph nesting n m) (hn : nesting' n = nesting n)
    (hm : nesting' m = nesting m) : AgreesByName graph nesting' n m := by
  rw [AgreesByName, outNesting_congr hn, hm]
  exact hagrees

end Nestings

/-! ## The search -/

section Search

variable (graph : Graph) (nesting : ℕ → List String) (search : FrameSearch)

/-- The source, and what was reached. -/
def Seen (n : ℕ) : Prop := n = 0 ∨ ∃ parent, search.parentNodes[n]? = some (some parent)

/-- An info stands for a nesting. -/
def StandsFor (info : ControlFlowInfo) (frames : List String) : Prop :=
  ∃ frame parent, info = ⟨some frame, some parent, topName frames⟩ ∧ Seen search frame ∧
    Seen search parent ∧ nesting frame = frames ∧ nesting parent = frames.tail

structure Framed : Prop where
  info_length : search.info.length = graph.numNodeIds
  parent_length : search.parentNodes.length = graph.numNodeIds
  source_eq : nesting 0 = []
  placed : ∀ n, Seen search n → ∃ info, search.info[n]? = some info ∧
    StandsFor nesting search info (nesting n)
  unseen : ∀ n < graph.numNodeIds, ¬ Seen search n → search.info[n]? = some default
  reached : ∀ n, Seen search n → ReachedOp graph n
  isOp_of_seen : ∀ n, Seen search n → n = 0 ∨ isOp n = true
  entered : ∀ n, Seen search n → isOp n = true → classOf graph n = some .enter →
    ∃ name, ownName graph n = some name ∧ nesting n = name :: (nesting n).tail
  named : ∀ n, Seen search n → "" ∉ nesting n
  ready : ∀ n ∈ search.ready, Seen search n
  unique : ∀ nesting', Nests graph nesting' → ∀ n, Seen search n → nesting n = nesting' n

/-- The edges of all nodes that are not ready were compared. -/
def Compared : Prop :=
  ∀ n, Seen search n → n ∉ search.ready → ∀ m, LeadsToOp graph n m →
    Seen search m ∧ AgreesByName graph nesting n m

structure SearchGrows (nesting' : ℕ → List String) (search' : FrameSearch) : Prop where
  seen : ∀ n, Seen search n → Seen search' n
  nesting_eq : ∀ n, Seen search n → nesting' n = nesting n
  new : ∀ n, Seen search' n → Seen search n ∨ n ∈ search'.ready
  ready : ∀ n ∈ search.ready, n ∈ search'.ready

variable {graph nesting search} {nesting' nesting'' : ℕ → List String}
  {search' search'' : FrameSearch} {curr : ℕ} {passed : ControlFlowInfo} {edge : Edge}

theorem SearchGrows.refl : SearchGrows nesting search nesting search :=
  ⟨fun _ hseen => hseen, fun _ _ => rfl, fun _ hseen => .inl hseen, fun _ hready => hready⟩

theorem SearchGrows.trans (hfirst : SearchGrows nesting search nesting' search')
    (hsecond : SearchGrows nesting' search' nesting'' search'') :
    SearchGrows nesting search nesting'' search'' where
  seen n hseen := hsecond.seen n (hfirst.seen n hseen)
  nesting_eq n hseen :=
    (hsecond.nesting_eq n (hfirst.seen n hseen)).trans (hfirst.nesting_eq n hseen)
  new n hseen := (hsecond.new n hseen).elim
    (fun hseen => (hfirst.new n hseen).imp_right (hsecond.ready n)) .inr
  ready n hready := hsecond.ready n (hfirst.ready n hready)

theorem StandsFor.grow {info : ControlFlowInfo} {frames : List String}
    (hstands : StandsFor nesting search info frames)
    (hgrows : SearchGrows nesting search nesting' search') :
    StandsFor nesting' search' info frames := by
  obtain ⟨frame, parent, heq, hframe, hparent, hframe_eq, hparent_eq⟩ := hstands
  exact ⟨frame, parent, heq, hgrows.seen _ hframe, hgrows.seen _ hparent,
    (hgrows.nesting_eq _ hframe).trans hframe_eq,
    (hgrows.nesting_eq _ hparent).trans hparent_eq⟩

namespace Framed

theorem parentInfo_eq (hframed : Framed graph nesting search) {info : ControlFlowInfo}
    {frames : List String} (hstands : StandsFor nesting search info frames) :
    ∃ parent, parentInfo search.info info = .ok parent ∧
      StandsFor nesting search parent frames.tail := by
  obtain ⟨frame, parent, rfl, -, hparent, -, hparent_eq⟩ := hstands
  obtain ⟨info, hinfo, hstands⟩ := hframed.placed parent hparent
  rw [hparent_eq] at hstands
  exact ⟨info, deref_eq_ok.mpr hinfo, hstands⟩

theorem passedOn_eq (hframed : Framed graph nesting search) (hseen : Seen search curr) :
    ∃ passed, passedOn graph search.info curr = .ok passed ∧
      StandsFor nesting search passed (outNesting graph nesting curr) := by
  obtain ⟨node, hnode⟩ := Option.isSome_iff_exists.mp (hframed.reached curr hseen).isSome
  obtain ⟨info, hinfo, hstands⟩ := hframed.placed curr hseen
  rw [passedOn, hnode, hinfo, outNesting]
  simp only [deref, Except.bind, classOf_eq_iff hnode]
  split_ifs
  · exact hframed.parentInfo_eq hstands
  · exact ⟨info, rfl, hstands⟩

/-- The name at a node that was seen is that of its nesting, without what an enter adds. -/
theorem comparedName_eq (hframed : Framed graph nesting search) {n : ℕ} {node : Node}
    {info : ControlFlowInfo} (hseen : Seen search n) (hnode : graph.node n = some node)
    (hinfo : search.info[n]? = some info) :
    comparedName search.info node info = .ok (topName
      (if classOf graph n = some .enter then (nesting n).tail else nesting n)) := by
  obtain ⟨info', hinfo', hstands⟩ := hframed.placed n hseen
  obtain rfl : info' = info := Option.some.inj (hinfo'.symm.trans hinfo)
  simp only [comparedName, classOf_eq_iff hnode]
  split_ifs
  · obtain ⟨parent, hparent, _, _, rfl, -⟩ := hframed.parentInfo_eq hstands
    rw [hparent]
    rfl
  · obtain ⟨_, _, rfl, -⟩ := hstands
    rfl

end Framed

theorem firstInfo_eq_ok {n : ℕ} {node : Node} {info : ControlFlowInfo} :
    firstInfo n node passed = .ok info ↔
      (node.nodeClass = .enter ∧ ∃ name, node.frameName = some name ∧ name ≠ "" ∧
        info = ⟨some n, passed.frame, name⟩) ∨ (node.nodeClass ≠ .enter ∧ info = passed) := by
  rw [firstInfo]
  by_cases henter : node.nodeClass = .enter
  · cases hname : node.frameName with
    | none => simp [henter]
    | some name => by_cases hempty : name = "" <;> simp [henter, hempty, eq_comm]
  · simp [henter, eq_comm]

/-- The nesting of an input, read off that of the node. -/
theorem outer_eq (n : ℕ) (outer : List String) :
    (if classOf graph n = some .enter then (nestedIn graph n outer).tail
      else nestedIn graph n outer) = outer := by
  rw [nestedIn]
  split_ifs <;> rfl

section Enter

variable (info : ControlFlowInfo) (curr : ℕ) (hfirst : search.parentNodes[edge.dst]? = some none)
include hfirst

theorem seen_enter {n : ℕ} :
    Seen ⟨search.info.set edge.dst info, search.parentNodes.set edge.dst (some curr),
      search.ready ++ [edge.dst]⟩ n ↔ Seen search n ∨ n = edge.dst := by
  have hlt := (List.getElem?_eq_some_iff.mp hfirst).1
  by_cases heq : edge.dst = n
  · subst heq
    refine iff_of_true (.inr ⟨curr, List.getElem?_set_self hlt⟩) (.inr rfl)
  · rw [or_iff_left (Ne.symm heq), Seen, List.getElem?_set_ne heq]
    rfl

theorem not_seen_dst (hop : isOp edge.dst = true) : ¬ Seen search edge.dst := by
  rintro (hsource | ⟨parent, hparent⟩)
  · rw [hsource] at hop
    cases hop
  · cases hfirst.symm.trans hparent

theorem grows_enter (nesting : ℕ → List String) (hop : isOp edge.dst = true)
    (frames : List String) :
    SearchGrows nesting search (Function.update nesting edge.dst frames)
      ⟨search.info.set edge.dst info, search.parentNodes.set edge.dst (some curr),
        search.ready ++ [edge.dst]⟩ where
  seen _ hseen := (seen_enter _ _ hfirst).mpr (.inl hseen)
  nesting_eq n hseen := Function.update_of_ne
    (fun heq : n = edge.dst => not_seen_dst hfirst hop (heq ▸ hseen)) _ _
  new _ hseen := ((seen_enter _ _ hfirst).mp hseen).imp_right fun heq =>
    List.mem_append_right _ (List.mem_singleton.mpr heq)
  ready _ hready := List.mem_append_left _ hready

end Enter

/-- What a new node is assigned stands for its nesting. -/
theorem StandsFor.enter {node : Node} {info : ControlFlowInfo} {outer : List String}
    (hstands : StandsFor nesting search passed outer) (hop : isOp edge.dst = true)
    (hnode : graph.node edge.dst = some node)
    (hfirst : search.parentNodes[edge.dst]? = some none)
    (hinfo : firstInfo edge.dst node passed = .ok info) :
    StandsFor (Function.update nesting edge.dst (nestedIn graph edge.dst outer))
      ⟨search.info.set edge.dst info, search.parentNodes.set edge.dst (some curr),
        search.ready ++ [edge.dst]⟩ info (nestedIn graph edge.dst outer) := by
  have hgrows := grows_enter info curr hfirst nesting hop
    (nestedIn graph edge.dst outer)
  have hstands' := hstands.grow hgrows
  rcases firstInfo_eq_ok.mp hinfo with ⟨henter, name, hname, hne, rfl⟩ | ⟨hother, rfl⟩
  · obtain ⟨frame, parent, rfl, hframe, -, hframe_eq, -⟩ := hstands'
    have hnested : nestedIn graph edge.dst outer = name :: outer := by
      rw [nestedIn, if_pos ((classOf_eq_iff hnode).mpr henter), ownName, hnode, Option.bind_some,
        hname, Option.getD_some]
    rw [hnested] at hframe_eq ⊢
    exact ⟨edge.dst, frame, rfl, (seen_enter _ _ hfirst).mpr (.inr rfl), hframe,
      Function.update_self .., hframe_eq⟩
  · have hnested : nestedIn graph edge.dst outer = outer :=
      if_neg fun henter => hother ((classOf_eq_iff hnode).mp henter)
    rw [hnested] at hstands' ⊢
    exact hstands'

namespace Framed

section

variable (hframed : Framed graph nesting search) (hcurr : Seen search curr)
  (hstands : StandsFor nesting search passed (outNesting graph nesting curr))

include hframed hcurr hstands

theorem enter (hedge : edge ∈ graph.outEdges curr) {node : Node} {info : ControlFlowInfo}
    (hop : isOp edge.dst = true) (hnode : graph.node edge.dst = some node)
    (hfirst : search.parentNodes[edge.dst]? = some none)
    (hinfo : firstInfo edge.dst node passed = .ok info) :
    Framed graph
      (Function.update nesting edge.dst
        (nestedIn graph edge.dst (outNesting graph nesting curr)))
      ⟨search.info.set edge.dst info, search.parentNodes.set edge.dst (some curr),
        search.ready ++ [edge.dst]⟩ := by
  have hgrows := grows_enter info curr hfirst nesting hop
    (nestedIn graph edge.dst (outNesting graph nesting curr))
  have hseen : ∀ {n}, Seen _ n ↔ Seen search n ∨ n = edge.dst :=
    seen_enter info curr hfirst
  have hnot := not_seen_dst hfirst hop
  have hne : ∀ {n}, Seen search n → n ≠ edge.dst := fun hn heq => hnot (heq ▸ hn)
  have hlt : edge.dst < search.info.length := by
    rw [hframed.info_length, ← hframed.parent_length]
    exact (List.getElem?_eq_some_iff.mp hfirst).1
  have hleads : LeadsToOp graph curr edge.dst := ⟨hop, edge, hedge, rfl⟩
  have hdst : Function.update nesting edge.dst
      (nestedIn graph edge.dst (outNesting graph nesting curr)) edge.dst =
        nestedIn graph edge.dst (outNesting graph nesting curr) := Function.update_self ..
  refine ⟨?_, ?_, ?_, ?_, ?_, ?_, ?_, ?_, ?_, ?_, ?_⟩
  · rw [List.length_set, hframed.info_length]
  · rw [List.length_set, hframed.parent_length]
  · rw [hgrows.nesting_eq 0 (.inl rfl), hframed.source_eq]
  · intro n hn
    rcases hseen.mp hn with hn | rfl
    · obtain ⟨info', hinfo', hstands'⟩ := hframed.placed n hn
      rw [List.getElem?_set_ne (hne hn).symm, hgrows.nesting_eq n hn]
      exact ⟨info', hinfo', hstands'.grow hgrows⟩
    · rw [List.getElem?_set_self hlt, hdst]
      exact ⟨info, rfl, hstands.enter hop hnode hfirst hinfo⟩
  · intro n hn hunseen
    rw [hseen, not_or] at hunseen
    rw [List.getElem?_set_ne (Ne.symm hunseen.2)]
    exact hframed.unseen n hn hunseen.1
  · intro n hn
    rcases hseen.mp hn with hn | rfl
    · exact hframed.reached n hn
    · exact (hframed.reached curr hcurr).tail hleads
  · intro n hn
    rcases hseen.mp hn with hn | rfl
    · exact hframed.isOp_of_seen n hn
    · exact .inr hop
  · intro n hn hopn henter
    rcases hseen.mp hn with hn | rfl
    · rw [hgrows.nesting_eq n hn]
      exact hframed.entered n hn hopn henter
    · obtain ⟨-, name, hname, -, -⟩ := (firstInfo_eq_ok.mp hinfo).resolve_right fun hother =>
        hother.1 ((classOf_eq_iff hnode).mp henter)
      have hown : ownName graph edge.dst = some name := by
        rw [ownName, hnode, Option.bind_some, hname]
      rw [hdst, nestedIn, if_pos henter, hown]
      exact ⟨name, rfl, rfl⟩
  · intro n hn
    rcases hseen.mp hn with hn | rfl
    · rw [hgrows.nesting_eq n hn]
      exact hframed.named n hn
    · obtain ⟨frame, _, -, hframe, -, hframe_eq, -⟩ := hstands
      have houter := hframed.named frame hframe
      rw [hframe_eq] at houter
      rw [hdst, nestedIn]
      rcases firstInfo_eq_ok.mp hinfo with ⟨henter, name, hname, hempty, -⟩ | ⟨hother, -⟩
      · rw [if_pos ((classOf_eq_iff hnode).mpr henter), ownName, hnode, Option.bind_some, hname]
        exact fun hmem => (List.mem_cons.mp hmem).elim (Ne.symm hempty) houter
      · rwa [if_neg fun henter => hother ((classOf_eq_iff hnode).mp henter)]
  · intro n hn
    refine hseen.mpr ((List.mem_append.mp hn).imp (hframed.ready n) List.mem_singleton.mp)
  · intro nesting' hnests n hn
    rcases hseen.mp hn with hn | rfl
    · rw [hgrows.nesting_eq n hn]
      exact hframed.unique nesting' hnests n hn
    · rw [hdst, hnests.edge_eq curr _ (hframed.reached curr hcurr) hleads,
        outNesting_congr (hframed.unique nesting' hnests curr hcurr)]

/-- One edge: the nesting of a new node is that of the edge. -/
theorem step (hedge : edge ∈ graph.outEdges curr)
    (hstep : EdgeStep graph curr passed search edge search') :
    ∃ nesting', Framed graph nesting' search' ∧ SearchGrows nesting search nesting' search' ∧
      (isOp edge.dst = true →
        Seen search' edge.dst ∧ AgreesByName graph nesting' curr edge.dst) := by
  cases hstep with
  | skip hop => exact ⟨nesting, hframed, .refl, fun hop' => by cases hop.symm.trans hop'⟩
  | compare hop node info first hnode hinfo hfirst hname =>
      have hseen : Seen search edge.dst := .inr ⟨first, hfirst⟩
      refine ⟨nesting, hframed, .refl, fun _ => ⟨hseen, ?_⟩⟩
      rw [hframed.comparedName_eq hseen hnode hinfo, Except.ok.injEq] at hname
      obtain ⟨_, _, rfl, -⟩ := hstands
      exact hname
  | enter hop node info info' hnode hinfo hfirst hinfo' =>
      have hgrows := grows_enter info' curr hfirst nesting hop
        (nestedIn graph edge.dst (outNesting graph nesting curr))
      refine ⟨_, hframed.enter hcurr hstands hedge hop hnode hfirst hinfo', hgrows, fun _ =>
        ⟨(seen_enter _ _ hfirst).mpr (.inr rfl), ?_⟩⟩
      rw [AgreesByName, Function.update_self, outer_eq,
        outNesting_congr (hgrows.nesting_eq curr hcurr)]

/-- In a graph with a nesting no edge gives an error. -/
theorem progress (hedge : edge ∈ graph.outEdges curr) (hnests : Nests graph nesting') :
    ∃ search', EdgeStep graph curr passed search edge search' := by
  cases hop : isOp edge.dst with
  | false => exact ⟨search, .skip hop⟩
  | true =>
      obtain ⟨node, hnode⟩ := Option.isSome_iff_exists.mp (graph.dst_isSome curr edge hedge)
      have hlt : edge.dst < graph.numNodeIds := graph.lt_of_isSome _ (hnode ▸ rfl)
      have hinfo := List.getElem?_eq_getElem (hframed.info_length ▸ hlt)
      have hleads : LeadsToOp graph curr edge.dst := ⟨hop, edge, hedge, rfl⟩
      have hreached := hframed.reached curr hcurr
      cases hparent : search.parentNodes[edge.dst]? with
      | none =>
          rw [List.getElem?_eq_none_iff, hframed.parent_length] at hparent
          exact absurd hlt (not_lt.mpr hparent)
      | some parentNode =>
          cases parentNode with
          | none =>
              have hok : ∃ info, firstInfo edge.dst node passed = .ok info := by
                by_cases henter : node.nodeClass = .enter
                · obtain ⟨name, hname, hempty⟩ := hnests.named edge.dst (hreached.tail hleads) hop
                    ((classOf_eq_iff hnode).mpr henter)
                  rw [ownName, hnode, Option.bind_some] at hname
                  exact ⟨_, firstInfo_eq_ok.mpr (.inl ⟨henter, name, hname, hempty, rfl⟩)⟩
                · exact ⟨_, firstInfo_eq_ok.mpr (.inr ⟨henter, rfl⟩)⟩
              obtain ⟨info, hok⟩ := hok
              exact ⟨_, .enter hop node _ info hnode hinfo hparent hok⟩
          | some first =>
              have hseen : Seen search edge.dst := .inr ⟨first, hparent⟩
              refine ⟨search, .compare hop node _ first hnode hinfo hparent ?_⟩
              obtain ⟨_, _, rfl, -⟩ := hstands
              rw [hframed.comparedName_eq hseen hnode hinfo,
                hframed.unique nesting' hnests edge.dst hseen,
                hnests.edge_eq curr _ hreached hleads, outer_eq,
                outNesting_congr (hframed.unique nesting' hnests curr hcurr)]

/-- All edges of a node. -/
theorem edges {edges : List Edge} (hedges : ∀ edge ∈ edges, edge ∈ graph.outEdges curr) :
    (∀ search', edges.foldlM (processEdge graph curr passed) search = .ok search' →
      ∃ nesting', Framed graph nesting' search' ∧ SearchGrows nesting search nesting' search' ∧
        ∀ edge ∈ edges, isOp edge.dst = true →
          Seen search' edge.dst ∧ AgreesByName graph nesting' curr edge.dst) ∧
    ∀ nesting', Nests graph nesting' →
      ∃ search', edges.foldlM (processEdge graph curr passed) search = .ok search' := by
  induction edges generalizing nesting search with
  | nil =>
      refine ⟨fun search' hok => ?_, fun _ _ => ⟨search, rfl⟩⟩
      cases hok
      exact ⟨nesting, hframed, .refl, fun _ hedge => absurd hedge List.not_mem_nil⟩
  | cons edge edges ih =>
      obtain ⟨hedge, hedges⟩ := List.forall_mem_cons.mp hedges
      -- the edges behind the first one, from what the first one leads to
      have hrest : ∀ middle nesting', Framed graph nesting' middle →
          SearchGrows nesting search nesting' middle → _ := fun middle nesting' hframed' hgrows =>
        ih hframed' (hgrows.seen curr hcurr)
          (by
            rw [outNesting_congr (hgrows.nesting_eq curr hcurr)]
            exact hstands.grow hgrows) hedges
      constructor
      · intro search' hok
        rw [List.foldlM_cons] at hok
        obtain ⟨middle, hfirst, hok⟩ := bind_eq_ok.mp hok
        obtain ⟨nesting', hframed', hgrows, hagrees⟩ :=
          hframed.step hcurr hstands hedge (processEdge_eq_ok.mp hfirst)
        obtain ⟨nesting'', hframed'', hgrows', hagrees'⟩ :=
          (hrest middle nesting' hframed' hgrows).1 search' hok
        refine ⟨nesting'', hframed'', hgrows.trans hgrows',
          List.forall_mem_cons.mpr ⟨fun hop => ?_, hagrees'⟩⟩
        obtain ⟨hseen, hagrees⟩ := hagrees hop
        exact ⟨hgrows'.seen _ hseen, hagrees.congr
          (hgrows'.nesting_eq _ (hgrows.seen curr hcurr)) (hgrows'.nesting_eq _ hseen)⟩
      · intro nests hnests
        obtain ⟨middle, hfirst⟩ := hframed.progress hcurr hstands hedge hnests
        obtain ⟨nesting', hframed', hgrows, -⟩ := hframed.step hcurr hstands hedge hfirst
        obtain ⟨search', hok⟩ := (hrest middle nesting' hframed' hgrows).2 nests hnests
        refine ⟨search', ?_⟩
        rw [List.foldlM_cons]
        exact bind_eq_ok.mpr ⟨middle, processEdge_eq_ok.mpr hfirst, hok⟩

end

/-- One node. -/
theorem node (hframed : Framed graph nesting search) (hcompared : Compared graph nesting search)
    {ready : List ℕ} (hready : search.ready = curr :: ready) :
    (∀ search', processNode graph curr { search with ready := ready } = .ok search' →
      ∃ nesting', Framed graph nesting' search' ∧ Compared graph nesting' search') ∧
    ∀ nesting', Nests graph nesting' →
      ∃ search', processNode graph curr { search with ready := ready } = .ok search' := by
  have hcurr : Seen search curr := hframed.ready curr (hready ▸ List.mem_cons_self)
  have hpopped : Framed graph nesting { search with ready := ready } :=
    { hframed with
      ready := fun n hn => hframed.ready n (hready ▸ List.mem_cons_of_mem curr hn) }
  obtain ⟨passed, hpassed, hstands⟩ := hpopped.passedOn_eq hcurr
  obtain ⟨hrun, hok⟩ := hpopped.edges hcurr hstands
    (show ∀ edge ∈ graph.outEdges curr, edge ∈ graph.outEdges curr from fun _ hedge => hedge)
  constructor
  · intro search' hprocess
    obtain ⟨passed', hpassed', hedges⟩ := bind_eq_ok.mp hprocess
    obtain rfl : passed = passed' := Except.ok.inj (hpassed.symm.trans hpassed')
    obtain ⟨nesting', hframed', hgrows, hagrees⟩ := hrun search' hedges
    refine ⟨nesting', hframed', fun n hn hnot m hleads => ?_⟩
    have hseen : Seen search n := (hgrows.new n hn).resolve_right hnot
    by_cases heq : n = curr
    · subst heq
      obtain ⟨hop, edge, hedge, rfl⟩ := hleads
      exact hagrees edge hedge hop
    · have hwaiting : n ∉ search.ready := by
        rw [hready]
        exact fun hmem => (List.mem_cons.mp hmem).elim heq fun hmem => hnot (hgrows.ready n hmem)
      obtain ⟨hm, hbyName⟩ := hcompared n hseen hwaiting m hleads
      exact ⟨hgrows.seen m hm,
        hbyName.congr (hgrows.nesting_eq n hseen) (hgrows.nesting_eq m hm)⟩
  · intro nests hnests
    obtain ⟨search', hsearch'⟩ := hok nests hnests
    exact ⟨search', bind_eq_ok.mpr ⟨passed, hpassed, hsearch'⟩⟩

end Framed

theorem frameLoop_nil (hready : search.ready = []) : frameLoop graph search = .ok search := by
  rw [frameLoop]
  split
  · rfl
  · next hcons => cases hready.symm.trans hcons

theorem frameLoop_cons {ready : List ℕ} (hready : search.ready = curr :: ready) :
    frameLoop graph search =
      (processNode graph curr { search with ready := ready }).bind (frameLoop graph) := by
  rw [frameLoop]
  split
  · next hnil => cases hready.symm.trans hnil
  · next curr' ready' hcons =>
      obtain ⟨rfl, rfl⟩ := List.cons.inj (hready.symm.trans hcons)
      split
      · next herror => rw [herror]; rfl
      · next hok => rw [hok]; rfl

/-- The whole search, and that it gives no error in a graph with a nesting. -/
theorem frameLoop_spec (hframed : Framed graph nesting search)
    (hcompared : Compared graph nesting search) :
    (∀ search', frameLoop graph search = .ok search' →
      ∃ nesting', Framed graph nesting' search' ∧ Compared graph nesting' search' ∧
        search'.ready = []) ∧
    ∀ nesting', Nests graph nesting' → ∃ search', frameLoop graph search = .ok search' := by
  induction search using frameLoop.induct graph generalizing nesting with
  | case1 search hready =>
      refine ⟨fun search' hok => ?_, fun _ _ => ⟨search, frameLoop_nil hready⟩⟩
      rw [frameLoop_nil hready] at hok
      cases hok
      exact ⟨nesting, hframed, hcompared, hready⟩
  | case2 search curr ready hready error herror =>
      obtain ⟨-, hprogress⟩ := hframed.node hcompared hready
      rw [frameLoop_cons hready, herror]
      refine ⟨fun search' hok => ?_, fun nests hnests => ?_⟩
      · cases hok
      · obtain ⟨search', hok⟩ := hprogress nests hnests
        cases herror.symm.trans hok
  | case3 search curr ready hready search' hok ih =>
      obtain ⟨hrun, -⟩ := hframed.node hcompared hready
      obtain ⟨nesting', hframed', hcompared'⟩ := hrun search' hok
      rw [frameLoop_cons hready, hok]
      exact ih hframed' hcompared'

theorem framed_start : Framed graph (fun _ => []) (startSearch graph) := by
  have hseen : ∀ {n}, Seen (startSearch graph) n ↔ n = 0 := by
    intro n
    refine or_iff_left ?_
    rintro ⟨parent, hparent⟩
    have hmem := List.mem_of_getElem? hparent
    cases (List.mem_replicate.mp hmem).2
  have hlt : 0 < graph.numNodeIds := graph.lt_of_isSome 0 graph.source_isSome
  have hsource : (startSearch graph).info[0]? = some ⟨some 0, some 0, ""⟩ :=
    List.getElem?_set_self (by rwa [List.length_replicate])
  refine ⟨?_, List.length_replicate, rfl, ?_, ?_, ?_, ?_, ?_, ?_, ?_, ?_⟩
  · rw [startSearch, List.length_set, List.length_replicate]
  · intro n hn
    obtain rfl := hseen.mp hn
    exact ⟨_, hsource, 0, 0, rfl, .inl rfl, .inl rfl, rfl, rfl⟩
  · intro n hn hunseen
    rw [startSearch, List.getElem?_set_ne (Ne.symm (mt hseen.mpr hunseen)),
      List.getElem?_replicate, if_pos hn]
  · exact fun n hn => hseen.mp hn ▸ .refl
  · exact fun n hn => .inl (hseen.mp hn)
  · rintro n hn hop -
    obtain rfl := hseen.mp hn
    cases hop
  · exact fun _ _ => List.not_mem_nil
  · exact fun n hn => hseen.mpr (List.mem_singleton.mp hn)
  · intro nesting' hnests n hn
    obtain rfl := hseen.mp hn
    exact hnests.source_eq.symm

theorem compared_start : Compared graph (fun _ => []) (startSearch graph) := by
  rintro n (rfl | ⟨parent, hparent⟩) hnot
  · exact absurd List.mem_cons_self hnot
  · have hmem := List.mem_of_getElem? hparent
    cases (List.mem_replicate.mp hmem).2

theorem seen_iff_reached (hframed : Framed graph nesting search)
    (hcompared : Compared graph nesting search) (hready : search.ready = []) {n : ℕ} :
    Seen search n ↔ ReachedOp graph n := by
  refine ⟨hframed.reached n, fun hreached => ?_⟩
  induction hreached with
  | refl => exact .inl rfl
  | tail _ hleads ih =>
      exact (hcompared _ ih (hready ▸ List.not_mem_nil) _ hleads).1

end Search

/-! ## The second pass -/

section Validating

variable {graph graph' : Graph} {info info' : List ControlFlowInfo}
  {frames frames' : String → Frame}

theorem parent_of_validateLoopCond {frame frame' : Frame} {frameName : String} {n : ℕ} {node : Node}
    (hok : validateLoopCond graph frame frameName n node = .ok frame') :
    frame'.parent = frame.parent := by
  rw [validateLoopCond] at hok
  split_ifs at hok
  · split at hok
    · cases hok
      rfl
    · obtain ⟨other, -, hok⟩ := bind_eq_ok.mp hok
      split_ifs at hok
      cases hok
      rfl
  · cases hok
    rfl

/-- A node makes an entry for its frame, or its parent is that of the entry. -/
theorem validateNode_spec {n : ℕ} (hok : validateNode graph info frames n = .ok frames') :
    (∀ name, (frames name).parent ≠ none → (frames' name).parent = (frames name).parent) ∧
    ∀ cf parent, info[n]? = some cf → cf.frame ≠ none → parentInfo info cf = .ok parent →
      (frames' cf.frameName).parent = some parent.frameName := by
  obtain ⟨node, -, hok⟩ := bind_eq_ok.mp hok
  obtain ⟨cf, hcf, hok⟩ := bind_eq_ok.mp hok
  rw [deref_eq_ok] at hcf
  split_ifs at hok with hnull
  · cases hok
    refine ⟨fun _ _ => rfl, fun cf' parent hcf' hframe hparent => ?_⟩
    obtain rfl : cf = cf' := Option.some.inj (hcf.symm.trans hcf')
    rw [parentInfo, hnull.resolve_left hframe] at hparent
    cases hparent
  · obtain ⟨parent, hparent, hok⟩ := bind_eq_ok.mp hok
    have hentry : ∃ frame, frames' = Function.update frames cf.frameName frame ∧
        frame.parent = some parent.frameName ∧
        ((frames cf.frameName).parent ≠ none → frame.parent = (frames cf.frameName).parent) := by
      split at hok
      · next hnone =>
          obtain ⟨frame, hframe, rfl⟩ := map_eq_ok.mp hok
          have heq := parent_of_validateLoopCond hframe
          exact ⟨frame, rfl, heq, fun hsome => absurd hnone hsome⟩
      · next other hother =>
          split_ifs at hok with hsame
          obtain ⟨frame, hframe, rfl⟩ := map_eq_ok.mp hok
          have heq := parent_of_validateLoopCond hframe
          exact ⟨frame, rfl, by rw [heq, hother, hsame], fun _ => heq⟩
    obtain ⟨frame, rfl, hnew, hold⟩ := hentry
    refine ⟨fun name hname => ?_, fun cf' parent' hcf' _ hparent' => ?_⟩
    · by_cases heq : name = cf.frameName
      · rw [heq] at hname ⊢
        rw [Function.update_self]
        exact hold hname
      · rw [Function.update_of_ne heq]
    · obtain rfl : cf = cf' := Option.some.inj (hcf.symm.trans hcf')
      obtain rfl : parent = parent' := Except.ok.inj (hparent.symm.trans hparent')
      rw [Function.update_self]
      exact hnew

theorem validateNodes_spec {nodes : List ℕ}
    (hok : nodes.foldlM (validateNode graph info) frames = .ok frames') :
    (∀ name, (frames name).parent ≠ none → (frames' name).parent = (frames name).parent) ∧
    ∀ n ∈ nodes, ∀ cf parent, info[n]? = some cf → cf.frame ≠ none →
      parentInfo info cf = .ok parent →
        (frames' cf.frameName).parent = some parent.frameName := by
  induction nodes generalizing frames with
  | nil =>
      cases hok
      exact ⟨fun _ _ => rfl, fun n hn => absurd hn List.not_mem_nil⟩
  | cons n nodes ih =>
      rw [List.foldlM_cons] at hok
      obtain ⟨middle, hfirst, hok⟩ := bind_eq_ok.mp hok
      obtain ⟨hkept, hentry⟩ := validateNode_spec hfirst
      obtain ⟨hkept', hentries⟩ := ih hok
      refine ⟨fun name hname => ?_, List.forall_mem_cons.mpr ⟨?_, hentries⟩⟩
      · have heq := hkept name hname
        exact (hkept' name (heq ▸ hname)).trans heq
      · intro cf parent hcf hframe hparent
        have heq := hentry cf parent hcf hframe hparent
        exact (hkept' _ (heq ▸ Option.some_ne_none _)).trans heq

/-- Only whether there is a frame, its name and the name of its parent matter. -/
theorem validateNode_congr {n : ℕ} (hnode : graph'.node = graph.node)
    (hsame : (info[n]? = some default ∧ info'[n]? = some default) ∨
      ∃ cf cf' parent parent', info[n]? = some cf ∧ info'[n]? = some cf' ∧ cf.frame ≠ none ∧
        cf'.frame ≠ none ∧ parentInfo info cf = .ok parent ∧ parentInfo info' cf' = .ok parent' ∧
        cf'.frameName = cf.frameName ∧ parent'.frameName = parent.frameName) :
    validateNode graph' info' frames n = validateNode graph info frames n := by
  have hloopCond : validateLoopCond graph' = validateLoopCond graph := by
    funext frame frameName n node
    rw [validateLoopCond, validateLoopCond, hnode]
  rw [validateNode, validateNode, hnode, hloopCond]
  rcases hsame with ⟨hnull, hnull'⟩ |
    ⟨cf, cf', parent, parent', hcf, hcf', hframe, hframe', hparent, hparent', hname, hparentName⟩
  · rw [hnull, hnull']
    rfl
  · have hsome : ¬(cf.frame = none ∨ cf.parentFrame = none) := by
      rintro (hnone | hnone)
      · exact hframe hnone
      · rw [parentInfo, hnone] at hparent
        cases hparent
    have hsome' : ¬(cf'.frame = none ∨ cf'.parentFrame = none) := by
      rintro (hnone | hnone)
      · exact hframe' hnone
      · rw [parentInfo, hnone] at hparent'
        cases hparent'
    rw [hcf, hcf']
    simp only [deref, Except.bind, if_neg hsome, if_neg hsome', hparent, hparent', hname,
      hparentName]

end Validating

/-! ## Both passes -/

section Frames

variable {graph graph' : Graph} {nesting nesting' : ℕ → List String} {search search' : FrameSearch}
  {n m : ℕ}

theorem mem_opNodes : n ∈ graph.opNodes ↔ isOp n = true ∧ (graph.node n).isSome := by
  rw [Graph.opNodes, List.mem_filter, List.mem_range, Bool.and_eq_true]
  exact ⟨And.right, fun hop => ⟨graph.lt_of_isSome n hop.2, hop⟩⟩

theorem eq_nil_of_topName {frames : List String} (hnamed : "" ∉ frames)
    (htop : topName frames = "") : frames = [] := by
  cases frames with
  | nil => rfl
  | cons name frames =>
      obtain rfl : name = "" := htop
      exact absurd List.mem_cons_self hnamed

/-- What the second pass sees of a node. -/
theorem Framed.names (hframed : Framed graph nesting search) (hseen : Seen search n) :
    ∃ cf parent, search.info[n]? = some cf ∧ cf.frame ≠ none ∧
      parentInfo search.info cf = .ok parent ∧ cf.frameName = topName (nesting n) ∧
        parent.frameName = topName (nesting n).tail := by
  obtain ⟨cf, hcf, hstands⟩ := hframed.placed n hseen
  obtain ⟨parent, hparent, _, _, rfl, -⟩ := hframed.parentInfo_eq hstands
  obtain ⟨_, _, rfl, -⟩ := hstands
  exact ⟨_, _, hcf, Option.some_ne_none _, hparent, rfl, rfl⟩

theorem Framed.eq_of_topName (hframed : Framed graph nesting search) {frames : String → Frame}
    (hok : validateControlFlowInfo graph search.info = .ok frames) (hn : Seen search n)
    (hm : Seen search m) (htop : topName (nesting n) = topName (nesting m)) :
    nesting n = nesting m := by
  have hentry : ∀ n, Seen search n → topName (nesting n) ≠ "" →
      (frames (topName (nesting n))).parent = some (topName (nesting n).tail) := by
    intro n hn htop
    have hop : isOp n = true := by
      refine (hframed.isOp_of_seen n hn).resolve_left fun hsource => htop ?_
      rw [hsource, hframed.source_eq]
      rfl
    obtain ⟨cf, parent, hcf, hframe, hparent, hname, hparentName⟩ := hframed.names hn
    have hmem := mem_opNodes.mpr ⟨hop, (hframed.reached n hn).isSome⟩
    rw [← hname, ← hparentName]
    exact (validateNodes_spec hok).2 n hmem cf parent hcf hframe hparent
  refine @stack_eq_of_top_eq _ (fun frames => ∃ k, Seen search k ∧ nesting k = frames) ""
    (fun frames => ?_) (fun frames => ?_) (fun frames frames' => ?_) _ _ ⟨n, hn, rfl⟩ ⟨m, hm, rfl⟩
    htop
  · rintro ⟨n, hn, rfl⟩
    obtain ⟨_, -, _, parent, -, -, hparent, -, heq⟩ := hframed.placed n hn
    exact ⟨parent, hparent, heq⟩
  · rintro ⟨n, hn, rfl⟩
    exact hframed.named n hn
  · rintro ⟨n, hn, rfl⟩ ⟨m, hm, rfl⟩ htop
    by_cases hempty : topName (nesting n) = ""
    · rw [eq_nil_of_topName (hframed.named n hn) hempty,
        eq_nil_of_topName (hframed.named m hm) (htop.symm.trans hempty)]
    · have hn' := hentry n hn hempty
      rw [show topName (nesting n) = topName (nesting m) from htop] at hn' hempty
      exact Option.some.inj (hn'.symm.trans (hentry m hm hempty))

/-- **The two passes together**: the edges agree on nestings. -/
theorem Framed.nests (hframed : Framed graph nesting search)
    (hcompared : Compared graph nesting search) (hready : search.ready = [])
    {frames : String → Frame} (hok : validateControlFlowInfo graph search.info = .ok frames) :
    Nests graph nesting := by
  have hseen : ∀ {n}, Seen search n ↔ ReachedOp graph n :=
    seen_iff_reached hframed hcompared hready
  have hinner : ∀ n, Seen search n →
      (∃ k, Seen search k ∧ nesting k = (nesting n).tail) ∧
      ∃ k, Seen search k ∧ nesting k = outNesting graph nesting n := by
    intro n hn
    obtain ⟨_, -, _, parent, -, -, hparent, -, heq⟩ := hframed.placed n hn
    refine ⟨⟨parent, hparent, heq⟩, ?_⟩
    rw [outNesting]
    split_ifs
    · exact ⟨parent, hparent, heq⟩
    · exact ⟨n, hn, rfl⟩
  refine ⟨hframed.source_eq, fun n m hn hleads => ?_, fun n hn hop henter => ?_⟩
  · have hn := hseen.mpr hn
    obtain ⟨hm, hagrees⟩ := hcompared n hn (hready ▸ List.not_mem_nil) m hleads
    obtain ⟨⟨below, hbelow, hbelow_eq⟩, -⟩ := hinner m hm
    obtain ⟨-, out, hout, hout_eq⟩ := hinner n hn
    rw [AgreesByName, ← hout_eq] at hagrees
    rw [nestedIn, ← hout_eq]
    split_ifs at hagrees ⊢ with henter
    · obtain ⟨name, hname, hnesting_eq⟩ := hframed.entered m hm hleads.1 henter
      rw [← hbelow_eq] at hagrees
      rw [hnesting_eq, hname, Option.getD_some, ← hbelow_eq,
        hframed.eq_of_topName hok hbelow hout hagrees]
    · exact hframed.eq_of_topName hok hm hout hagrees
  · have hn := hseen.mpr hn
    obtain ⟨name, hname, heq⟩ := hframed.entered n hn hop henter
    refine ⟨name, hname, fun hempty => hframed.named n hn ?_⟩
    rw [heq, hempty]
    exact List.mem_cons_self

/-! ## The order of the edges -/

theorem leadsToOp_iff (hsame : graph.SameEdges graph') :
    LeadsToOp graph' n m ↔ LeadsToOp graph n m := by
  simp only [LeadsToOp, (hsame.perm n).mem_iff]

theorem reachedOp_iff (hsame : graph.SameEdges graph') :
    ReachedOp graph' n ↔ ReachedOp graph n := by
  have heq : LeadsToOp graph' = LeadsToOp graph :=
    funext fun _ => funext fun _ => propext (leadsToOp_iff hsame)
  rw [ReachedOp, ReachedOp, heq]

theorem Nests.sameEdges (hnests : Nests graph nesting) (hsame : graph.SameEdges graph') :
    Nests graph' nesting := by
  have hclass : classOf graph' = classOf graph := funext fun n => by
    rw [classOf, classOf, hsame.node_eq]
  have hown : ownName graph' = ownName graph := funext fun n => by
    rw [ownName, ownName, hsame.node_eq]
  refine ⟨hnests.source_eq, fun n m hn hleads => ?_, fun n hn hop henter => ?_⟩
  · rw [nestedIn, outNesting, hclass, hown]
    exact hnests.edge_eq n m ((reachedOp_iff hsame).mp hn) ((leadsToOp_iff hsame).mp hleads)
  · rw [hown]
    exact hnests.named n ((reachedOp_iff hsame).mp hn) hop (hclass ▸ henter)

/-- The second pass only sees nestings. -/
theorem validate_congr (hsame : graph.SameEdges graph') (hframed : Framed graph nesting search)
    (hframed' : Framed graph' nesting' search')
    (hseen : ∀ n, Seen search' n ↔ Seen search n)
    (hnesting : ∀ n, Seen search n → nesting' n = nesting n) :
    validateControlFlowInfo graph' search'.info = validateControlFlowInfo graph search.info := by
  have hopNodes : graph'.opNodes = graph.opNodes := by
    rw [Graph.opNodes, Graph.opNodes, hsame.numNodeIds_eq, hsame.node_eq]
  have hnode : validateNode graph' search'.info = validateNode graph search.info := by
    funext frames n
    by_cases hlt : n < graph.numNodeIds
    · refine validateNode_congr hsame.node_eq ?_
      by_cases hn : Seen search n
      · obtain ⟨cf, parent, hcf, hframe, hparent, hname, hparentName⟩ := hframed.names hn
        obtain ⟨cf', parent', hcf', hframe', hparent', hname', hparentName'⟩ :=
          hframed'.names ((hseen n).mpr hn)
        rw [hnesting n hn] at hname' hparentName'
        exact .inr ⟨cf, cf', parent, parent', hcf, hcf', hframe, hframe', hparent, hparent',
          hname'.trans hname.symm, hparentName'.trans hparentName.symm⟩
      · exact .inl ⟨hframed.unseen n hlt hn,
          hframed'.unseen n (hsame.numNodeIds_eq ▸ hlt) (mt (hseen n).mp hn)⟩
    · have hnone : graph.node n = none := by
        by_contra hsome
        exact hlt (graph.lt_of_isSome n (Option.isSome_iff_ne_none.mpr hsome))
      rw [validateNode, validateNode, hsame.node_eq, hnone]
      rfl
  rw [validateControlFlowInfo, validateControlFlowInfo, hopNodes, hnode]

/-! ## Names -/

section Names

variable (graph) (info : List ControlFlowInfo) (n : ℕ)

/-- The edges lead from the source to a node. Nothing depends on the sink. -/
def Reached : Prop :=
  ReflTransGen (fun n m => n ≠ 1 ∧ ∃ edge ∈ graph.outEdges n, edge.dst = m) 0 n

def frameNameOf : Option String := info[n]?.map ControlFlowInfo.frameName

def parentNameOf : Option String :=
  info[n]?.bind fun cf => cf.parentFrame.bind fun parent => frameNameOf info parent

/-- The frame of the outputs of a node: for an exit, the parent frame. -/
def outNameOf : Option String :=
  if classOf graph n = some .exit then parentNameOf info n else frameNameOf info n

end Names

theorem Reached.reachedOp (hreached : Reached graph n) (hop : isOp n = true) :
    ReachedOp graph n := by
  have hsink : n = 1 ∨ ReachedOp graph n := by
    clear hop
    induction hreached with
    | refl => exact .inr .refl
    | tail _ hedge ih =>
        obtain ⟨hne, edge, hedge, rfl⟩ := hedge
        have hsrc := ih.resolve_left hne
        cases hdst : isOp edge.dst with
        | true => exact .inr (hsrc.tail ⟨hdst, edge, hedge, rfl⟩)
        | false =>
            have hle : edge.dst ≤ 1 := not_lt.mp (of_decide_eq_false hdst)
            rcases Nat.le_one_iff_eq_zero_or_eq_one.mp hle with hzero | hone
            · exact .inr (hzero ▸ .refl)
            · exact .inl hone
  refine hsink.resolve_left fun heq => ?_
  rw [heq] at hop
  cases hop

theorem Framed.namesOf (hframed : Framed graph nesting search) (hseen : Seen search n) :
    frameNameOf search.info n = some (topName (nesting n)) ∧
    parentNameOf search.info n = some (topName (nesting n).tail) ∧
    outNameOf graph search.info n = some (topName (outNesting graph nesting n)) := by
  obtain ⟨cf, parent, hcf, -, hparent, hname, hparentName⟩ := hframed.names hseen
  have hframe : frameNameOf search.info n = some (topName (nesting n)) := by
    rw [frameNameOf, hcf, Option.map_some, hname]
  have hparentFrame : parentNameOf search.info n = some (topName (nesting n).tail) := by
    rw [parentInfo, deref_eq_ok] at hparent
    obtain ⟨parentId, hid, hinfo⟩ := Option.bind_eq_some_iff.mp hparent
    rw [parentNameOf, hcf, Option.bind_some, hid, Option.bind_some, frameNameOf, hinfo,
      Option.map_some, hparentName]
  refine ⟨hframe, hparentFrame, ?_⟩
  rw [outNameOf, outNesting]
  split_ifs
  · exact hparentFrame
  · exact hframe

theorem Framed.namesOf_unseen (hframed : Framed graph nesting search) (hunseen : ¬ Seen search n) :
    frameNameOf search.info n = (if n < graph.numNodeIds then some "" else none) ∧
      parentNameOf search.info n = none := by
  split_ifs with hlt
  · rw [frameNameOf, parentNameOf, hframed.unseen n hlt hunseen]
    exact ⟨rfl, rfl⟩
  · have hnone : search.info[n]? = none :=
      List.getElem?_eq_none (hframed.info_length ▸ not_lt.mp hlt)
    rw [frameNameOf, parentNameOf, hnone]
    exact ⟨rfl, rfl⟩

/-- A result without an error comes from a nesting. -/
theorem nesting_of_ok {info : List ControlFlowInfo} {unreachable : List String}
    (hok : buildControlFlowInfo graph = .ok (info, unreachable)) :
    ∃ nesting search frames, frameLoop graph (startSearch graph) = .ok search ∧
      search.info = info ∧ validateControlFlowInfo graph search.info = .ok frames ∧
      Framed graph nesting search ∧ (∀ n, Seen search n ↔ ReachedOp graph n) ∧
      Nests graph nesting := by
  obtain ⟨search, hsearch, hok⟩ := bind_eq_ok.mp hok
  obtain ⟨frames, hframes, heq⟩ := map_eq_ok.mp hok
  obtain ⟨nesting, hframed, hcompared, hready⟩ :=
    (frameLoop_spec framed_start compared_start).1 search hsearch
  exact ⟨nesting, search, frames, hsearch, (Prod.mk.inj heq).1, hframes, hframed,
    fun _ => seen_iff_reached hframed hcompared hready, hframed.nests hcompared hready hframes⟩

theorem sameEdges_ok (hsame : graph.SameEdges graph') {info : List ControlFlowInfo}
    {unreachable : List String} (hok : buildControlFlowInfo graph = .ok (info, unreachable)) :
    ∃ info' unreachable', buildControlFlowInfo graph' = .ok (info', unreachable') ∧
      ∀ n, frameNameOf info' n = frameNameOf info n ∧
        parentNameOf info' n = parentNameOf info n := by
  obtain ⟨nesting, search, frames, -, rfl, hframes, hframed, hseen, hnests⟩ := nesting_of_ok hok
  have hnests' := hnests.sameEdges hsame
  obtain ⟨hrun, hprogress⟩ := frameLoop_spec (framed_start : Framed graph' _ _) compared_start
  obtain ⟨search', hsearch'⟩ := hprogress nesting hnests'
  obtain ⟨nesting', hframed', hcompared', hready'⟩ := hrun search' hsearch'
  have hseen' : ∀ n, Seen search' n ↔ Seen search n := fun n =>
    (seen_iff_reached hframed' hcompared' hready').trans
    ((reachedOp_iff hsame).trans (hseen n).symm)
  have hnesting : ∀ n, Seen search n → nesting' n = nesting n := fun n hn =>
    hframed'.unique nesting hnests' n ((hseen' n).mpr hn)
  have hvalid := validate_congr hsame hframed hframed' hseen' hnesting
  refine ⟨search'.info, unreachableNodes graph' search', ?_, fun n => ?_⟩
  · exact bind_eq_ok.mpr ⟨search', hsearch', map_eq_ok.mpr ⟨frames, hvalid.trans hframes, rfl⟩⟩
  · by_cases hn : Seen search n
    · obtain ⟨hframe, hparent, -⟩ := hframed.namesOf hn
      obtain ⟨hframe', hparent', -⟩ := hframed'.namesOf ((hseen' n).mpr hn)
      rw [hframe, hframe', hparent, hparent', hnesting n hn]
      exact ⟨rfl, rfl⟩
    · obtain ⟨hframe, hparent⟩ := hframed.namesOf_unseen hn
      obtain ⟨hframe', hparent'⟩ := hframed'.namesOf_unseen (mt (hseen' n).mp hn)
      rw [hframe, hframe', hparent, hparent', hsame.numNodeIds_eq]
      exact ⟨rfl, rfl⟩

/-- **Frames are consistent**: every edge between reached operations leads to the frame that its
source passes on, or from it into that of an enter; one name has one parent name. Neither the
outcome nor the names depend on the order of the edges. -/
theorem frames_are_consistent (graph : Graph) :
    (∀ info unreachable, buildControlFlowInfo graph = .ok (info, unreachable) →
      (∀ n m, Reached graph n → isOp n = true → LeadsToOp graph n m →
        ∃ name, outNameOf graph info n = some name ∧
          if classOf graph m = some .enter then
            parentNameOf info m = some name ∧
              ∃ own, ownName graph m = some own ∧ frameNameOf info m = some own
          else frameNameOf info m = some name) ∧
      ∀ n m, Reached graph n → isOp n = true → Reached graph m → isOp m = true →
        frameNameOf info n = frameNameOf info m →
          ∃ name, parentNameOf info n = some name ∧ parentNameOf info m = some name) ∧
    ∀ graph', graph.SameEdges graph' →
      ((∃ result, buildControlFlowInfo graph' = .ok result) ↔
        ∃ result, buildControlFlowInfo graph = .ok result) ∧
      ∀ info unreachable info' unreachable',
        buildControlFlowInfo graph = .ok (info, unreachable) →
        buildControlFlowInfo graph' = .ok (info', unreachable') →
          ∀ n, frameNameOf info' n = frameNameOf info n ∧
            parentNameOf info' n = parentNameOf info n := by
  refine ⟨fun info unreachable hok => ?_, fun graph' hsame => ⟨⟨?_, ?_⟩, ?_⟩⟩
  · obtain ⟨nesting, search, frames, -, rfl, hframes, hframed, hseen, hnests⟩ := nesting_of_ok hok
    refine ⟨fun n m hn hop hleads => ?_, fun n m hn hopn hm hopm heq => ?_⟩
    · have hreached := hn.reachedOp hop
      obtain ⟨-, -, hout⟩ := hframed.namesOf ((hseen n).mpr hreached)
      have hm := (hseen m).mpr (hreached.tail hleads)
      obtain ⟨hframe, hparent, -⟩ := hframed.namesOf hm
      refine ⟨_, hout, ?_⟩
      rw [hframe, hparent, hnests.edge_eq n m hreached hleads, nestedIn]
      split_ifs with henter
      · obtain ⟨name, hname, -⟩ := hnests.named m (hreached.tail hleads) hleads.1 henter
        rw [hname]
        exact ⟨rfl, name, rfl, rfl⟩
      · rfl
    · have hn' := (hseen n).mpr (hn.reachedOp hopn)
      have hm' := (hseen m).mpr (hm.reachedOp hopm)
      obtain ⟨hframe, hparent, -⟩ := hframed.namesOf hn'
      obtain ⟨hframe', hparent', -⟩ := hframed.namesOf hm'
      rw [hframe, hframe', Option.some.injEq] at heq
      exact ⟨_, hparent, by rw [hparent', hframed.eq_of_topName hframes hm' hn' heq.symm]⟩
  · rintro ⟨⟨info', unreachable'⟩, hok'⟩
    obtain ⟨info, unreachable, hok, -⟩ := sameEdges_ok hsame.symm hok'
    exact ⟨_, hok⟩
  · rintro ⟨⟨info, unreachable⟩, hok⟩
    obtain ⟨info', unreachable', hok', -⟩ := sameEdges_ok hsame hok
    exact ⟨_, hok'⟩
  · intro info unreachable info' unreachable' hok hok'
    obtain ⟨info'', unreachable'', hok'', hnames⟩ := sameEdges_ok hsame hok
    obtain ⟨rfl, -⟩ := Prod.mk.inj (Except.ok.inj (hok''.symm.trans hok'))
    exact hnames

end Frames

end ContainerScheduler.Analysis
