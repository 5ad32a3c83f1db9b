/-
# Deadness does not depend on the schedule

Every edge that arrives carries what the recursive reference says, by induction over
the run: the source of an edge was tagged as the reference says, read the values of the
reference and put out what its kernel makes of them. The counters of dead inputs, from
which a node is tagged when it becomes ready, then count the dead edges of the
reference. A merge is tagged by its first live data input or by its last dead one; with
at most one live data input it reads the same values whichever comes first.
-/

import ContainerScheduler.Executor.Reference
import ContainerScheduler.Analysis.NodesProcessed

namespace ContainerScheduler.Analysis

open Executor Math

universe u v

variable {ν : Type u} {α : Type v} [DecidableEq ν] {graph : Graph ν}
  {kernel : ν → Entries α → Entries α}

/-! ## The tag of a ready node -/

section Tags

/-- The edges to a node that arrived dead. -/
def arrivedDead (node : ν) (arrived : List (Edge ν × Bool)) : ℕ :=
  arrived.countP fun arrival => arrival.1.dst = node ∧ arrival.2

theorem arrivedDead_concat (node : ν) (arrived : List (Edge ν × Bool)) (edge : Edge ν)
    (dead : Bool) : arrivedDead node (arrived ++ [(edge, dead)]) =
      arrivedDead node arrived + if edge.dst = node ∧ dead then 1 else 0 := by
  simp [arrivedDead, List.countP_cons]

variable (graph kernel)

/-- What arrived is dead as the reference says. -/
def ArrivedRight (arrived : List (Edge ν × Bool)) : Prop :=
  ∀ arrival ∈ arrived, arrival.2 = graph.edgeDead kernel arrival.1

variable {graph kernel} {iteration : IterationState ν α} {left : List (Edge ν)} {node : ν}

/-- An edge that arrived did so with the deadness of the reference. -/
theorem mem_arrived (hright : ArrivedRight graph kernel iteration.arrived) {edge : Edge ν}
    (harrived : edge ∈ iteration.arrived.map Prod.fst) :
    (edge, graph.edgeDead kernel edge) ∈ iteration.arrived := by
  obtain ⟨⟨arrived, dead⟩, hmem, rfl⟩ := List.mem_map.mp harrived
  rw [← hright _ hmem]
  exact hmem

theorem deadFrom_ordinary (hfits : Fits graph iteration left)
    (hright : ArrivedRight graph kernel iteration.arrived) (hkind : graph.kind node ≠ .merge)
    (hsink : graph.kind node ≠ .sink) (hready : IsReady graph iteration.arrived left node) :
    (graph.inEdges node).any (graph.edgeDead kernel) =
      decide (0 < arrivedDead node iteration.arrived) := by
  rw [Bool.eq_iff_iff, List.any_eq_true, decide_eq_true_eq, arrivedDead, List.countP_pos_iff]
  constructor
  · rintro ⟨edge, hedge, hdead⟩
    have harrived := (arrived_or_left hfits (fun h => absurd h hsink) hedge).resolve_right ?_
    · have hmem := mem_arrived hright harrived
      refine ⟨_, hmem, ?_⟩
      simp [hdead, (Graph.mem_inEdges.mp hedge).2]
    · intro hleft
      have hnone := List.countP_eq_zero.mp ((isReady_ordinary hkind).mp hready) edge hleft
      simp [(Graph.mem_inEdges.mp hedge).2] at hnone
  · rintro ⟨⟨edge, dead⟩, harrived, hat⟩
    simp only [decide_eq_true_eq] at hat
    obtain ⟨rfl, hdead⟩ := hat
    refine ⟨edge, Graph.mem_inEdges.mpr ⟨(mem_edges_of_arrived hfits harrived).1, rfl⟩, ?_⟩
    rw [← hright _ harrived]
    exact hdead

theorem deadFrom_merge (hfits : Fits graph iteration left)
    (hright : ArrivedRight graph kernel iteration.arrived) (hkind : graph.kind node = .merge)
    (hready : IsReady graph iteration.arrived left node) :
    graph.deadFrom (graph.edgeDead kernel) node =
      decide (arrivedData node false iteration.arrived = 0) := by
  have hsink : graph.kind node ≠ .sink := by simp [hkind]
  rw [Graph.deadFrom, hkind, Bool.eq_iff_iff, List.all_eq_true, decide_eq_true_eq, arrivedData,
    List.countP_eq_zero]
  constructor
  · rintro hall ⟨edge, dead⟩ harrived hat
    simp only [decide_eq_true_eq] at hat
    obtain ⟨rfl, hdata, rfl⟩ := hat
    have hdead := hall edge
      (Graph.mem_inEdges.mpr ⟨(mem_edges_of_arrived hfits harrived).1, rfl⟩)
    rw [hdata, Bool.false_or, ← hright _ harrived] at hdead
    cases hdead
  · intro hnone edge hedge
    cases hdata : edge.isControl with
    | true => rfl
    | false =>
        have hdst := (Graph.mem_inEdges.mp hedge).2
        have harrived := (arrived_or_left hfits (fun h => absurd h hsink) hedge).resolve_right ?_
        · have hmem := mem_arrived hright harrived
          have hnot := hnone _ hmem
          simpa [hdst, hdata] using hnot
        · intro hleft
          obtain ⟨-, hlive | hdone⟩ := (isReady_merge hkind).mp hready
          · exact hlive.ne' (List.countP_eq_zero.mpr hnone)
          · have hnot := List.countP_eq_zero.mp hdone edge hleft
            simp [hdst, hdata] at hnot

end Tags

/-! ## One edge -/

section Edge

variable {iteration : IterationState ν α} {edge : Edge ν} {left : List (Edge ν)} {isDead : Bool}
  {outputs : Entries α}

/-- The edges to a node, as they arrived or are left. -/
theorem inEdges_perm (hfits : Fits graph iteration left) {node : ν}
    (hsink : graph.kind node ≠ .sink) :
    (graph.inEdges node).Perm
      ((iteration.arrived.map Prod.fst ++ left).filter fun edge => edge.dst = node) := by
  refine List.Perm.trans (List.Perm.of_eq ?_) (hfits.edges.filter _).symm
  rw [Graph.inEdges, activatingEdges, List.filter_filter]
  refine List.filter_congr fun edge _ => ?_
  by_cases hdst : edge.dst = node
  · simp [hdst, hsink]
  · simp [hdst]

/-- The slot of a data edge that is left is fed by no edge that arrived. -/
theorem slot_unused (hfits : Fits graph iteration (edge :: left)) (hmem : edge ∈ graph.edges)
    (hsink : graph.kind edge.dst ≠ .sink) (hdata : edge.isControl = false) :
    ∀ other ∈ iteration.arrived.map Prod.fst, other.dst = edge.dst → other.isControl = false →
      other.inputSlot ≠ edge.inputSlot := by
  have hslots := (graph.slots edge.dst (graph.dst_mem edge hmem)).nodup_iff.mpr List.nodup_range
  have hperm := ((inEdges_perm hfits hsink).filter fun edge => edge.isControl = false).map
    Edge.inputSlot
  simp only [Graph.inEdges, List.filter_filter, List.filter_append, List.filter_cons, hdata,
    decide_true, if_true, List.map_append, List.map_cons] at hperm
  have hfilter : (graph.edges.filter fun other => other.dst = edge.dst ∧ other.isControl = false) =
      graph.edges.filter fun other =>
        decide (other.isControl = false) && decide (other.dst = edge.dst) :=
    List.filter_congr fun other _ => by simp [Bool.and_comm]
  rw [hfilter] at hslots
  have hnodup := (List.nodup_append.mp (hperm.nodup_iff.mp hslots)).2.2
  intro other hother hdst hat
  refine hnodup _ (List.mem_map_of_mem ?_) _ List.mem_cons_self
  simp only [List.mem_filter, Bool.and_eq_true, decide_eq_true_eq]
  exact ⟨hother, hat, hdst⟩

/-- Of the data inputs of a merge at most one arrives with a value. -/
theorem first_live (hmerge : graph.AtMostOneLive kernel)
    (hfits : Fits graph iteration (edge :: left))
    (hright : ArrivedRight graph kernel iteration.arrived) (hmem : edge ∈ graph.edges)
    (hkind : graph.kind edge.dst = .merge) (hdata : edge.isControl = false)
    (hlive : graph.edgeDead kernel edge = false) :
    arrivedData edge.dst false iteration.arrived = 0 := by
  have hle := hmerge edge.dst (graph.dst_mem edge hmem) hkind
  rw [(inEdges_perm hfits (by simp [hkind])).countP_eq, List.countP_filter, List.countP_append,
    List.countP_cons] at hle
  have harrived : arrivedData edge.dst false iteration.arrived =
      (iteration.arrived.map Prod.fst).countP fun other =>
        decide (other.isControl = false ∧ graph.edgeDead kernel other = false) &&
          decide (other.dst = edge.dst) := by
    rw [arrivedData, List.countP_map]
    refine List.countP_congr fun arrival harrival => ?_
    simp [← hright arrival harrival, and_comm]
  simp only [hdata, hlive, and_self, decide_true, Bool.and_self, if_true] at hle
  omega

omit [DecidableEq ν] in
/-- A dead node has nothing on its edges, so the flag with which an edge is counted says
whether it arrives dead. -/
theorem increment_eq (hdead : isDead = true → outputs = fun _ => none) :
    (isDead || (!edge.isControl && !(edge.carried outputs).isSome)) =
      edge.arrivesDead isDead outputs := by
  unfold Edge.arrivesDead
  cases hcontrol : edge.isControl with
  | true => simp
  | false =>
      cases hat : isDead with
      | false => simp
      | true => simp [hdead hat, Edge.carried]

theorem adjustForActivation_deadCount {counts : Counts} (hnotReady : counts.NotReady)
    (incrementDead : Bool) : (counts.adjustForActivation incrementDead).deadCount =
      counts.deadCount + if incrementDead then 1 else 0 := by
  cases incrementDead <;>
    simp [Counts.adjustForActivation, Counts.decrementPending, Counts.incrementDeadCount, hnotReady]

/-- With at most one live input, an edge sets an input unless it is a control edge or a
dead edge to a merge. -/
theorem arrivalOf_needInput (hfits : Fits graph iteration (edge :: left))
    (hfirst : graph.kind edge.dst = .merge → edge.isControl = false →
      (edge.carried outputs).isSome = true → arrivedData edge.dst false iteration.arrived = 0) :
    (arrivalOf graph iteration edge isDead outputs).needInput = true ↔
      edge.isControl = false ∧
        (graph.kind edge.dst ≠ .merge ∨ (edge.carried outputs).isSome = true) := by
  by_cases hkind : graph.kind edge.dst = .merge
  · have hpending := hfits.merge edge.dst hkind
    cases hcontrol : edge.isControl with
    | true => simp [arrivalOf, arrive, hkind, hcontrol]
    | false =>
        cases hvalue : (edge.carried outputs).isSome with
        | false => simp [arrivalOf, arrive, hkind, hcontrol, hvalue]
        | true =>
            rw [if_pos (hfirst hkind hcontrol hvalue)] at hpending
            simp [arrivalOf, arrive, hkind, hcontrol, hvalue, hpending]
  · simp [arrivalOf, arrive_ordinary _ _ _ _ _ _ hkind, hkind]

end Edge

/-! ## The loop -/

section Loop

variable (graph kernel)

/-- The iteration follows the reference: what arrived is dead as the reference says and
is counted so, and the inputs of the nodes that are not in `skip` are the values that
arrived. -/
structure Follows (skip : List ν) (iteration : IterationState ν α) (left : List (Edge ν)) :
    Prop where
  fits : Fits graph iteration left
  arrived : ArrivedRight graph kernel iteration.arrived
  deadCount : ∀ node, graph.kind node ≠ .merge → graph.kind node ≠ .sink →
    (iteration.counts node).deadCount = arrivedDead node iteration.arrived
  value : ∀ edge ∈ iteration.arrived.map Prod.fst, edge.isControl = false → edge.dst ∉ skip →
    iteration.inputTensors edge.dst edge.inputSlot = graph.edgeValue kernel edge
  empty : ∀ node ∉ skip, ∀ slot, (∀ edge ∈ iteration.arrived.map Prod.fst, edge.dst = node →
    edge.isControl = false → edge.inputSlot ≠ slot) → iteration.inputTensors node slot = none

variable {graph kernel} {iteration : IterationState ν α} {edge : Edge ν} {left : List (Edge ν)}
  {skip : List ν}

section

variable (hmerge : graph.AtMostOneLive kernel)
  (hfollows : Follows graph kernel skip iteration (edge :: left)) (hmem : edge ∈ graph.edges)
  (hsink : graph.kind edge.dst ≠ .sink)

include hmerge hfollows hmem hsink

/-- What a round writes into the inputs: the value on a data edge. Where it writes
nothing the slot is empty, and so is the edge. -/
theorem inputs_after (hskip : edge.dst ∉ skip) (hdata : edge.isControl = false) :
    (if (arrivalOf graph iteration edge (graph.referenceDead kernel edge.src)
        (graph.referenceOutputs kernel edge.src)).needInput then
      Function.update iteration.inputTensors edge.dst
        (Function.update (iteration.inputTensors edge.dst) edge.inputSlot
          (edge.carried (graph.referenceOutputs kernel edge.src)))
      else iteration.inputTensors) edge.dst =
    Function.update (iteration.inputTensors edge.dst) edge.inputSlot
      (graph.edgeValue kernel edge) := by
  have hneed := @arrivalOf_needInput ν α _ graph iteration edge left
    (graph.referenceDead kernel edge.src) (graph.referenceOutputs kernel edge.src) hfollows.fits
    fun hkind _ hvalue => by
      refine first_live hmerge hfollows.fits hfollows.arrived hmem hkind hdata ?_
      simpa [Graph.edgeDead, Edge.arrivesDead, hdata] using hvalue
  split
  · rw [Function.update_self]
    rfl
  next hnot =>
      have hnone : graph.edgeValue kernel edge = none := by
        rw [hneed] at hnot
        by_contra hsome
        exact hnot ⟨hdata, .inr (Option.isSome_iff_ne_none.mpr hsome)⟩
      have hempty := hfollows.empty edge.dst hskip edge.inputSlot
        (slot_unused hfollows.fits hmem hsink hdata)
      rw [hnone, ← hempty, Function.update_eq_self]

/-- A round on the edges of a node that behaves as the reference says. -/
theorem Follows.round (ready : List (TaggedNode ν)) :
    Follows graph kernel skip
      (activateEdge graph (graph.referenceDead kernel edge.src)
        (graph.referenceOutputs kernel edge.src) (iteration, ready) edge).1 left := by
  have hfits := @Fits.activateEdge ν α _ graph iteration edge left
    (graph.referenceDead kernel edge.src) (graph.referenceOutputs kernel edge.src) hfollows.fits
    (graph.dst_mem edge hmem) hsink ready
  have hinputs := inputs_after hmerge hfollows hmem hsink
  have hunused := slot_unused hfollows.fits hmem hsink
  have hcontrol : edge.isControl = true → (arrivalOf graph iteration edge
      (graph.referenceDead kernel edge.src) (graph.referenceOutputs kernel edge.src)).needInput =
        false := by
    intro hcontrol
    refine Bool.eq_false_iff.mpr fun hneed => ?_
    rw [arrivalOf_needInput hfollows.fits (by simp [hcontrol]), hcontrol] at hneed
    cases hneed.1
  rw [activateEdge_eq graph iteration edge _ _ ready hsink] at hfits ⊢
  refine ⟨hfits, ?_, ?_, ?_, ?_⟩
  · intro arrival harrival
    obtain hold | hnew := List.mem_append.mp harrival
    · exact hfollows.arrived arrival hold
    · obtain rfl := List.mem_singleton.mp hnew
      rfl
  · intro node hkind hnode
    by_cases hdst : edge.dst = node
    · subst hdst
      have hpending := hfollows.fits.pending edge.dst hkind hsink
      rw [leftTo_cons, if_pos rfl] at hpending
      have hnotReady : (iteration.counts edge.dst).NotReady := by
        rw [Counts.NotReady, hpending]
        exact Nat.succ_ne_zero _
      simp only [Function.update_self, arrivalOf, arrive_ordinary _ _ _ _ _ _ hkind,
        increment_eq Graph.referenceOutputs_dead, adjustForActivation_deadCount hnotReady,
        arrivedDead_concat, hfollows.deadCount edge.dst hkind hsink, true_and]
    · simp only [Function.update_of_ne (Ne.symm hdst), arrivedDead_concat, hdst, false_and,
        if_false, add_zero]
      exact hfollows.deadCount node hkind hnode
  · intro other hother hdata hskip
    have hold : other ∈ iteration.arrived.map Prod.fst →
        iteration.inputTensors other.dst other.inputSlot = graph.edgeValue kernel other :=
      fun harrived => hfollows.value other harrived hdata hskip
    rw [List.map_append, List.mem_append, List.map_singleton, List.mem_singleton] at hother
    by_cases hdst : other.dst = edge.dst
    · cases hat : edge.isControl with
      | true =>
          simp only [hcontrol hat, Bool.false_eq_true, if_false]
          refine hold (hother.resolve_right ?_)
          rintro rfl
          rw [hdata] at hat
          cases hat
      | false =>
          rw [hdst] at hold hskip ⊢
          simp only [hinputs hskip hat]
          rcases hother with harrived | rfl
          · rw [Function.update_of_ne (hunused hat other harrived hdst hdata), hold harrived]
          · rw [Function.update_self]
    · have harrived := hother.resolve_right fun heq => hdst (by rw [heq])
      rw [← hold harrived]
      split
      · simp only [Function.update_of_ne hdst]
      · rfl
  · intro node hskip slot hfree
    simp only [List.map_append, List.mem_append, List.map_singleton, List.mem_singleton] at hfree
    have hold := hfollows.empty node hskip slot fun other hother => hfree other (.inl hother)
    rw [← hold]
    by_cases hdst : node = edge.dst
    · subst hdst
      cases hat : edge.isControl with
      | true => simp only [hcontrol hat, Bool.false_eq_true, if_false]
      | false =>
          simp only [hinputs hskip hat]
          exact Function.update_of_ne (hfree edge (.inr rfl) rfl hat).symm _ _
    · split
      · simp only [Function.update_of_ne hdst]
      · rfl

/-- A node that an edge makes ready is tagged as the reference says. -/
theorem Follows.tag_madeBy :
    ∀ tagged ∈ madeBy graph iteration edge (graph.referenceDead kernel edge.src)
      (graph.referenceOutputs kernel edge.src),
      tagged.isDead = graph.referenceDead kernel tagged.node := by
  have hdst := graph.dst_mem edge hmem
  have hround := hfollows.round hmerge hmem hsink []
  have hready := @arrivalOf_ready ν α _ graph iteration edge left
    (graph.referenceDead kernel edge.src) (graph.referenceOutputs kernel edge.src) hfollows.fits
    hdst hsink
  rw [activateEdge_eq graph iteration edge _ _ [] hsink] at hround
  intro tagged hmade
  rw [madeBy] at hmade
  split at hmade
  next hat =>
      have hisReady := (hready.mp hat).2
      obtain rfl := List.mem_singleton.mp hmade
      refine Eq.trans ?_ (Graph.referenceDead_eq edge.dst).symm
      by_cases hkind : graph.kind edge.dst = .merge
      · have hdead := (@merge_counted ν α _ graph iteration edge left
          (graph.referenceDead kernel edge.src) (graph.referenceOutputs kernel edge.src)
          hfollows.fits hkind hdst).dead hat
        rw [deadFrom_merge hround.fits hround.arrived hkind hisReady, Bool.eq_iff_iff,
          decide_eq_true_eq]
        refine Iff.trans ?_ hdead
        simp [hkind]
      · have hcount := hround.deadCount edge.dst hkind hsink
        have hany := deadFrom_ordinary hround.fits hround.arrived hkind hsink hisReady
        simp only [Function.update_self] at hcount
        have hdead : (arrivalOf graph iteration edge (graph.referenceDead kernel edge.src)
            (graph.referenceOutputs kernel edge.src)).dead =
              (graph.inEdges edge.dst).any (graph.edgeDead kernel) := by
          rw [hany, ← hcount, arrivalOf, arrive_ordinary _ _ _ _ _ _ hkind]
        simp only [hdead]
        unfold Graph.deadFrom
        split
        next hmerge => exact absurd hmerge hkind
        next htrigger => simp [htrigger]
        next hnot =>
            have hlive : graph.kind edge.dst ≠ .controlTrigger := hnot
            simp [hlive]
  · cases hmade

end

/-- To propagate a node that behaves as the reference says keeps the iteration in step
with it, and the nodes it makes ready are tagged so. -/
theorem Follows.propagate (hmerge : graph.AtMostOneLive kernel) {tagged : TaggedNode ν}
    (hfollows : Follows graph kernel iteration.propagated iteration
      (remaining graph iteration.propagated))
    (hnode : tagged.node ∉ iteration.propagated)
    (hdead : tagged.isDead = graph.referenceDead kernel tagged.node) :
    let after := propagateOutputs graph tagged (graph.referenceOutputs kernel tagged.node)
      (iteration.clearInputs tagged.node)
    Follows graph kernel after.1.propagated after.1 (remaining graph after.1.propagated) ∧
      ∀ made ∈ after.2, made.isDead = graph.referenceDead kernel made.node := by
  have hcleared : Follows graph kernel (iteration.propagated ++ [tagged.node])
      (iteration.clearInputs tagged.node)
      ((graph.outEdges tagged.node).filter (fun edge => graph.kind edge.dst ≠ .sink) ++
        remaining graph (iteration.propagated ++ [tagged.node])) := by
    refine ⟨(hfollows.fits.perm (remaining_concat hnode)).clearInputs tagged.node,
      hfollows.arrived, hfollows.deadCount, fun edge harrived hdata hskip => ?_,
      fun node hskip slot hfree => ?_⟩
    · simp only [List.mem_append, List.mem_singleton, not_or] at hskip
      simp only [IterationState.clearInputs, Function.update_of_ne hskip.2]
      exact hfollows.value edge harrived hdata hskip.1
    · simp only [List.mem_append, List.mem_singleton, not_or] at hskip
      simp only [IterationState.clearInputs, Function.update_of_ne hskip.2]
      exact hfollows.empty node hskip.1 slot hfree
  have hout : ∀ edge ∈ graph.outEdges tagged.node,
      edge ∈ graph.edges ∧ edge.src = tagged.node := by simp [Graph.outEdges]
  have hloop := activate_induction tagged.isDead (graph.referenceOutputs kernel tagged.node)
    (Q := fun edge => edge ∈ graph.edges ∧ edge.src = tagged.node)
    (P := fun activated left =>
      Follows graph kernel (iteration.propagated ++ [tagged.node]) activated.1 left ∧
        ∀ made ∈ activated.2, made.isDead = graph.referenceDead kernel made.node)
    (fun iteration ready edge left hedge hsink hbefore => by
      obtain ⟨hmem, hsrc⟩ := hedge
      have hround := hbefore.1.round hmerge hmem hsink ready
      have htags := hbefore.1.tag_madeBy hmerge hmem hsink
      rw [hsrc, ← hdead] at hround htags
      refine ⟨hround, fun made hmade => ?_⟩
      rw [activateEdge_eq graph iteration edge _ _ ready hsink] at hmade
      obtain hold | hnew := List.mem_append.mp hmade
      · exact hbefore.2 made hold
      · exact htags made hnew)
    (graph.outEdges tagged.node) hout _ (iteration.clearInputs tagged.node, [])
    ⟨hcleared, by simp⟩
  intro after
  have hpropagated : after.1.propagated = iteration.propagated ++ [tagged.node] :=
    propagateOutputs_propagated _ _
  rw [hpropagated]
  obtain ⟨⟨hfits, harrived, hcount, hvalue, hempty⟩, htags⟩ := hloop
  exact ⟨⟨⟨hfits.edges, hfits.pending, hfits.merge, hfits.dead⟩, harrived, hcount, hvalue, hempty⟩,
    htags⟩

/-- A ready node reads the values of the reference. An input of a merge that has not
arrived when a live one has is dead. -/
theorem Follows.inputs (hmerge : graph.AtMostOneLive kernel) {node : ν}
    (hfollows : Follows graph kernel skip iteration left) (hskip : node ∉ skip)
    (hsink : graph.kind node = .sink → graph.inEdges node = [])
    (hready : IsReady graph iteration.arrived left node) :
    iteration.inputTensors node = graph.referenceInputs kernel node := by
  funext slot
  rw [Graph.referenceInputs]
  cases hfeeding : graph.feeding node slot with
  | none =>
      refine hfollows.empty node hskip slot fun edge harrived hdst hdata hslot => ?_
      obtain ⟨⟨edge, dead⟩, hmem, rfl⟩ := List.mem_map.mp harrived
      have hedge : edge ∈ graph.inEdges node :=
        Graph.mem_inEdges.mpr ⟨(mem_edges_of_arrived hfollows.fits hmem).1, hdst⟩
      have hnone := List.find?_eq_none.mp hfeeding edge hedge
      simp only [decide_eq_true_eq] at hnone
      exact hnone ⟨hdata, hslot⟩
  | some edge =>
      obtain ⟨hedge, hdata, rfl⟩ := Graph.mem_of_feeding hfeeding
      obtain ⟨hmem, rfl⟩ := Graph.mem_inEdges.mp hedge
      rw [Option.bind_some]
      by_cases harrived : edge ∈ iteration.arrived.map Prod.fst
      · exact hfollows.value edge harrived hdata hskip
      · have hleft := (arrived_or_left hfollows.fits hsink hedge).resolve_left harrived
        have hfits := hfollows.fits.perm (List.perm_cons_erase hleft)
        obtain ⟨hkind, live, hlive, hat, hin⟩ :=
          (inputsArrived_of_isReady hfollows.fits hsink hready).2.resolve_right
            fun hall => harrived (hall edge hedge hdata)
        have hempty := hfollows.empty edge.dst hskip edge.inputSlot
          (slot_unused hfits hmem (by simp [hkind]) hdata)
        have hdead : graph.edgeDead kernel edge = true := by
          by_contra hnot
          have hzero := first_live hmerge hfits hfollows.arrived hmem hkind hdata
            (Bool.eq_false_iff.mpr hnot)
          have hnone := List.countP_eq_zero.mp hzero _ hin
          simp [hat, (Graph.mem_inEdges.mp hlive).2] at hnone
        rw [hempty, eq_comm]
        simpa [Graph.edgeDead, Edge.arrivesDead, hdata, Graph.edgeValue] using hdead

end Loop

/-! ## The closures -/

section Workers

variable (kernel) in
/-- A run without failures in which every kernel puts out what it makes of the inputs
of its node. -/
def KernelRun (state : ExecutorState ν (Entries α) (IterationState ν α))
    (label : ExecutorStep (Entries α)) : Prop :=
  NodesSucceed state label ∧ ∀ index outputs, label = .worker index (.compute outputs) →
    ∀ worker tagged, state.workers[index]? = some worker → worker.pc = .computing tagged →
      outputs = some (kernel tagged.node (state.shared.frames.inputTensors tagged.node))

variable (graph kernel)

/-- What a closure has in hand is tagged as the reference says, what it computes is
live, and what it has computed is what the reference puts out. -/
structure WorkerFollows (worker : Worker ν (Entries α)) : Prop where
  tags : ∀ tagged ∈ heldBy worker, tagged.isDead = graph.referenceDead kernel tagged.node
  computing : ∀ tagged, worker.pc = .computing tagged → tagged.isDead = false
  computed : ∀ tagged outputs, worker.pc = .computed tagged outputs →
    outputs = graph.referenceOutputs kernel tagged.node

structure FollowsReference (state : ExecutorState ν (Entries α) (IterationState ν α)) : Prop where
  follows : Follows graph kernel state.shared.frames.propagated state.shared.frames
    (remaining graph state.shared.frames.propagated)
  workers : ∀ worker ∈ state.workers, WorkerFollows graph kernel worker
  processed : ∀ tagged ∈ state.shared.processed,
    tagged.isDead = graph.referenceDead kernel tagged.node

variable {graph kernel} {state : ExecutorState ν (Entries α) (IterationState ν α)}
  {after : Shared ν (IterationState ν α)} {worker moved : Worker ν (Entries α)}
  {spawned : List (Worker ν (Entries α))} {index : ℕ}

/-- A closure that computes no node and has none computed follows the reference when
its tags do. -/
theorem workerFollows_of_tags (htags : ∀ tagged ∈ heldBy worker,
      tagged.isDead = graph.referenceDead kernel tagged.node)
    (hcomputing : ∀ tagged, worker.pc ≠ .computing tagged)
    (hcomputed : ∀ tagged outputs, worker.pc ≠ .computed tagged outputs) :
    WorkerFollows graph kernel worker :=
  ⟨htags, fun tagged hpc => absurd hpc (hcomputing tagged),
    fun tagged outputs hpc => absurd hpc (hcomputed tagged outputs)⟩

theorem workersFollow_process {isExpensive kernelIsAsync : ν → Bool}
    (hfollows : WorkerFollows graph kernel worker)
    (hmove : worker.process (graphItems graph isExpensive kernelIsAsync) state.shared true =
      some (after, moved, spawned)) :
    (∀ other ∈ moved :: spawned, WorkerFollows graph kernel other) ∧
      after.frames = state.shared.frames ∧ ∃ tagged ∈ heldBy worker,
        after.processed = state.shared.processed ++ [tagged] := by
  unfold Worker.process at hmove
  split at hmove
  next tagged inlineReady hpc hinline =>
      have htags := hfollows.tags
      simp only [heldBy, hpc, hinline, Option.getD_some, List.append_nil] at htags ⊢
      have htagged := htags tagged List.mem_cons_self
      have hrest := fun other hmem => htags other (List.mem_cons_of_mem _ hmem)
      simp only [Bool.true_eq_false, if_false] at hmove
      split at hmove
      next hdead =>
          cases hmove
          refine ⟨?_, rfl, tagged, List.mem_cons_self, rfl⟩
          simp only [List.mem_singleton, forall_eq]
          refine ⟨?_, by simp, ?_⟩
          · simpa [heldBy, or_imp, forall_and] using ⟨hrest, htagged⟩
          · rintro _ _ ⟨⟩
            rw [Graph.referenceOutputs_dead (htagged.symm.trans hdead.1)]
            rfl
      next hlive =>
          have hnot : tagged.isDead = false := by simpa [graphItems] using hlive
          split at hmove <;> cases hmove
          · refine ⟨?_, rfl, tagged, List.mem_cons_self, rfl⟩
            simp only [List.mem_cons, List.not_mem_nil, or_false, forall_eq_or_imp, forall_eq]
            refine ⟨workerFollows_of_tags ?_ (by simp [hpc]) (by simp [hpc]), ?_, ?_, by
              simp [Worker.callback]⟩
            · simpa [heldBy, hpc] using hrest
            · simpa [heldBy, Worker.callback] using htagged
            · rintro _ ⟨⟩
              exact hnot
          · refine ⟨?_, rfl, tagged, List.mem_cons_self, rfl⟩
            simp only [List.mem_singleton, forall_eq]
            refine ⟨?_, ?_, by simp⟩
            · simpa [heldBy, or_imp, forall_and] using ⟨hrest, htagged⟩
            · rintro _ ⟨⟩
              exact hnot
  · cases hmove

/-- A kernel that reads the inputs of the reference puts out what the reference does. -/
theorem workersFollow_compute {isExpensive kernelIsAsync : ν → Bool}
    {outputs : Option (Entries α)} (hfollows : WorkerFollows graph kernel worker)
    (hinputs : ∀ tagged, worker.pc = .computing tagged →
      state.shared.frames.inputTensors tagged.node = graph.referenceInputs kernel tagged.node)
    (hkernel : ∀ tagged, worker.pc = .computing tagged →
      outputs = some (kernel tagged.node (state.shared.frames.inputTensors tagged.node)))
    (hmove : worker.compute (graphItems graph isExpensive kernelIsAsync) state.shared outputs =
      some (after, moved, spawned)) :
    (∀ other ∈ moved :: spawned, WorkerFollows graph kernel other) ∧ after = state.shared := by
  unfold Worker.compute at hmove
  split at hmove
  next tagged hpc =>
      cases hmove
      refine ⟨?_, rfl⟩
      simp only [List.mem_singleton, forall_eq]
      refine ⟨by simpa [heldBy, hpc] using hfollows.tags, by simp, ?_⟩
      rintro _ _ ⟨⟩
      have hlive : graph.referenceDead kernel tagged.node = false := by
        rw [← hfollows.tags tagged (by simp [heldBy, hpc]), hfollows.computing tagged hpc]
      rw [hkernel tagged hpc, hinputs tagged hpc, Graph.referenceOutputs_live hlive]
      rfl
  · cases hmove

/-- The moves of a closure that neither processes nor computes nor propagates concern
no tag. -/
theorem workersFollow_other {isExpensive kernelIsAsync : ν → Bool}
    {move : WorkerMove (Entries α)} (hfollows : WorkerFollows graph kernel worker)
    (hprocess : ∀ prepared, move ≠ .process prepared)
    (hcompute : ∀ outputs, move ≠ .compute outputs)
    (hpropagate : move ≠ .propagate)
    (hmove : worker.move (graphItems graph isExpensive kernelIsAsync) state.shared move =
      some (after, moved, spawned)) :
    (∀ other ∈ moved :: spawned, WorkerFollows graph kernel other) ∧
      after.frames = state.shared.frames ∧ after.processed = state.shared.processed := by
  have htags := hfollows.tags
  cases move with
  | process prepared => exact absurd rfl (hprocess prepared)
  | compute outputs => exact absurd rfl (hcompute outputs)
  | propagate => exact absurd rfl hpropagate
  | nodeDone notSleepThread =>
      obtain ⟨tagged, inlineReady, closures, completed, hpc, -, hplaced, rfl, rfl, rfl⟩ :=
        Worker.nodeDone_eq hmove
      refine ⟨?_, rfl, rfl⟩
      simp only [List.mem_singleton, forall_eq]
      refine workerFollows_of_tags (fun other hother => ?_) (by simp) (by simp)
      refine htags other ?_
      simp only [heldBy, hpc] at hother ⊢
      exact hplaced.mem_iff.mp hother
  | dispatch =>
      simp only [Worker.move, Worker.dispatch] at hmove
      split at hmove
      next hpc =>
          cases hmove
          refine ⟨?_, rfl, rfl⟩
          simp only [List.mem_singleton, forall_eq]
          refine workerFollows_of_tags ?_ (by simp) (by simp)
          simpa [heldBy, hpc] using htags
      next tagged closures hpc =>
          cases hmove
          simp only [heldBy, hpc, List.mem_append, List.mem_cons] at htags
          refine ⟨?_, rfl, rfl⟩
          simp only [List.mem_cons, List.not_mem_nil, or_false, forall_eq_or_imp, forall_eq]
          refine ⟨workerFollows_of_tags (fun other hother => htags other ?_) (by simp) (by simp),
            workerFollows_of_tags ?_ (by simp [Worker.closure]) (by simp [Worker.closure])⟩
          · simp only [heldBy, List.mem_append] at hother
            exact hother.imp_right .inr
          · simpa [heldBy, Worker.closure] using htags tagged (.inr (.inl rfl))
      · cases hmove
  | leave =>
      simp only [Worker.move, Worker.leave] at hmove
      split at hmove
      next hpc hnil =>
          cases hmove
          refine ⟨?_, rfl, rfl⟩
          simp only [List.mem_singleton, forall_eq]
          cases worker.completed <;>
            exact workerFollows_of_tags (by simp [heldBy, hnil]) (by simp) (by simp)
      · cases hmove
  | scheduleFinish =>
      simp only [Worker.move, Worker.scheduleFinish] at hmove
      split at hmove
      next hpc =>
          split at hmove <;> cases hmove
          all_goals
            refine ⟨?_, rfl, rfl⟩
            simp only [List.mem_singleton, forall_eq]
            refine workerFollows_of_tags ?_ (by simp) (by simp)
            simpa [heldBy, hpc] using htags
      · cases hmove
  | finish =>
      simp only [Worker.move, Worker.finish] at hmove
      split at hmove
      next hpc =>
          cases hmove
          refine ⟨?_, rfl, rfl⟩
          simp only [List.mem_singleton, forall_eq]
          refine workerFollows_of_tags ?_ (by simp) (by simp)
          simpa [heldBy, hpc] using htags
      · cases hmove
  | incDeferred =>
      simp only [Worker.move, Worker.incDeferred] at hmove
      split at hmove
      · cases hmove
        refine ⟨?_, rfl, rfl⟩
        simpa using hfollows
      · cases hmove

end Workers

/-! ## Runs -/

section Runs

variable {isExpensive kernelIsAsync : ν → Bool}
  {state after : ExecutorState ν (Entries α) (IterationState ν α)}

/-- A node in hand is activated and was not propagated. -/
theorem activated_of_held (hinv : ProcessedOnce graph state) {worker : Worker ν (Entries α)}
    (hworker : worker ∈ state.workers) {tagged : TaggedNode ν} (htagged : tagged ∈ heldBy worker) :
    Activated graph state.shared.frames tagged.node ∧
      tagged.node ∉ state.shared.frames.propagated := by
  have hheld : tagged.node ∈ (collect heldBy state.workers).map TaggedNode.node :=
    List.mem_map_of_mem (List.mem_flatMap.mpr ⟨worker, hworker, htagged⟩)
  exact ⟨(hinv.once.mem tagged.node).mp (List.mem_append_left _ hheld),
    fun hpropagated => List.disjoint_of_nodup_append hinv.once.nodup hheld hpropagated⟩

/-- A node in hand reads the values of the reference. -/
theorem inputs_of_held (hmerge : graph.AtMostOneLive kernel) (hinv : ProcessedOnce graph state)
    (hfollows : FollowsReference graph kernel state) {worker : Worker ν (Entries α)}
    (hworker : worker ∈ state.workers) {tagged : TaggedNode ν} (htagged : tagged ∈ heldBy worker) :
    state.shared.frames.inputTensors tagged.node = graph.referenceInputs kernel tagged.node := by
  obtain ⟨⟨-, hsink, hready⟩, hnot⟩ := activated_of_held hinv hworker htagged
  exact hfollows.follows.inputs hmerge hnot hsink hready

/-- **The step lemma of the reference.** -/
theorem followsReference_step {label : ExecutorStep (Entries α)}
    (hmerge : graph.AtMostOneLive kernel) (hinv : ProcessedOnce graph state)
    (hfollows : FollowsReference graph kernel state) (hallowed : KernelRun kernel state label)
    (hstep : state.step (graphItems graph isExpensive kernelIsAsync) label = some after) :
    FollowsReference graph kernel after := by
  cases label with
  | decDeferred =>
      obtain ⟨shared, hdec, rfl⟩ := Option.map_eq_some_iff.mp hstep
      simp only [Shared.decDeferred, Option.ite_none_right_eq_some, Option.some.injEq] at hdec
      obtain ⟨-, rfl⟩ := hdec
      exact ⟨hfollows.follows, hfollows.workers, hfollows.processed⟩
  | finishDeferred =>
      obtain ⟨shared, hfinish, rfl⟩ := Option.map_eq_some_iff.mp hstep
      simp only [Shared.finishDeferred, Option.ite_none_right_eq_some, Option.some.injEq] at hfinish
      obtain ⟨-, rfl⟩ := hfinish
      exact ⟨hfollows.follows, hfollows.workers, hfollows.processed⟩
  | worker index move =>
      obtain ⟨worker, shared, moved, spawned, hworker, hmove, rfl⟩ :=
        ExecutorState.worker_step hstep
      have hmem := List.mem_of_getElem? hworker
      have hown := hfollows.workers worker hmem
      by_cases hprocess : ∃ prepared, move = .process prepared
      · obtain ⟨prepared, rfl⟩ := hprocess
        obtain rfl : prepared = true := hallowed.1
        obtain ⟨hworkers, hframes, tagged, htagged, hprocessed⟩ := workersFollow_process hown hmove
        refine ⟨by rw [hframes]; exact hfollows.follows, forall_move hfollows.workers hworkers, ?_⟩
        intro other hother
        rw [hprocessed] at hother
        obtain hold | hnew := List.mem_append.mp hother
        · exact hfollows.processed other hold
        · obtain rfl := List.mem_singleton.mp hnew
          exact hown.tags other htagged
      by_cases hcompute : ∃ outputs, move = .compute outputs
      · obtain ⟨outputs, rfl⟩ := hcompute
        obtain ⟨hworkers, rfl⟩ := workersFollow_compute hown
          (fun tagged hpc => inputs_of_held hmerge hinv hfollows hmem (by simp [heldBy, hpc]))
          (fun tagged hpc => hallowed.2 index outputs rfl worker tagged hworker hpc) hmove
        exact ⟨hfollows.follows, forall_move hfollows.workers hworkers, hfollows.processed⟩
      by_cases hpropagate : move = .propagate
      · subst hpropagate
        have hok := hinv.ok worker hmem
        obtain ⟨tagged, outputs, frames, ready, hpc, hframes, rfl, rfl, rfl⟩ :=
          propagate_eq hok hmove
        obtain rfl := hown.computed tagged outputs hpc
        have htagged : tagged ∈ heldBy worker := by simp [heldBy, hpc]
        have hafter := hfollows.follows.propagate hmerge (activated_of_held hinv hmem htagged).2
          (hown.tags tagged htagged)
        rw [hframes] at hafter
        refine ⟨hafter.1, forall_move hfollows.workers ?_, hfollows.processed⟩
        simp only [List.mem_singleton, forall_eq]
        refine workerFollows_of_tags (fun other hother => ?_) (by simp) (by simp)
        simp only [heldBy, Worker.made, hok, if_true, List.mem_append] at hother
        obtain hinline | hmade := hother
        · exact hown.tags other (by simp [heldBy, hinline])
        · exact hafter.2 other hmade
      · obtain ⟨hworkers, hframes, hprocessed⟩ := workersFollow_other hown
          (fun prepared heq => hprocess ⟨prepared, heq⟩)
          (fun outputs heq => hcompute ⟨outputs, heq⟩) hpropagate hmove
        refine ⟨?_, forall_move hfollows.workers hworkers, ?_⟩
        · rw [hframes]
          exact hfollows.follows
        · rw [hprocessed]
          exact hfollows.processed

/-- A root node is live. -/
theorem referenceDead_root {node : ν} (hroot : node ∈ graph.rootNodes) :
    graph.referenceDead kernel node = false := by
  simp only [Graph.rootNodes, List.mem_filter, decide_eq_true_eq] at hroot
  obtain ⟨hmem, hnone⟩ := hroot
  rw [Graph.referenceDead_eq, Graph.deadFrom]
  split
  next hkind =>
      have hslots := (graph.slots node hmem).length_eq
      have hinputs := graph.merge_inputs node hmem hkind
      have hempty : (graph.edges.filter fun edge => edge.dst = node ∧ edge.isControl = false) =
          [] := by
        rw [Graph.inEdges, List.filter_eq_nil_iff] at hnone
        refine List.filter_eq_nil_iff.mpr fun edge hedge => ?_
        have hdst := hnone edge hedge
        simp only [decide_eq_true_eq] at hdst ⊢
        exact fun hat => hdst hat.1
      rw [hempty, List.map_nil, List.length_nil, List.length_range] at hslots
      omega
  · rfl
  · rw [hnone]
    rfl

/-- **The run lemma of the reference.** -/
theorem followsReference_of_reaches (hmerge : graph.AtMostOneLive kernel)
    (hreached : (graphExecutor graph isExpensive kernelIsAsync).Reaches (KernelRun kernel) state) :
    ProcessedOnce graph state ∧ FollowsReference graph kernel state := by
  refine ⟨processedOnce_of_reaches (hreached.mono fun _ _ hallowed => hallowed.1), ?_⟩
  refine hreached.invariant (P := FollowsReference graph kernel) ?_
    fun source label target hreached hfollows hallowed htaken => ?_
  · have hframes : (graphExecutor graph isExpensive kernelIsAsync).init.shared.frames =
        (initialIteration graph : IterationState ν α) := rfl
    refine ⟨?_, ?_, by simp [graphExecutor, runAsync]⟩
    · rw [hframes]
      refine ⟨fits_initialIteration, by simp [ArrivedRight, initialIteration], fun node _ _ => ?_,
        by simp [initialIteration], fun _ _ _ _ => rfl⟩
      simp only [initialIteration, getMaxPendingCounts, arrivedDead, List.countP_nil]
    · intro worker hworker
      simp only [graphExecutor, runAsync] at hworker
      split at hworker
      · cases hworker
      · obtain rfl := List.mem_singleton.mp hworker
        refine workerFollows_of_tags (fun tagged htagged => ?_) (by simp [Worker.starter])
          (by simp [Worker.starter])
        simp only [heldBy, Worker.starter, Option.getD_none, List.nil_append, List.mem_map]
          at htagged
        obtain ⟨node, hroot, rfl⟩ := htagged
        exact (referenceDead_root hroot).symm
  · have hinv := processedOnce_of_reaches (hreached.mono fun _ _ hallowed => hallowed.1)
    exact followsReference_step hmerge hinv hfollows hallowed htaken

/-- The edge that feeds a slot is found. -/
theorem feeding_eq {node : ν} (hnode : node ∈ graph.nodes) {edge : Edge ν}
    (hedge : edge ∈ graph.inEdges node) (hdata : edge.isControl = false) :
    graph.feeding node edge.inputSlot = some edge := by
  cases hfeeding : graph.feeding node edge.inputSlot with
  | none =>
      have hnone := List.find?_eq_none.mp hfeeding edge hedge
      simp [hdata] at hnone
  | some other =>
      obtain ⟨hother, hat, hslot⟩ := Graph.mem_of_feeding hfeeding
      have hnodup := (graph.slots node hnode).nodup_iff.mpr List.nodup_range
      obtain ⟨hmem, hdst⟩ := Graph.mem_inEdges.mp hedge
      obtain ⟨hmem', hdst'⟩ := Graph.mem_inEdges.mp hother
      rw [List.inj_on_of_nodup_map hnodup (List.mem_filter.mpr ⟨hmem', by simp [hdst', hat]⟩)
        (List.mem_filter.mpr ⟨hmem, by simp [hdst, hdata]⟩) hslot]

/-- **Deadness does not depend on the schedule.** In every run in which a merge can
receive at most one live data input, every node is processed with the tag of the
reference; a node whose kernel runs is live and finds, in the slot of each of its data
edges, what the source of the edge put out; and the outputs of every node are those of
the reference. -/
theorem deadness_follows_reference (hmerge : graph.AtMostOneLive kernel)
    (hreached : (graphExecutor graph isExpensive kernelIsAsync).Reaches (KernelRun kernel) state) :
    (∀ tagged ∈ state.shared.processed,
        tagged.isDead = graph.referenceDead kernel tagged.node) ∧
      (∀ worker ∈ state.workers, ∀ tagged, worker.pc = .computing tagged →
        tagged.isDead = false ∧ ∀ edge ∈ graph.inEdges tagged.node, edge.isControl = false →
          state.shared.frames.inputTensors tagged.node edge.inputSlot =
            edge.carried (graph.referenceOutputs kernel edge.src)) ∧
      ∀ worker ∈ state.workers, ∀ tagged outputs, worker.pc = .computed tagged outputs →
        outputs = graph.referenceOutputs kernel tagged.node := by
  obtain ⟨hinv, hfollows⟩ := followsReference_of_reaches hmerge hreached
  refine ⟨hfollows.processed, fun worker hworker tagged hpc => ⟨?_, fun edge hedge hdata => ?_⟩,
    fun worker hworker => (hfollows.workers worker hworker).computed⟩
  · exact (hfollows.workers worker hworker).computing tagged hpc
  · have hheld : tagged ∈ heldBy worker := by simp [heldBy, hpc]
    have hnode := (activated_of_held hinv hworker hheld).1.1
    rw [inputs_of_held hmerge hinv hfollows hworker hheld, Graph.referenceInputs,
      feeding_eq hnode hedge hdata]
    rfl

end Runs

/-! ## A run -/

section Play

/-- A step of a closure, where kernels answer with what they make of their inputs. -/
def answered (kernel : ν → Entries α → Entries α)
    (state : ExecutorState ν (Entries α) (IterationState ν α)) (step : ℕ × WorkerMove Unit) :
    ExecutorStep (Entries α) :=
  .worker step.1 (match step.2 with
    | .process _ => .process true
    | .compute _ => .compute (some (match (state.workers[step.1]?).map Worker.pc with
        | some (.computing tagged) =>
            kernel tagged.node (state.shared.frames.inputTensors tagged.node)
        | _ => fun _ => none))
    | .propagate => .propagate
    | .nodeDone notSleepThread => .nodeDone notSleepThread
    | .dispatch => .dispatch
    | .leave => .leave
    | .scheduleFinish => .scheduleFinish
    | .finish => .finish
    | .incDeferred => .incDeferred)

omit [DecidableEq ν] in
theorem kernelRun_answered (kernel : ν → Entries α → Entries α)
    (state : ExecutorState ν (Entries α) (IterationState ν α)) (step : ℕ × WorkerMove Unit) :
    KernelRun kernel state (answered kernel state step) := by
  obtain ⟨index, move⟩ := step
  refine ⟨by cases move <;> simp [answered, NodesSucceed], ?_⟩
  intro other outputs hlabel worker tagged hworker hpc
  cases move with
  | compute _ =>
      simp only [answered, ExecutorStep.worker.injEq, WorkerMove.compute.injEq] at hlabel
      obtain ⟨rfl, rfl⟩ := hlabel
      simp [hworker, hpc]
  | _ => simp [answered] at hlabel

/-- The switch puts its value on its first output, and the merge puts out the value it
has. -/
def branchKernel (node : ℕ) (inputs : Entries ℕ) : Entries ℕ := fun slot =>
  match node with
  | 0 => if slot = 0 then some 5 else none
  | 1 => (inputs 0).map (· + 1)
  | 3 => (inputs 0).or (inputs 1)
  | _ => inputs 0

theorem branches_deadness : ∃ state : ExecutorState ℕ (Entries ℕ) (IterationState ℕ ℕ),
    state.shared.processed = [⟨0, false⟩, ⟨2, true⟩, ⟨1, false⟩, ⟨3, false⟩] ∧
      ∀ tagged ∈ state.shared.processed,
        tagged.isDead = branches.referenceDead branchKernel tagged.node := by
  have hrun : ∃ state, (graphExecutor branches (fun _ => false) (fun _ => false)).Reaches
      (KernelRun branchKernel) state ∧ decide (state.shared.processed =
        [⟨0, false⟩, ⟨2, true⟩, ⟨1, false⟩, ⟨3, false⟩]) = true := by
    refine Machine.exists_reaches_play (answered branchKernel)
      (fun state step => kernelRun_answered branchKernel state step)
      [(0, .dispatch), (0, .dispatch), (1, .process true), (1, .compute none), (1, .propagate),
        (1, .nodeDone false), (1, .dispatch), (1, .dispatch), (3, .process true), (3, .propagate),
        (2, .process true), (2, .compute none), (2, .propagate), (2, .nodeDone true),
        (2, .dispatch), (2, .process true)] ?_
    decide +kernel
  obtain ⟨state, hreached, hended⟩ := hrun
  exact ⟨state, of_decide_eq_true hended,
    (deadness_follows_reference (by decide +kernel) hreached).1⟩

end Play

end ContainerScheduler.Analysis
