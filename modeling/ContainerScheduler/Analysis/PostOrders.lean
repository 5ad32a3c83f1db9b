/-
# Post-orders are topological

The search enters and leaves what can be reached, each node once. Without a cycle every node is left
after its successors. A comparator that orders all nodes makes the order of the edges irrelevant.
-/

import ContainerScheduler.Graphs.Graph

namespace ContainerScheduler.Analysis

open Graphs
open Math
open Relation

/-! ## The loop -/

section Loop

theorem foldl_addWork (visited : List Bool) (outs : List ℕ) (stack : List (Work ℕ)) :
    outs.foldl (addWork visited) stack =
      (outs.filter fun out => visited[out]? ≠ some true).reverse.map (fun out => ⟨out, false⟩) ++
        stack := by
  induction outs generalizing stack with
  | nil => rfl
  | cons out outs ih =>
      rw [List.foldl_cons, ih, addWork]
      by_cases hvisited : visited[out]? = some true
      · rw [if_pos hvisited, List.filter_cons_of_neg (by simpa using hvisited)]
      · rw [if_neg hvisited, List.filter_cons_of_pos (by simpa using hvisited), List.reverse_cons,
          List.map_append, List.append_assoc]
        rfl

variable (next : ℕ → List ℕ) (starts : List ℕ)

abbrev LeadsTo (n m : ℕ) : Prop := m ∈ next n

/-- No node that is reached lies on a cycle. -/
def NoCycle : Prop := ∀ n, ReachedFrom (LeadsTo next) starts n → ¬ TransGen (LeadsTo next) n n

/-- The state of the loop. -/
structure Searching (enter leave : Bool) (visited : List Bool) (stack : List (Work ℕ))
    (visits : List Visit) (entered left : List ℕ) : Prop where
  visiting : Visiting (LeadsTo next) starts leave stack entered left
  nested : leave = true → NoCycle next starts → Nested (LeadsTo next) stack left
  visited_iff : ∀ n, visited[n]? = some true ↔ n ∈ entered
  node_lt : ∀ work ∈ stack, work.node < visited.length
  entered_eq : visits.filterMap Visit.entered = if enter then entered else []
  left_eq : visits.filterMap Visit.left = left

variable {next starts} {enter leave : Bool} {visited : List Bool} {stack : List (Work ℕ)}
  {visits : List Visit} {entered left : List ℕ} {n : ℕ}

namespace Searching

theorem leave_step
    (hsearch : Searching next starts enter leave visited (⟨n, true⟩ :: stack) visits entered left) :
    Searching next starts enter leave visited stack (visits ++ [.leave n]) entered
      (left ++ [n]) := by
  refine ⟨hsearch.visiting.leave, fun hleave hacyclic => ?_, hsearch.visited_iff,
    fun work hwork => hsearch.node_lt work (List.mem_cons_of_mem _ hwork), ?_, ?_⟩
  · subst hleave
    exact (hsearch.nested rfl hacyclic).leave hsearch.visiting
  · rw [List.filterMap_append, hsearch.entered_eq]
    exact List.append_nil _
  · rw [List.filterMap_append, hsearch.left_eq]
    rfl

theorem skip_step
    (hsearch : Searching next starts enter leave visited (⟨n, false⟩ :: stack) visits entered left)
    (hn : visited[n]? = some true) :
    Searching next starts enter leave visited stack visits entered left := by
  have hentered := (hsearch.visited_iff n).mp hn
  refine ⟨hsearch.visiting.skip hentered, fun hleave hacyclic => ?_, hsearch.visited_iff,
    fun work hwork => hsearch.node_lt work (List.mem_cons_of_mem _ hwork), hsearch.entered_eq,
    hsearch.left_eq⟩
  subst hleave
  exact (hsearch.nested rfl hacyclic).skip hsearch.visiting hentered fun m hm =>
    hacyclic m (hsearch.visiting.reached m (.inl hm))

theorem enter_step
    (hsearch : Searching next starts enter leave visited (⟨n, false⟩ :: stack) visits entered left)
    (hn : visited[n]? = some false)
    (hnext : ∀ n < visited.length, ∀ m ∈ next n, m < visited.length) :
    Searching next starts enter leave (visited.set n true)
      ((next n).foldl (addWork (visited.set n true))
        (if leave then ⟨n, true⟩ :: stack else stack))
      (if enter then visits ++ [.enter n] else visits) (entered ++ [n]) left := by
  have hfresh : n ∉ entered := fun hmem => by
    rw [(hsearch.visited_iff n).mpr hmem] at hn
    cases hn
  have hlt : n < visited.length := (List.getElem?_eq_some_iff.mp hn).1
  have hvisited : ∀ m, (visited.set n true)[m]? = some true ↔ m ∈ entered ++ [n] := by
    intro m
    rw [List.mem_append, List.mem_singleton, ← hsearch.visited_iff m]
    by_cases heq : n = m
    · subst heq
      rw [List.getElem?_set_self hlt]
      exact iff_of_true rfl (.inr rfl)
    · rw [List.getElem?_set_ne heq]
      exact (or_iff_left (Ne.symm heq)).symm
  have hstack : (next n).foldl (addWork (visited.set n true))
      (if leave then ⟨n, true⟩ :: stack else stack) = pushVisits leave n
        ((next n).filter fun m => (visited.set n true)[m]? ≠ some true).reverse stack := by
    rw [foldl_addWork, pushVisits]
    cases leave <;> rfl
  have hpushed : ∀ m ∈ ((next n).filter fun m =>
      (visited.set n true)[m]? ≠ some true).reverse, LeadsTo next n m := fun m hm =>
    List.mem_of_mem_filter (List.mem_reverse.mp hm)
  have hall : ∀ m, LeadsTo next n m → m ∈ entered ++ [n] ∨
      m ∈ ((next n).filter fun m => (visited.set n true)[m]? ≠ some true).reverse := by
    intro m hm
    refine or_iff_not_imp_left.mpr fun hnot => ?_
    rw [List.mem_reverse, List.mem_filter, decide_eq_true_iff]
    exact ⟨hm, mt (hvisited m).mp hnot⟩
  have hvisiting := hsearch.visiting.enter hfresh hpushed hall
  rw [hstack]
  refine ⟨hvisiting, fun hleave hacyclic => ?_, hvisited, ?_, ?_, ?_⟩
  · subst hleave
    exact (hsearch.nested rfl hacyclic).enter hsearch.visiting hfresh hpushed hall fun m hm =>
      hacyclic m (hvisiting.reached m (.inl hm))
  · rw [List.length_set]
    intro work hwork
    rw [pushVisits] at hwork
    rcases List.mem_append.mp hwork with hwork | hwork
    · obtain ⟨m, hm, rfl⟩ := List.mem_map.mp hwork
      exact hnext n hlt m (hpushed m hm)
    · rcases List.mem_append.mp hwork with hwork | hwork
      · cases leave with
        | false => cases hwork
        | true => exact List.mem_singleton.mp hwork ▸ hlt
      · exact hsearch.node_lt work (List.mem_cons_of_mem _ hwork)
  · cases enter with
    | false => exact hsearch.entered_eq
    | true =>
        rw [if_pos rfl, List.filterMap_append, hsearch.entered_eq]
        rfl
  · rw [← hsearch.left_eq]
    cases enter with
    | false => rfl
    | true =>
        rw [if_pos rfl, List.filterMap_append]
        exact List.append_nil _

end Searching

theorem dfsLoop_visited (hn : visited[n]? = some true) :
    dfsLoop next enter leave visited (⟨n, false⟩ :: stack) visits =
      dfsLoop next enter leave visited stack visits := by
  rw [dfsLoop, if_neg Bool.false_ne_true]
  split
  · next hnone => cases hn.symm.trans hnone
  · rfl
  · next hfalse => cases hn.symm.trans hfalse

theorem dfsLoop_new (hn : visited[n]? = some false) :
    dfsLoop next enter leave visited (⟨n, false⟩ :: stack) visits =
      dfsLoop next enter leave (visited.set n true)
        ((next n).foldl (addWork (visited.set n true))
          (if leave then ⟨n, true⟩ :: stack else stack))
        (if enter then visits ++ [.enter n] else visits) := by
  rw [dfsLoop, if_neg Bool.false_ne_true]
  split
  · next hnone => cases hn.symm.trans hnone
  · next htrue => cases hn.symm.trans htrue
  · rfl

/-- The search ends, with an empty stack. -/
theorem dfsLoop_spec
    (hnext : ∀ n < visited.length, ∀ m ∈ next n, m < visited.length)
    (hsearch : Searching next starts enter leave visited stack visits entered left) :
    ∃ visited' visits' entered' left',
      dfsLoop next enter leave visited stack visits = some visits' ∧
        Searching next starts enter leave visited' [] visits' entered' left' := by
  induction visited, stack, visits using dfsLoop.induct next enter leave generalizing entered left
    with
  | case1 visited visits =>
      exact ⟨visited, visits, entered, left, by rw [dfsLoop], hsearch⟩
  | case2 visited visits work stack hleave ih =>
      obtain ⟨n, isLeave⟩ := work
      obtain rfl : isLeave = true := hleave
      rw [dfsLoop, if_pos rfl]
      exact ih hnext hsearch.leave_step
  | case3 visited visits work stack hleave hnone =>
      have hlt := hsearch.node_lt work List.mem_cons_self
      rw [List.getElem?_eq_none_iff] at hnone
      exact absurd hlt (not_lt.mpr hnone)
  | case4 visited visits work stack hleave htrue ih =>
      obtain ⟨n, isLeave⟩ := work
      obtain rfl : isLeave = false := Bool.of_not_eq_true hleave
      rw [dfsLoop_visited htrue]
      exact ih hnext (hsearch.skip_step htrue)
  | case5 visited visits work stack hleave hfalse _ =>
      rename_i ih
      simp only [dite_eq_ite] at ih
      obtain ⟨n, isLeave⟩ := work
      obtain rfl : isLeave = false := Bool.of_not_eq_true hleave
      rw [dfsLoop_new hfalse]
      refine ih ?_ (hsearch.enter_step hfalse hnext)
      rw [List.length_set]
      exact hnext

end Loop

/-! ## The search of a graph -/

section Graphs

variable {graph graph' : Graph} {sort sort' : NodeSort} {start : List ℕ} {enter leave : Bool}
  {stableComparator : Option NodeComparator} {edgeFilter : Option EdgeFilter}

/-- An accepted edge leads from one node to the other. -/
def AcceptedEdge (graph : Graph) (edgeFilter : Option EdgeFilter) (n m : ℕ) : Prop :=
  ∃ edge ∈ graph.outEdges n, (∀ accepts ∈ edgeFilter, accepts edge = true) ∧ edge.dst = m

theorem mem_successors {n m : ℕ} :
    m ∈ successors graph sort stableComparator edgeFilter n ↔
      AcceptedEdge graph edgeFilter n m := by
  have hplain : m ∈ ((graph.outEdges n).filter (acceptsEdge edgeFilter)).map Edge.dst ↔
      AcceptedEdge graph edgeFilter n m := by
    cases edgeFilter <;> simp [AcceptedEdge, acceptsEdge, and_assoc]
  cases stableComparator with
  | none => exact hplain
  | some less => exact (sort.perm less _).mem_iff.trans hplain

theorem leadsTo_successors :
    LeadsTo (successors graph sort stableComparator edgeFilter) = AcceptedEdge graph edgeFilter :=
  funext fun _ => funext fun _ => propext mem_successors

/-- What a search is for: the nodes that can be reached, each one once, in an order without regard
to the rest. -/
structure VisitsReached (graph : Graph) (edgeFilter : Option EdgeFilter) (start order : List ℕ) :
    Prop where
  nodup : order.Nodup
  mem_iff : ∀ n, n ∈ order ↔ ReachedFrom (AcceptedEdge graph edgeFilter) start n

/-- No reached node lies on a cycle of accepted edges. -/
def Acyclic (graph : Graph) (edgeFilter : Option EdgeFilter) (start : List ℕ) : Prop :=
  ∀ n, ReachedFrom (AcceptedEdge graph edgeFilter) start n →
    ¬ TransGen (AcceptedEdge graph edgeFilter) n n

theorem dfsFrom_spec (sort : NodeSort) (enter leave : Bool)
    (stableComparator : Option NodeComparator) (edgeFilter : Option EdgeFilter)
    (hstart : ∀ n ∈ start, n < graph.numNodeIds) :
    ∃ visits, dfsFrom graph sort start enter leave stableComparator edgeFilter = some visits ∧
      (enter = true → VisitsReached graph edgeFilter start (visits.filterMap Visit.entered)) ∧
      (leave = true → VisitsReached graph edgeFilter start (visits.filterMap Visit.left)) ∧
      (leave = true → Acyclic graph edgeFilter start →
        ∀ n ∈ visits.filterMap Visit.left, ∀ m, AcceptedEdge graph edgeFilter n m →
          [m, n].Sublist (visits.filterMap Visit.left)) := by
  have hsearch : Searching (successors graph sort stableComparator edgeFilter) start enter leave
      (List.replicate graph.numNodeIds false) (start.reverse.map fun n => ⟨n, false⟩) [] [] [] := by
    refine ⟨visiting_start leave, fun _ _ => nested_start, fun n => ?_, ?_, ?_, rfl⟩
    · rw [List.getElem?_replicate]
      split_ifs <;> simp
    · rw [List.length_replicate]
      refine List.forall_mem_map.mpr fun n hn => hstart n (List.mem_reverse.mp hn)
    · cases enter <;> rfl
  have hnext : ∀ n < (List.replicate graph.numNodeIds false).length,
      ∀ m ∈ successors graph sort stableComparator edgeFilter n,
        m < (List.replicate graph.numNodeIds false).length := by
    intro n _ m hm
    obtain ⟨edge, hedge, -, rfl⟩ := mem_successors.mp hm
    rw [List.length_replicate]
    exact graph.lt_of_isSome _ (graph.dst_isSome n edge hedge)
  obtain ⟨visited, visits, entered, left, hok, hdone⟩ := dfsLoop_spec hnext hsearch
  obtain ⟨hreached, hleft⟩ := hdone.visiting.finish
  rw [leadsTo_successors] at hreached
  refine ⟨visits, hok, fun henter => ?_, fun hleave => ?_, fun hleave hacyclic => ?_⟩
  · rw [hdone.entered_eq, if_pos henter]
    exact ⟨hdone.visiting.nodup, hreached⟩
  · rw [if_pos hleave] at hleft
    rw [hdone.left_eq]
    exact ⟨hleft.nodup_iff.mpr hdone.visiting.nodup,
      fun n => hleft.mem_iff.trans (hreached n)⟩
  · have hnested := hdone.nested hleave (by
      rw [NoCycle, leadsTo_successors]
      exact hacyclic)
    rw [hdone.left_eq]
    intro n hn m hm
    exact hnested.before n hn m (mem_successors.mpr hm)

/-- Where the comparator orders all nodes, only the set of the edges matters. -/
theorem successors_eq {less : NodeComparator} (hsame : graph.SameEdges graph')
    (hless : IsStrictTotalOrder ℕ fun n m => less n m = true) (n : ℕ) :
    successors graph' sort' (some less) edgeFilter n =
      successors graph sort (some less) edgeFilter n := by
  have hasymm : ∀ n m, less n m = true → less m n = false := fun n m hnm =>
    Bool.of_not_eq_true (asymm_of (fun n m => less n m = true) hnm)
  have hbetween : ∀ n m k, less n k = true → less n m = true ∨ less m k = true := by
    intro n m k hnk
    rcases trichotomous_of (fun n m => less n m = true) n m with hnm | rfl | hmn
    · exact .inl hnm
    · exact .inr hnk
    · exact .inr (trans_of (fun n m => less n m = true) hmn hnk)
  have hantisymm : ∀ n m, less m n = false → less n m = false → n = m := by
    intro n m hmn hnm
    rcases trichotomous_of (fun n m => less n m = true) n m with hlt | heq | hlt
    · rw [hnm] at hlt
      cases hlt
    · exact heq
    · rw [hmn] at hlt
      cases hlt
  have haccepted := ((hsame.perm n).filter (acceptsEdge edgeFilter)).map Edge.dst
  have hsorted := sort.sorted less
    (((graph.outEdges n).filter (acceptsEdge edgeFilter)).map Edge.dst) hasymm hbetween
  have hsorted' := sort'.sorted less
    (((graph'.outEdges n).filter (acceptsEdge edgeFilter)).map Edge.dst) hasymm hbetween
  have hperm := (sort'.perm less _).trans (haccepted.trans (sort.perm less _).symm)
  exact List.Perm.eq_of_pairwise (fun n m _ _ => hantisymm n m) hsorted' hsorted hperm

/-- **Depth-first search.** It ends for every graph, having entered and left what can be reached,
each node once; without a cycle, successors are left first. With a comparator that orders all nodes
it does not depend on the order of the edges. -/
theorem post_order_is_topological (sort : NodeSort) (enter leave : Bool)
    (stableComparator : Option NodeComparator) (edgeFilter : Option EdgeFilter)
    (hstart : ∀ n ∈ start, n < graph.numNodeIds) :
    (∃ visits, dfsFrom graph sort start enter leave stableComparator edgeFilter = some visits ∧
      (enter = true → VisitsReached graph edgeFilter start (visits.filterMap Visit.entered)) ∧
      (leave = true → VisitsReached graph edgeFilter start (visits.filterMap Visit.left)) ∧
      (leave = true → Acyclic graph edgeFilter start →
        ∀ n ∈ visits.filterMap Visit.left, ∀ m, AcceptedEdge graph edgeFilter n m →
          [m, n].Sublist (visits.filterMap Visit.left))) ∧
    (∃ order, getReversePostOrder graph sort stableComparator edgeFilter = some order ∧
      VisitsReached graph edgeFilter [0] order ∧
      (Acyclic graph edgeFilter [0] → ∀ n ∈ order, ∀ m, AcceptedEdge graph edgeFilter n m →
        [n, m].Sublist order)) ∧
    ∀ less, stableComparator = some less → (IsStrictTotalOrder ℕ fun n m => less n m = true) →
      ∀ graph' sort', graph.SameEdges graph' →
        dfsFrom graph' sort' start enter leave stableComparator edgeFilter =
          dfsFrom graph sort start enter leave stableComparator edgeFilter ∧
        getReversePostOrder graph' sort' stableComparator edgeFilter =
          getReversePostOrder graph sort stableComparator edgeFilter := by
  refine ⟨dfsFrom_spec sort enter leave stableComparator edgeFilter hstart, ?_, ?_⟩
  · have hsource : ∀ n ∈ [0], n < graph.numNodeIds :=
      List.forall_mem_singleton.mpr (graph.lt_of_isSome 0 graph.source_isSome)
    obtain ⟨visits, hok, -, hleft, hbefore⟩ :=
      dfsFrom_spec sort false true stableComparator edgeFilter hsource
    obtain ⟨hnodup, hmem⟩ := hleft rfl
    refine ⟨(visits.filterMap Visit.left).reverse, ?_, ⟨List.nodup_reverse.mpr hnodup, fun n =>
      List.mem_reverse.trans (hmem n)⟩, fun hacyclic n hn m hm => ?_⟩
    · rw [getReversePostOrder, getPostOrder, dfs, ← dfsFrom, hok]
      rfl
    · exact (hbefore rfl hacyclic n (List.mem_reverse.mp hn) m hm).reverse
  · rintro less rfl hless graph' sort' hsame
    have hnext : successors graph' sort' (some less) edgeFilter =
        successors graph sort (some less) edgeFilter := funext (successors_eq hsame hless)
    have heq : ∀ start enter leave,
        dfsFromHelper graph' sort' start enter leave (some less) edgeFilter =
          dfsFromHelper graph sort start enter leave (some less) edgeFilter := by
      intro start enter leave
      rw [dfsFromHelper, dfsFromHelper, hnext, hsame.numNodeIds_eq]
    refine ⟨heq start enter leave, ?_⟩
    rw [getReversePostOrder, getPostOrder, dfs, heq]
    rfl

/-- Two ways from the source to the sink. -/
def diamondEdges (n : ℕ) : List Edge :=
  match n with
  | 0 => [⟨0, 0, 0, 2, 0⟩, ⟨1, 0, 1, 3, 0⟩]
  | 2 => [⟨2, 2, 0, 1, 0⟩]
  | 3 => [⟨3, 3, 0, 1, 1⟩]
  | _ => []

theorem forall_diamondEdges {motive : ℕ → Edge → Prop} (h₀ : motive 0 ⟨0, 0, 0, 2, 0⟩)
    (h₁ : motive 0 ⟨1, 0, 1, 3, 0⟩) (h₂ : motive 2 ⟨2, 2, 0, 1, 0⟩)
    (h₃ : motive 3 ⟨3, 3, 0, 1, 1⟩) : ∀ n, ∀ edge ∈ diamondEdges n, motive n edge
  | 0, edge, hedge => by
      rcases List.mem_pair.mp hedge with rfl | rfl
      · exact h₀
      · exact h₁
  | 1, edge, hedge => absurd hedge List.not_mem_nil
  | 2, edge, hedge => List.mem_singleton.mp hedge ▸ h₂
  | 3, edge, hedge => List.mem_singleton.mp hedge ▸ h₃
  | n + 4, edge, hedge => absurd hedge List.not_mem_nil

def diamond : Graph where
  numNodeIds := 4
  node n := if n < 4 then some ⟨"", .other, none⟩ else none
  outEdges := diamondEdges
  lt_of_isSome n hnode := by
    by_contra hlt
    rw [if_neg hlt] at hnode
    cases hnode
  source_isSome := rfl
  src_eq := forall_diamondEdges rfl rfl rfl rfl
  dst_isSome := forall_diamondEdges rfl rfl rfl rfl

theorem diamond_acyclic : Acyclic diamond none [0] := by
  -- the edges go from 0 through 2 and 3 to 1
  have hstep : ∀ n m, AcceptedEdge diamond none n m → n ≠ 1 ∧ (m = 1 ∨ n = 0 ∧ m ≠ 0) := by
    rintro n m ⟨edge, hedge, -, rfl⟩
    revert n edge
    exact forall_diamondEdges (by decide) (by decide) (by decide) (by decide)
  have hpath : ∀ n m, TransGen (AcceptedEdge diamond none) n m →
      n ≠ 1 ∧ (m = 1 ∨ n = 0 ∧ m ≠ 0) := by
    intro n m hpath
    induction hpath with
    | single hedge => exact hstep n _ hedge
    | tail _ hedge ih =>
        obtain ⟨hne, hdst⟩ := hstep _ _ hedge
        exact ⟨ih.1, .inl (by omega)⟩
  intro n _ hcycle
  obtain ⟨hne, hdst⟩ := hpath n n hcycle
  omega

/-- The order in which the comparator does not say that the second one comes first, if it is one. -/
def sortByInsertion : NodeSort where
  sort less nodes := nodes.insertionSort fun n m => less m n = false
  perm less nodes := List.perm_insertionSort _ nodes
  sorted less nodes hasymm hbetween := by
    have htotal : Std.Total fun n m => less m n = false := ⟨fun n m => by
      cases hless : less m n
      · exact .inl rfl
      · exact .inr (hasymm m n hless)⟩
    have htrans : IsTrans ℕ fun n m => less m n = false := ⟨fun n m k hnm hmk => by
      by_contra hless
      rcases hbetween k m n (Bool.of_not_eq_false hless) with hlt | hlt
      · cases hmk.symm.trans hlt
      · cases hnm.symm.trans hlt⟩
    exact List.pairwise_insertionSort _ nodes

theorem post_order_of_diamond :
    ∃ order, getReversePostOrder diamond sortByInsertion none none = some order ∧
      VisitsReached diamond none [0] order ∧
      ∀ n ∈ order, ∀ m, AcceptedEdge diamond none n m → [n, m].Sublist order := by
  obtain ⟨order, hok, hvisits, hsublist⟩ := (post_order_is_topological sortByInsertion true true
    none none (show ∀ n ∈ [0], n < diamond.numNodeIds by decide)).2.1
  exact ⟨order, hok, hvisits, hsublist diamond_acyclic⟩

end Graphs

end ContainerScheduler.Analysis
