/-
# The answers about paths agree

`FindPath` and `IsReachable` search without the ranks, `IsReachableNonConst` stops at the rank of
its target, and `CanContractEdge` takes an edge out and puts it back. They agree with the paths of
the graph, and leave its edges and ranks.
-/

import ContainerScheduler.Analysis.EdgeContraction

namespace ContainerScheduler.Analysis

open Math
open Compiler

/-! ## Paths -/

/-- A path without a cycle in the graph is simple. -/
theorem nodup_of_isChain {E : ℕ → ℕ → Prop} (hacyclic : Math.Acyclic E) {nodes : List ℕ}
    (hchain : nodes.IsChain E) : nodes.Nodup := by
  have hways : nodes.Pairwise (Relation.TransGen E) :=
    (hchain.imp fun _ _ hE => .single hE).pairwise
  apply hways.imp
  rintro u v hway rfl
  exact hacyclic u hway

/-- `FindPath` finds a simple path, if there is one. -/
structure FindsPath (rep : Rep) (x y : ℕ) (maxPathLen : ℤ) (path : ℤ → ℕ) (len : ℤ)
    (path' : ℤ → ℕ) : Prop where
  zero_iff : len = 0 ↔ ¬Relation.ReflTransGen rep.Edge x y
  simple : len ≠ 0 → ∃ nodes : List ℕ, len = nodes.length ∧ nodes.Nodup ∧
    nodes.head? = some x ∧ nodes.getLast? = some y ∧ nodes.IsChain rep.Edge ∧
    ∀ i : ℕ, (i : ℤ) < min len maxPathLen → nodes[i]? = some (path' i)
  /-- Nothing is written outside the array. -/
  outside : ∀ i, i < 0 ∨ maxPathLen ≤ i → path' i = path i

theorem reaches_of_isChain {E : ℕ → ℕ → Prop} {nodes : List ℕ} (hchain : nodes.IsChain E) {x y : ℕ}
    (hhead : nodes.head? = some x) (hlast : nodes.getLast? = some y) :
    Relation.ReflTransGen E x y := by
  cases nodes with
  | nil => cases hhead
  | cons a nodes =>
      obtain rfl := Option.some.inj hhead
      rw [List.getLast?_eq_some_getLast (List.cons_ne_nil a nodes)] at hlast
      exact List.relationReflTransGen_of_exists_isChain_cons nodes hchain (Option.some.inj hlast)

theorem findPath_spec {rep : Rep} (hrep : Represents rep rep.Edge) (x y : ℕ) (maxPathLen : ℤ)
    (path : ℤ → ℕ) :
    ∃ len path', rep.findPath x y maxPathLen path = some (len, path') ∧
      FindsPath rep x y maxPathLen path len path' := by
  have hall : ∀ u, ∀ w ∈ (rep.outSet u).valueSequence, w ∈ Finset.range rep.size :=
    fun u w hw => Finset.mem_range.mpr (hrep.live u w hw).2.1
  obtain ⟨len, path', hsearch, hfound, houtside⟩ :=
    pathSearch_start hall x y maxPathLen path
  rw [Finset.card_range] at hsearch
  refine ⟨len, path', hsearch, ?_⟩
  rcases hfound with ⟨rfl, hnone⟩ | ⟨nodes, rfl, hstored⟩
  · exact ⟨iff_of_true rfl hnone, fun h => (h rfl).elim, houtside⟩
  · have hpath : Relation.ReflTransGen rep.Edge x y :=
      reaches_of_isChain hstored.chain hstored.head hstored.last
    have hne : nodes ≠ [] := by
      rintro rfl
      cases hstored.head
    have hlen : (nodes.length : ℤ) ≠ 0 :=
      Nat.cast_ne_zero.mpr (List.length_pos_iff.mpr hne).ne'
    refine ⟨iff_of_false hlen (not_not.mpr hpath), fun _ => ?_, houtside⟩
    refine ⟨nodes, rfl, nodup_of_isChain hrep.acyclic hstored.chain, hstored.head, hstored.last,
      hstored.chain, ?_⟩
    intro i hi
    obtain ⟨hlt, hroom⟩ := lt_min_iff.mp hi
    exact hstored.stored i (Nat.cast_lt.mp hlt) hroom

/-- `IsReachable` says whether there is a path. -/
theorem isReachable_spec {rep : Rep} (hrep : Represents rep rep.Edge) (x y : ℕ) :
    ∃ reachable, rep.isReachable x y = some reachable ∧
      (reachable = true ↔ Relation.ReflTransGen rep.Edge x y) := by
  obtain ⟨len, path', hsearch, hfinds⟩ := findPath_spec hrep x y 0 fun _ => 0
  refine ⟨decide (len > 0), by rw [Rep.isReachable, hsearch, Option.map_some], ?_⟩
  have hnonneg : 0 ≤ len := by
    by_cases hzero : len = 0
    · exact hzero.ge
    · obtain ⟨nodes, rfl, -⟩ := hfinds.simple hzero
      exact Int.natCast_nonneg _
  rw [decide_eq_true_iff, ← not_not (a := Relation.ReflTransGen rep.Edge x y), ← hfinds.zero_iff]
  omega

/-! ## Contraction -/

/-- The edges, the nodes and the ranks are as they were, and no marker is left. -/
structure SameGraph (rep rep' : Rep) : Prop where
  size : rep'.size = rep.size
  rank : rep'.rank = rep.rank
  free : rep'.freeNodes = rep.freeNodes
  out : ∀ u v, v ∈ rep'.outSet u ↔ v ∈ rep.outSet u
  into : ∀ u v, v ∈ rep'.inSet u ↔ v ∈ rep.inSet u
  visited : ∀ v, rep'.visited v = false

/-- An edge that is taken out can be put back without a change of the ranks. -/
theorem insertEdge_removed {rep removed : Rep} {a b : ℕ} (hrep : Represents rep rep.Edge)
    (hedge : rep.Edge a b) (hremoved : Represents removed (cut rep.Edge a b))
    (hsize : removed.size = rep.size) (hrank : removed.rank = rep.rank)
    (hfree : removed.freeNodes = rep.freeNodes) :
    ∃ restored, removed.insertEdge a b = some (true, restored) ∧ SameGraph rep restored := by
  have hne : a ≠ b := fun heq => hrep.irrefl b (heq ▸ hedge)
  have hnew : ((removed.outSet a).insert b).1 = true :=
    (OrderedSet.insert_spec _ _).1.mpr fun hmem => ((hremoved.out a b).mp hmem).2 ⟨rfl, rfl⟩
  have hup : removed.rank a ≤ removed.rank b := by
    rw [hrank]
    exact (hrep.ranked a b hedge).le
  have hback : ∀ u v, cut rep.Edge a b u v ∨ u = a ∧ v = b ↔ rep.Edge u v := by
    intro u v
    constructor
    · rintro (hcut | ⟨rfl, rfl⟩)
      · exact hcut.1
      · exact hedge
    · intro hE
      by_cases hpair : u = a ∧ v = b
      · exact .inr hpair
      · exact .inl ⟨hE, hpair⟩
  refine ⟨{ removed with
    outSet := Function.update removed.outSet a ((removed.outSet a).insert b).2
    inSet := Function.update removed.inSet b ((removed.inSet b).insert a).2 }, ?_, hsize, hrank,
    hfree, ?_, ?_, hremoved.visited⟩
  · rw [Rep.insertEdge, if_neg hne, hnew, Bool.not_true, if_neg Bool.false_ne_true]
    exact if_pos hup
  · intro u v
    exact mem_update_insert.trans ((or_congr_left (hremoved.out u v)).trans (hback u v))
  · intro u v
    refine mem_update_insert.trans ((or_congr_left (hremoved.into v u)).trans ?_)
    rw [and_comm (a := u = b), hback, hrep.into]

/-- **Both say the same about a contraction**, and one that is not made changes nothing. -/
theorem canContractEdge_spec {rep : Rep} {a b : ℕ} (hrep : Represents rep rep.Edge)
    (hedge : rep.Edge a b) :
    ∃ result kept contracted, rep.canContractEdge a b = some (result, kept) ∧
      rep.contractEdge a b = some (result, contracted) ∧ SameGraph rep kept ∧
      (result = false → SameGraph rep contracted) := by
  obtain ⟨ha, hb⟩ := hrep.live a b hedge
  obtain ⟨removed, hremove, hremoved, hsize, hrank, hfree⟩ := removeEdge_spec hrep hedge
  have hlive : ∀ v, rep.Live v → removed.Live v := by
    intro v hv
    rw [Rep.Live, hsize, hfree]
    exact hv
  obtain ⟨reachable, hreachable, hiff⟩ :=
    isReachableNonConst_spec hremoved (hlive a ha) (hlive b hb)
  obtain ⟨restored, hinsert, hsame⟩ :=
    insertEdge_removed hrep hedge hremoved hsize hrank hfree
  obtain ⟨result, answers, contracted, hanswers, hcontracted⟩ := contractEdge_spec hrep ha hb hedge
  have hcan : rep.canContractEdge a b = some (!reachable, restored) := by
    simp only [Rep.canContractEdge, hremove, hreachable, hinsert, Option.bind_eq_bind,
      Option.bind_some, Option.pure_def]
  have hcontract : rep.contractEdge a b = some (result, contracted) := by
    rw [contractEdge_eq, hanswers, Option.map_some]
  have hresult : result = !reachable := by
    rw [← Bool.not_eq_eq_eq_not, Bool.eq_iff_iff, hiff, ← hcontracted.refused_iff,
      Bool.not_eq_true']
  refine ⟨result, restored, contracted, hresult ▸ hcan, hcontract, hsame, ?_⟩
  rintro rfl
  have htrue : reachable = true := by
    rw [← Bool.not_eq_false', ← hresult]
  simp only [Rep.contractEdge, hremove, hreachable, htrue, if_true, hinsert, Option.bind_eq_bind,
    Option.bind_some, Option.pure_def] at hcontract
  cases hcontract
  exact hsame

/-! ## Sequences of calls -/

theorem SameGraph.represents {rep rep' : Rep} (hrep : Represents rep rep.Edge)
    (hsame : SameGraph rep rep') : Represents rep' rep'.Edge where
  out _ _ := Iff.rfl
  into u v := (hsame.into v u).trans ((hrep.into u v).trans (hsame.out u v).symm)
  live u v hedge := by
    rw [Rep.Live, Rep.Live, hsame.size, hsame.free]
    exact hrep.live u v ((hsame.out u v).mp hedge)
  ranked u v hedge := by
    rw [hsame.rank]
    exact hrep.ranked u v ((hsame.out u v).mp hedge)
  rank_lt := by
    rw [hsame.size, hsame.rank]
    exact hrep.rank_lt
  rank_inj := by
    rw [hsame.size, hsame.rank]
    exact hrep.rank_inj
  visited := hsame.visited
  free_nodup := hsame.free ▸ hrep.free_nodup
  free_lt := by
    rw [hsame.free, hsame.size]
    exact hrep.free_lt

/-- Calls that ask leave a graph that represents its edges. -/
theorem represents_of_pathCall {rep rep' : Rep} {call : PathCall} (hrep : Represents rep rep.Edge)
    (hallowed : call.Allowed rep) (hexec : call.exec rep = some rep') :
    Represents rep' rep'.Edge := by
  cases call with
  | change call => exact represents_of_exec hrep hallowed hexec
  | findPath x y maxPathLen path =>
      obtain ⟨found, -, rfl⟩ := Option.map_eq_some_iff.mp hexec
      exact hrep
  | isReachable x y =>
      obtain ⟨reachable, -, rfl⟩ := Option.map_eq_some_iff.mp hexec
      exact hrep
  | isReachableNonConst x y =>
      obtain ⟨reachable, hreachable, -⟩ := isReachableNonConst_spec hrep hallowed.1 hallowed.2
      rw [PathCall.exec, hreachable] at hexec
      cases hexec
      exact hrep
  | canContractEdge a b =>
      obtain ⟨result, kept, contracted, hcan, -, hsame, -⟩ :=
        canContractEdge_spec hrep (Rep.hasEdge_iff.mp hallowed.2)
      rw [PathCall.exec, hcan] at hexec
      cases hexec
      exact hsame.represents hrep

theorem represents_of_pathMachine {rep : Rep}
    (hreached : pathMachine.Reaches Machine.Unguarded (some rep)) : Represents rep rep.Edge := by
  have hall : ∀ state, pathMachine.Reaches Machine.Unguarded state →
      ∀ rep : Rep, state = some rep → Represents rep rep.Edge := by
    intro state hstate
    induction hstate with
    | init =>
        rintro rep hrep
        obtain rfl := Option.some.inj hrep
        exact represents_new.edge_eq ▸ represents_new
    | @step source target call _ _ htaken ih =>
        rintro rep' rfl
        cases source with
        | none => cases htaken
        | some rep =>
            simp only [pathMachine, Option.ite_none_right_eq_some, Option.some.injEq] at htaken
            exact represents_of_pathCall (ih rep rfl) htaken.1 htaken.2
  exact hall _ hreached rep rfl

/-- **The answers agree** in every graph that is reached: the two searches with the paths, and the
two contractions with each other. None of those that ask changes an edge or a rank. -/
theorem reachability_agrees {rep : Rep}
    (hreached : pathMachine.Reaches Machine.Unguarded (some rep)) :
    (∀ v, rep.visited v = false) ∧
    (∀ x y, rep.Live x → rep.Live y →
      ∃ reachable, (reachable = true ↔ Relation.ReflTransGen rep.Edge x y) ∧
        rep.isReachableNonConst x y = some (reachable, rep) ∧
        rep.isReachable x y = some reachable ∧
        ∀ maxPathLen path, ∃ len path', rep.findPath x y maxPathLen path = some (len, path') ∧
          FindsPath rep x y maxPathLen path len path') ∧
    ∀ a b, rep.hasEdge a b = true →
      ∃ result kept contracted, rep.canContractEdge a b = some (result, kept) ∧
        rep.contractEdge a b = some (result, contracted) ∧ SameGraph rep kept ∧
        (result = false → SameGraph rep contracted) := by
  have hrep := represents_of_pathMachine hreached
  refine ⟨hrep.visited, ?_, ?_⟩
  · intro x y hx hy
    obtain ⟨reachable, hnonConst, hiff⟩ := isReachableNonConst_spec hrep hx hy
    obtain ⟨reachable', hconst, hiff'⟩ := isReachable_spec hrep x y
    obtain rfl : reachable' = reachable := Bool.eq_iff_iff.mpr (hiff'.trans hiff.symm)
    exact ⟨reachable', hiff, hnonConst, hconst, findPath_spec hrep x y⟩
  · intro a b hedge
    exact canContractEdge_spec hrep (Rep.hasEdge_iff.mp hedge)

/-- A triangle, where the nodes at the ends of the long side have another path. -/
theorem reachability_agrees_triangle :
    ∃ rep, pathMachine.Reaches Machine.Unguarded (some rep) ∧ rep.hasEdge 0 2 = true ∧
      ∃ result kept contracted, rep.canContractEdge 0 2 = some (result, kept) ∧
        rep.contractEdge 0 2 = some (result, contracted) ∧ SameGraph rep kept ∧
        (result = false → SameGraph rep contracted) := by
  obtain ⟨state, hreached, hstate⟩ := pathMachine.exists_reaches_unguarded
    [.change .newNode, .change .newNode, .change .newNode, .change (.insertEdge 0 1),
      .change (.insertEdge 1 2), .change (.insertEdge 0 2), .canContractEdge 0 2]
    (Q := fun state => state.any fun (rep : Rep) => rep.hasEdge 0 2) (by decide +kernel)
  obtain ⟨rep, rfl, hedge⟩ := (Option.any_eq_true _ _).mp hstate
  exact ⟨rep, hreached, hedge, (reachability_agrees hreached).2.2 0 2 hedge⟩

end ContainerScheduler.Analysis
