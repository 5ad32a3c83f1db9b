/-
# Cycles are detected exactly

The graph of a `Rep` is a relation. What the code keeps about it is one invariant: the
sets of successors and predecessors both list the relation, the ranks are a permutation
of the ids below the size, and each pair of the relation goes up in rank.

With it the bounded search forward meets the source of a new edge exactly when the
target reaches it, and the ranks dealt out after both searches fit the old relation and
the new pair. The one call that leaves the invariant is `RemoveEdge` without an edge.
-/

import ContainerScheduler.Compiler.GraphCycles
import ContainerScheduler.Math.Contraction

namespace ContainerScheduler.Analysis

open Math
open Compiler

/-- A graph represents a relation. -/
structure Represents (rep : Rep) (E : ℕ → ℕ → Prop) : Prop where
  out : ∀ u v, v ∈ rep.outSet u ↔ E u v
  into : ∀ u v, u ∈ rep.inSet v ↔ E u v
  live : ∀ u v, E u v → rep.Live u ∧ rep.Live v
  ranked : ∀ u v, E u v → rep.rank u < rep.rank v
  rank_lt : ∀ v < rep.size, rep.rank v < rep.size
  rank_inj : ∀ v < rep.size, ∀ w < rep.size, rep.rank v = rep.rank w → v = w
  visited : ∀ v, rep.visited v = false
  free_nodup : rep.freeNodes.Nodup
  free_lt : ∀ v ∈ rep.freeNodes, v < rep.size

namespace Represents

variable {rep : Rep} {E : ℕ → ℕ → Prop}

/-- The relation is the one of the edges. -/
theorem edge_eq (hrep : Represents rep E) : rep.Edge = E := by
  funext u v
  exact propext (hrep.out u v)

theorem irrefl (hrep : Represents rep E) (v : ℕ) : ¬ E v v := fun hE =>
  absurd (hrep.ranked v v hE) (lt_irrefl _)

/-- The graph has no cycle. -/
theorem acyclic (hrep : Represents rep E) : Math.Acyclic E := by
  have hless : ∀ u v, Relation.TransGen E u v → rep.rank u < rep.rank v := by
    intro u v hway
    induction hway with
    | single hE => exact hrep.ranked _ _ hE
    | tail _ hE ih => exact ih.trans (hrep.ranked _ _ hE)
  exact fun v hcycle => absurd (hless v v hcycle) (lt_irrefl _)

/-- Along a path the rank does not go down. -/
theorem rank_le (hrep : Represents rep E) {u v : ℕ} (hpath : Relation.ReflTransGen E u v) :
    rep.rank u ≤ rep.rank v := by
  induction hpath with
  | refl => exact le_rfl
  | tail _ hE ih => exact ih.trans (hrep.ranked _ _ hE).le

/-- The ranks are a permutation of the ids. -/
theorem rank_perm (hrep : Represents rep E) :
    ((List.range rep.size).map rep.rank).Perm (List.range rep.size) := by
  have hnodup : ((List.range rep.size).map rep.rank).Nodup :=
    List.nodup_range.map_on fun v hv w hw =>
      hrep.rank_inj v (List.mem_range.mp hv) w (List.mem_range.mp hw)
  refine (List.subperm_of_subset hnodup fun rank hrank => ?_).perm_of_length_le (by simp)
  obtain ⟨v, hv, rfl⟩ := List.mem_map.mp hrank
  exact List.mem_range.mpr (hrep.rank_lt v (List.mem_range.mp hv))

end Represents

theorem represents_new : Represents .new fun _ _ => False := by
  refine ⟨?_, ?_, ?_, ?_, ?_, ?_, ?_, ?_, ?_⟩ <;> simp [Rep.new]

/-! ## Nodes -/

section Nodes

variable {rep : Rep} {E : ℕ → ℕ → Prop}

/-- A new node has no edges. -/
theorem represents_newNode (hrep : Represents rep E) : Represents rep.newNode.2 E := by
  obtain ⟨hout, hinto, hlive, hranked, hlt, hinj, hvisited, hnodup, hfree⟩ := hrep
  rw [Rep.newNode]
  split
  · rename_i hnil
    have hold : ∀ u v, E u v → u < rep.size ∧ v < rep.size := fun u v hE =>
      ⟨(hlive u v hE).1.1, (hlive u v hE).2.1⟩
    have hkept : ∀ v < rep.size, Function.update rep.rank rep.size rep.size v = rep.rank v :=
      fun v hv => Function.update_of_ne hv.ne _ _
    refine ⟨fun u v => ?_, fun u v => ?_, fun u v hE => ?_, fun u v hE => ?_, fun v hv => ?_,
      fun v hv w hw heq => ?_, fun v => ?_, hnodup, ?_⟩
    · by_cases hu : u = rep.size
      · subst hu
        simpa using fun hE => absurd (hold _ _ hE).1 (lt_irrefl _)
      · simpa [Function.update_of_ne hu] using hout u v
    · by_cases hv : v = rep.size
      · subst hv
        simpa using fun hE => absurd (hold _ _ hE).2 (lt_irrefl _)
      · simpa [Function.update_of_ne hv] using hinto u v
    · obtain ⟨hu, hv⟩ := hlive u v hE
      exact ⟨⟨Nat.lt_succ_of_lt hu.1, hu.2⟩, ⟨Nat.lt_succ_of_lt hv.1, hv.2⟩⟩
    · simp only [hkept u (hold u v hE).1, hkept v (hold u v hE).2]
      exact hranked u v hE
    · obtain rfl | hv := Nat.lt_succ_iff_lt_or_eq.mp hv |>.symm
      · simp
      · simp only [hkept v hv]
        exact Nat.lt_succ_of_lt (hlt v hv)
    · obtain rfl | hv := (Nat.lt_succ_iff_lt_or_eq.mp hv).symm <;>
        obtain rfl | hw := (Nat.lt_succ_iff_lt_or_eq.mp hw).symm
      · rfl
      · simp only [Function.update_self, hkept w hw] at heq
        exact absurd (hlt w hw) (by omega)
      · simp only [Function.update_self, hkept v hv] at heq
        exact absurd (hlt v hv) (by omega)
      · simp only [hkept v hv, hkept w hw] at heq
        exact hinj v hv w hw heq
    · by_cases hv : v = rep.size
      · simp [hv]
      · simpa [Function.update_of_ne hv] using hvisited v
    · simp [hnil]
  · rename_i node rest hfreeNodes
    rw [hfreeNodes] at hnodup hfree
    refine ⟨hout, hinto, fun u v hE => ?_, hranked, hlt, hinj, hvisited,
      (List.nodup_cons.mp hnodup).2, fun v hv => hfree v (List.mem_cons_of_mem node hv)⟩
    obtain ⟨hu, hv⟩ := hlive u v hE
    rw [Rep.Live, hfreeNodes] at hu hv
    exact ⟨⟨hu.1, fun hmem => hu.2 (List.mem_cons_of_mem node hmem)⟩,
      ⟨hv.1, fun hmem => hv.2 (List.mem_cons_of_mem node hmem)⟩⟩

theorem eraseFrom_spec (node : ℕ) {list : List ℕ} (hnodup : list.Nodup)
    (sets : ℕ → OrderedSet ℕ) (hmem : ∀ y ∈ list, node ∈ sets y) :
    ∃ erased, Rep.eraseFrom node list sets = some erased ∧
      ∀ y v, v ∈ erased y ↔ v ∈ sets y ∧ ¬ (v = node ∧ y ∈ list) := by
  induction list generalizing sets with
  | nil => exact ⟨sets, rfl, by simp⟩
  | cons y list ih =>
      obtain ⟨hy, hnodup⟩ := List.nodup_cons.mp hnodup
      obtain ⟨first, hfirst, hspec⟩ := OrderedSet.erase_spec (hmem y List.mem_cons_self)
      obtain ⟨erased, herased, hrest⟩ :=
        ih hnodup (Function.update sets y first) fun other hother => by
          rw [Function.update_of_ne fun heq : other = y => hy (heq ▸ hother)]
          exact hmem other (List.mem_cons_of_mem y hother)
      refine ⟨erased, by simp [Rep.eraseFrom, hfirst, herased], fun other v => ?_⟩
      rw [hrest, List.mem_cons]
      by_cases hother : other = y
      · subst hother
        rw [Function.update_self, hspec]
        simp [hy]
      · rw [Function.update_of_ne hother]
        simp [hother]

/-- Taking away all edges of a node and freeing it. -/
theorem Represents.without (hrep : Represents rep E) {node : ℕ} (hnode : rep.Live node)
    {rep' : Rep} (hout : ∀ u v, v ∈ rep'.outSet u ↔ E u v ∧ u ≠ node ∧ v ≠ node)
    (hinto : ∀ u v, u ∈ rep'.inSet v ↔ E u v ∧ u ≠ node ∧ v ≠ node)
    (hsize : rep'.size = rep.size) (hrank : rep'.rank = rep.rank)
    (hvisited : rep'.visited = rep.visited) (hfree : rep'.freeNodes = node :: rep.freeNodes) :
    Represents rep' fun u v => E u v ∧ u ≠ node ∧ v ≠ node := by
  refine ⟨hout, hinto, fun u v hE => ?_, fun u v hE => ?_, ?_, ?_, ?_, ?_, ?_⟩
  · obtain ⟨hu, hv⟩ := hrep.live u v hE.1
    rw [Rep.Live, Rep.Live, hsize, hfree]
    exact ⟨⟨hu.1, List.not_mem_cons_of_ne_of_not_mem hE.2.1 hu.2⟩,
      ⟨hv.1, List.not_mem_cons_of_ne_of_not_mem hE.2.2 hv.2⟩⟩
  · rw [hrank]
    exact hrep.ranked u v hE.1
  · rw [hsize, hrank]
    exact hrep.rank_lt
  · rw [hsize, hrank]
    exact hrep.rank_inj
  · rw [hvisited]
    exact hrep.visited
  · rw [hfree]
    exact hrep.free_nodup.cons hnode.2
  · rw [hfree, hsize]
    exact List.forall_mem_cons.mpr ⟨hnode.1, hrep.free_lt⟩

/-- `RemoveNode` takes away exactly the edges of the node. -/
theorem removeNode_spec (hrep : Represents rep E) {node : ℕ} (hnode : rep.Live node) :
    ∃ rep', rep.removeNode node = some rep' ∧
      Represents rep' fun u v => E u v ∧ u ≠ node ∧ v ≠ node := by
  obtain ⟨inSet, hin, hinSpec⟩ := eraseFrom_spec node (rep.outSet node).nodup rep.inSet
    fun y hy => (hrep.into node y).mpr ((hrep.out node y).mp hy)
  have hinNode : ∀ v, v ∈ inSet node ↔ E v node := by
    intro v
    rw [hinSpec, hrep.into, and_iff_left]
    exact fun hself => hrep.irrefl node ((hrep.out node node).mp hself.2)
  obtain ⟨outSet, hout, houtSpec⟩ := eraseFrom_spec node (inSet node).nodup rep.outSet
    fun y hy => (hrep.out y node).mpr ((hinNode y).mp hy)
  have hout' : ∀ u v, v ∈ Function.update outSet node .empty u ↔ E u v ∧ u ≠ node ∧ v ≠ node := by
    intro u v
    by_cases hu : u = node
    · simp [hu]
    · rw [Function.update_of_ne hu, houtSpec, hrep.out, OrderedSet.mem_valueSequence, hinNode]
      grind
  have hinto' : ∀ u v, u ∈ Function.update inSet node .empty v ↔ E u v ∧ u ≠ node ∧ v ≠ node := by
    intro u v
    by_cases hv : v = node
    · simp [hv]
    · rw [Function.update_of_ne hv, hinSpec, hrep.into, OrderedSet.mem_valueSequence, hrep.out]
      grind
  have hresult : rep.removeNode node = some
      { rep with
        inSet := Function.update inSet node .empty
        outSet := Function.update outSet node .empty
        freeNodes := node :: rep.freeNodes } := by
    simp [Rep.removeNode, hin, hout]
  exact ⟨_, hresult, hrep.without hnode hout' hinto' rfl rfl rfl rfl⟩

end Nodes

/-! ## The searches -/

section Searches

variable {rep : Rep} {E E' : ℕ → ℕ → Prop} {x y : ℕ}

/-- What a search forward from `y`, bounded by the rank of `x`, has found. -/
structure FoundForward (rep : Rep) (E : ℕ → ℕ → Prop) (x y : ℕ) (found : Found ℕ) : Prop where
  visited_iff : ∀ v, found.visited v = true ↔ v ∈ found.marked
  nodup : found.marked.Nodup
  between : ∀ v ∈ found.marked,
    v < rep.size ∧ rep.rank y ≤ rep.rank v ∧ rep.rank v < rep.rank x
  stopped_iff : found.stopped = true ↔ Relation.ReflTransGen E y x
  started : found.stopped = false → y ∈ found.marked
  closed : found.stopped = false → ∀ u ∈ found.marked, ∀ w, E u w →
    w ≠ x ∧ (rep.rank w < rep.rank x → w ∈ found.marked)

/-- The search forward. The sets may list other edges than the relation has from nodes at
or above the bound, since no such node is expanded. -/
theorem forwardDFS_spec (rep : Rep) (hout : ∀ u v, v ∈ rep.outSet u ↔ E' u v)
    (hbelow : ∀ u v, rep.rank u < rep.rank x → (E' u v ↔ E u v))
    (hlive : ∀ u v, E' u v → v < rep.size) (hranked : ∀ u v, E u v → rep.rank u < rep.rank v)
    (hinj : ∀ v < rep.size, ∀ w < rep.size, rep.rank v = rep.rank w → v = w)
    (hvisited : ∀ v, rep.visited v = false) (hx : x < rep.size) (hy : y < rep.size)
    (hlt : rep.rank y < rep.rank x) :
    ∃ found, rep.forwardDFS y (rep.rank x) = some found ∧ FoundForward rep E x y found := by
  obtain ⟨found, hfound, hmarks, hnodup, -, hreached, hstops, hstarted, hclosed⟩ :=
    search_start (fun v => (rep.outSet v).valueSequence)
      (fun w => rep.rank w == rep.rank x) (fun w => rep.rank w < rep.rank x) rep.visited y
      List.nodup_range
      (fun u _ w hw _ => List.mem_range.mpr (hlive u w ((hout u w).mp hw)))
      (List.mem_range.mpr hy) (Nat.lt_succ_self _)
  have hmarks' : ∀ v, found.visited v = true ↔ v ∈ found.marked := fun v => by
    simpa [hvisited v] using hmarks v
  -- what is marked lies below the bound and is reached through the relation
  have hpath : ∀ v ∈ found.marked, v < rep.size ∧ rep.rank y ≤ rep.rank v ∧
      rep.rank v < rep.rank x ∧ Relation.ReflTransGen E y v := by
    intro v hv
    have hway := hreached v hv
    clear hv
    induction hway with
    | refl => exact ⟨hy, le_rfl, hlt, .refl⟩
    | @tail u w _ hstep ih =>
        obtain ⟨-, hle, hless, hpath⟩ := ih
        have hE' := (hout u w).mp hstep.1
        have hE := (hbelow u w hless).mp hE'
        exact ⟨hlive u w hE', hle.trans (hranked u w hE).le, of_decide_eq_true hstep.2,
          hpath.tail hE⟩
  have hedge : ∀ u ∈ found.marked, ∀ w, w ∈ (rep.outSet u).valueSequence ↔ E u w := by
    intro u hu w
    rw [OrderedSet.mem_valueSequence, hout u w, hbelow u w (hpath u hu).2.2.1]
  have hclosed' : found.stopped = false → ∀ u ∈ found.marked, ∀ w, E u w →
      w ≠ x ∧ (rep.rank w < rep.rank x → w ∈ found.marked) := by
    intro hgo u hu w hE
    obtain ⟨hnot, hkept⟩ := hclosed hgo u hu w ((hedge u hu w).mpr hE)
    refine ⟨fun heq => ?_, fun hless => (hmarks' w).mp (hkept (decide_eq_true hless))⟩
    rw [heq] at hnot
    simp at hnot
  refine ⟨found, hfound, hmarks', hnodup, fun v hv => ?_, ?_, fun hgo => ?_, hclosed'⟩
  · obtain ⟨hsize, hle, hless, -⟩ := hpath v hv
    exact ⟨hsize, hle, hless⟩
  · constructor
    · intro hstopped
      obtain ⟨u, hu, w, hw, hstop⟩ := hstops hstopped
      have hE := (hedge u hu w).mp hw
      have hwx : w = x :=
        hinj w (hlive u w ((hout u w).mp hw)) x hx (by simpa using hstop)
      exact (hpath u hu).2.2.2.tail (hwx ▸ hE)
    · intro hreach
      by_contra hgo
      rw [Bool.not_eq_true] at hgo
      -- whatever `y` reaches is marked or lies beyond `x`
      have hall : ∀ w, Relation.ReflTransGen E y w →
          w ∈ found.marked ∨ rep.rank x < rep.rank w := by
        intro w hw
        induction hw with
        | refl => exact .inl ((hmarks' y).mp (hstarted hgo))
        | @tail u w _ hE ih =>
            obtain hu | hbeyond := ih
            · obtain ⟨hne, hkept⟩ := hclosed' hgo u hu w hE
              obtain hless | heq | hgreater := lt_trichotomy (rep.rank w) (rep.rank x)
              · exact .inl (hkept hless)
              · have hw := hlive u w ((hbelow u w (hpath u hu).2.2.1).mpr hE)
                exact absurd (hinj w hw x hx heq) hne
              · exact .inr hgreater
            · exact .inr (hbeyond.trans (hranked u w hE))
      obtain hmarked | hless := hall x hreach
      · exact absurd (hpath x hmarked).2.2.1 (lt_irrefl _)
      · exact absurd hless (lt_irrefl _)
  · exact (hmarks' y).mp (hstarted hgo)

/-- What a search backward from `x`, bounded by the rank of `y`, has found. -/
structure FoundBackward (rep : Rep) (E : ℕ → ℕ → Prop) (x y : ℕ) (found : Found ℕ) : Prop where
  visited_iff : ∀ v, found.visited v = true ↔ rep.visited v = true ∨ v ∈ found.marked
  nodup : found.marked.Nodup
  fresh : ∀ v ∈ found.marked, rep.visited v = false
  between : ∀ v ∈ found.marked,
    v < rep.size ∧ rep.rank y < rep.rank v ∧ rep.rank v ≤ rep.rank x
  started : x ∈ found.marked
  closed : ∀ w ∈ found.marked, ∀ u, E u w → rep.rank y < rep.rank u →
    u ∈ found.marked ∨ rep.visited u = true

/-- The search backward. The sets may list other edges than the relation has to nodes at
or below the bound. -/
theorem backwardDFS_spec (rep : Rep) (hinto : ∀ u v, u ∈ rep.inSet v ↔ E' u v)
    (habove : ∀ u v, rep.rank y < rep.rank v → (E' u v ↔ E u v))
    (hlive : ∀ u v, E' u v → u < rep.size) (hranked : ∀ u v, E u v → rep.rank u < rep.rank v)
    (hnew : rep.visited x = false) (hx : x < rep.size) (hlt : rep.rank y < rep.rank x) :
    ∃ found, rep.backwardDFS x (rep.rank y) = some found ∧ FoundBackward rep E x y found := by
  obtain ⟨found, hfound, hmarks, hnodup, hfresh, hreached, hstops, hstarted, hclosed⟩ :=
    search_start (fun v => (rep.inSet v).valueSequence)
      (fun _ => false) (fun w => rep.rank y < rep.rank w) rep.visited x List.nodup_range
      (fun v _ w hw _ => List.mem_range.mpr (hlive w v ((hinto w v).mp hw)))
      (List.mem_range.mpr hx) (Nat.lt_succ_self _)
  have hgo : found.stopped = false := by
    rw [← Bool.not_eq_true]
    intro hstopped
    obtain ⟨u, -, w, -, hstop⟩ := hstops hstopped
    exact absurd hstop (by simp)
  have hpath : ∀ v ∈ found.marked,
      v < rep.size ∧ rep.rank y < rep.rank v ∧ rep.rank v ≤ rep.rank x := by
    intro v hv
    have hway := hreached v hv
    clear hv
    induction hway with
    | refl => exact ⟨hx, hlt, le_rfl⟩
    | @tail v u _ hstep ih =>
        obtain ⟨-, hless, hle⟩ := ih
        have hE' := (hinto u v).mp hstep.1
        have hE := (habove u v hless).mp hE'
        exact ⟨hlive u v hE', of_decide_eq_true hstep.2, (hranked u v hE).le.trans hle⟩
  refine ⟨found, hfound, hmarks, hnodup, hfresh, hpath, ?_, fun w hw u hE hless => ?_⟩
  · exact ((hmarks x).mp (hstarted hgo)).resolve_left (by simp [hnew])
  · have hmem := (hinto u w).mpr ((habove u w (hpath w hw).2.1).mpr hE)
    exact ((hmarks u).mp ((hclosed hgo w hw u hmem).2 (decide_eq_true hless))).symm

end Searches

/-! ## Edges -/

section Edges

variable {rep : Rep} {E : ℕ → ℕ → Prop} {x y : ℕ}

/-- What the successors are after a new one, and the predecessors likewise. -/
theorem mem_update_insert {sets : ℕ → OrderedSet ℕ} {a b u v : ℕ} :
    v ∈ Function.update sets a ((sets a).insert b).2 u ↔ v ∈ sets u ∨ u = a ∧ v = b := by
  by_cases hu : u = a
  · subst hu
    rw [Function.update_self, (OrderedSet.insert_spec _ _).2]
    simp
  · simp [hu]

/-- The relation without the pair of an edge. -/
def cut (E : ℕ → ℕ → Prop) (x y : ℕ) : ℕ → ℕ → Prop := fun u v => E u v ∧ ¬ (u = x ∧ v = y)

/-- `RemoveEdge` takes away exactly the edge, when there is one. -/
theorem removeEdge_spec (hrep : Represents rep E) (hedge : E x y) :
    ∃ rep', rep.removeEdge x y = some rep' ∧
      Represents rep' (cut E x y) ∧
      rep'.size = rep.size ∧ rep'.rank = rep.rank ∧ rep'.freeNodes = rep.freeNodes := by
  obtain ⟨out, hout, houtSpec⟩ := OrderedSet.erase_spec ((hrep.out x y).mpr hedge)
  obtain ⟨into, hinto, hintoSpec⟩ := OrderedSet.erase_spec ((hrep.into x y).mpr hedge)
  have hresult : rep.removeEdge x y = some
      { rep with
        outSet := Function.update rep.outSet x out
        inSet := Function.update rep.inSet y into } := by
    simp [Rep.removeEdge, hout, hinto]
  refine ⟨_, hresult, ⟨fun u v => ?_, fun u v => ?_, fun u v hE => hrep.live u v hE.1,
    fun u v hE => hrep.ranked u v hE.1, hrep.rank_lt, hrep.rank_inj, hrep.visited,
    hrep.free_nodup, hrep.free_lt⟩, rfl, rfl, rfl⟩
  · by_cases hu : u = x
    · subst hu
      simp [cut, houtSpec, hrep.out]
    · simp [cut, hu, hrep.out]
  · by_cases hv : v = y
    · subst hv
      simp [cut, hintoSpec, hrep.into]
    · simp [cut, hv, hrep.into]

theorem removeEdge_eq_none (hrep : Represents rep E) (hedge : ¬ E x y) :
    rep.removeEdge x y = none := by
  rw [Rep.removeEdge, OrderedSet.erase_eq_none ((hrep.out x y).not.mpr hedge)]
  rfl

theorem removeEdge_added (hrep : Represents rep E) (hedge : ¬ E x y) (visited : ℕ → Bool) :
    Rep.removeEdge
      { rep with
        visited
        outSet := Function.update rep.outSet x ((rep.outSet x).insert y).2
        inSet := Function.update rep.inSet y ((rep.inSet y).insert x).2 } x y =
      some { rep with visited } := by
  have hout := OrderedSet.erase_insert ((hrep.out x y).not.mpr hedge)
  have hinto := OrderedSet.erase_insert ((hrep.into x y).not.mpr hedge)
  simp [Rep.removeEdge, hout, hinto]

/-- Once all marked nodes have been cleared no marker is left. -/
theorem clearVisitedBits_visited (rep : Rep) {nodes : List ℕ}
    (hmarks : ∀ v, rep.visited v = true → v ∈ nodes) (v : ℕ) :
    (rep.clearVisitedBits nodes).visited v = false := by
  rw [Rep.clearVisitedBits, Bool.eq_false_iff]
  intro hleft
  obtain ⟨hmarked, hnot⟩ := Bool.and_eq_true_iff.mp hleft
  simp [hmarks v hmarked] at hnot

/-- Clearing the markers that a search has set gives the graph before the search. -/
theorem clearVisitedBits_eq (hvisited : ∀ v, rep.visited v = false) {visited : ℕ → Bool}
    {marked : List ℕ} (hmarks : ∀ v, visited v = true → v ∈ marked) :
    Rep.clearVisitedBits { rep with visited } marked = rep := by
  have hclear : (Rep.clearVisitedBits { rep with visited } marked).visited = rep.visited := by
    funext v
    rw [hvisited v, clearVisitedBits_visited { rep with visited } hmarks]
  exact congrArg (fun visited => ({ rep with visited } : Rep)) hclear

/-- The ranks dealt out after both searches. -/
theorem reorder_spec (hrep : Represents rep E) (hx : rep.Live x) (hy : rep.Live y)
    {forward backward : Found ℕ} (hgo : forward.stopped = false) {added searched : Rep}
    (hfront : FoundForward added E x y forward) (hback : FoundBackward searched E x y backward)
    (haddedSize : added.size = rep.size) (haddedRank : added.rank = rep.rank)
    (hsize : searched.size = rep.size) (hrank : searched.rank = rep.rank)
    (hvisited : searched.visited = forward.visited) :
    let rank' := reorder rep.rank backward.marked forward.marked
    (∀ u v, E u v ∨ u = x ∧ v = y → rank' u < rank' v) ∧ (∀ v < rep.size, rank' v < rep.size) ∧
      ∀ v < rep.size, ∀ w < rep.size, rank' v = rank' w → v = w := by
  obtain ⟨hfvisited, hfnodup, hfbetween, -, hfstarted, hfclosed⟩ := hfront
  obtain ⟨-, hbnodup, hbfresh, hbbetween, hbstarted, hbclosed⟩ := hback
  rw [haddedRank] at hfbetween hfclosed
  rw [hrank] at hbbetween hbclosed
  rw [haddedSize] at hfbetween
  rw [hsize] at hbbetween
  rw [hvisited] at hbfresh hbclosed
  have hsizes : ∀ v ∈ backward.marked ++ forward.marked, v < rep.size := by
    intro v hv
    obtain hv | hv := List.mem_append.mp hv
    · exact (hbbetween v hv).1
    · exact (hfbetween v hv).1
  have hnodup : (backward.marked ++ forward.marked).Nodup := by
    rw [List.nodup_append]
    refine ⟨hbnodup, hfnodup, fun v hv w hw heq => ?_⟩
    have hfresh := hbfresh v hv
    rw [heq, (hfvisited w).mpr hw] at hfresh
    exact absurd hfresh (by simp)
  have hreordered := reordered_reorder hnodup fun v hv w hw =>
    hrep.rank_inj v (hsizes v hv) w (hsizes w hw)
  refine ⟨fun u v => ranked_of_reordered hrep.ranked hreordered hbstarted (hfstarted hgo) ?_ ?_ ?_
    ?_ (hfclosed hgo) ?_, fun v hv => ?_, hreordered.inj hsizes hrep.rank_inj⟩
  · exact fun u w hE heq => hrep.rank_inj w (hrep.live u w hE).2.1 x hx.1 heq
  · exact fun u w hE heq => hrep.rank_inj u (hrep.live u w hE).1.1 y hy.1 heq
  · exact fun u hu => ⟨(hfbetween u hu).2.1, (hfbetween u hu).2.2.le⟩
  · exact fun w hw => ⟨(hbbetween w hw).2.1.le, (hbbetween w hw).2.2⟩
  · exact fun w hw u hE hless => (hbclosed w hw u hE hless).imp id (hfvisited u).mp
  · by_cases hlisted : v ∈ backward.marked ++ forward.marked
    · obtain ⟨w, hw, heq⟩ := hreordered.old v hlisted
      rw [heq]
      exact hrep.rank_lt w (hsizes w hw)
    · obtain ⟨hvb, hvf⟩ := not_or.mp (List.mem_append.not.mp hlisted)
      rw [hreordered.kept v hvb hvf]
      exact hrep.rank_lt v hv

/-- What `InsertEdge` has done. -/
structure Inserted (rep : Rep) (E : ℕ → ℕ → Prop) (x y : ℕ) (result : Bool) (rep' : Rep) :
    Prop where
  refused_iff : result = false ↔ x = y ∨ Relation.ReflTransGen E y x
  unchanged : result = false → rep' = rep
  added : result = true → Represents rep' fun u v => E u v ∨ u = x ∧ v = y
  size_eq : rep'.size = rep.size
  free_eq : rep'.freeNodes = rep.freeNodes

/-- **Insertion.** It is refused exactly when it would close a cycle. -/
theorem insertEdge_spec (hrep : Represents rep E) (hx : rep.Live x) (hy : rep.Live y) :
    ∃ result rep', rep.insertEdge x y = some (result, rep') ∧
      Inserted rep E x y result rep' := by
  rw [Rep.insertEdge]
  by_cases hself : x = y
  · rw [if_pos hself]
    exact ⟨false, rep, rfl, iff_of_true rfl (.inl hself), fun _ => rfl, by simp, rfl, rfl⟩
  rw [if_neg hself]
  by_cases hold : E x y
  · -- the edge is there already
    have hnot : ((rep.outSet x).insert y).1 = false := by
      rw [← Bool.not_eq_true, (OrderedSet.insert_spec _ _).1, not_not]
      exact (hrep.out x y).mpr hold
    have hsame : (fun u v => E u v ∨ u = x ∧ v = y) = E := by
      funext u v
      exact propext ⟨fun h => h.elim id fun heq => heq.1 ▸ heq.2 ▸ hold, .inl⟩
    rw [hnot]
    refine ⟨true, rep, rfl, iff_of_false (by simp) ?_, by simp, fun _ => ?_, rfl, rfl⟩
    swap
    · rw [hsame]
      exact hrep
    rintro (heq | hpath)
    · exact hself heq
    · exact absurd (hrep.ranked x y hold) (not_lt.mpr (hrep.rank_le hpath))
  have hinserted : ((rep.outSet x).insert y).1 = true :=
    (OrderedSet.insert_spec _ _).1.mpr ((hrep.out x y).not.mpr hold)
  rw [hinserted]
  simp only [Bool.not_true, Bool.false_eq_true, if_false]
  have hout : ∀ u v, v ∈ Function.update rep.outSet x ((rep.outSet x).insert y).2 u ↔
      E u v ∨ u = x ∧ v = y := fun u v => by rw [mem_update_insert, hrep.out]
  have hinto : ∀ u v, u ∈ Function.update rep.inSet y ((rep.inSet y).insert x).2 v ↔
      E u v ∨ u = x ∧ v = y := fun u v => by
    rw [mem_update_insert, hrep.into, and_comm (a := v = y)]
  have hlive : ∀ u v, E u v ∨ u = x ∧ v = y → rep.Live u ∧ rep.Live v := by
    rintro u v (hE | ⟨rfl, rfl⟩)
    · exact hrep.live u v hE
    · exact ⟨hx, hy⟩
  have hranks : rep.rank x ≠ rep.rank y := fun heq =>
    hself (hrep.rank_inj x hx.1 y hy.1 heq)
  by_cases hup : rep.rank x ≤ rep.rank y
  · rw [if_pos hup]
    have hless := lt_of_le_of_ne hup hranks
    refine ⟨true, _, rfl, iff_of_false (by simp) ?_, by simp, fun _ => ?_, rfl, rfl⟩
    · rintro (heq | hpath)
      · exact hself heq
      · exact absurd hless (not_lt.mpr (hrep.rank_le hpath))
    · refine ⟨hout, hinto, hlive, ?_, hrep.rank_lt, hrep.rank_inj, hrep.visited,
        hrep.free_nodup, hrep.free_lt⟩
      rintro u v (hE | ⟨rfl, rfl⟩)
      · exact hrep.ranked u v hE
      · exact hless
  rw [if_neg hup]
  have hdown : rep.rank y < rep.rank x := not_le.mp hup
  have hbelow : ∀ u v, rep.rank u < rep.rank x → ((E u v ∨ u = x ∧ v = y) ↔ E u v) := by
    intro u v hless
    exact or_iff_left fun heq => absurd hless (heq.1 ▸ lt_irrefl _)
  have habove : ∀ u v, rep.rank y < rep.rank v → ((E u v ∨ u = x ∧ v = y) ↔ E u v) := by
    intro u v hless
    exact or_iff_left fun heq => absurd hless (heq.2 ▸ lt_irrefl _)
  obtain ⟨forward, hforward, hfront⟩ := forwardDFS_spec
    { rep with
      outSet := Function.update rep.outSet x ((rep.outSet x).insert y).2
      inSet := Function.update rep.inSet y ((rep.inSet y).insert x).2 }
    hout hbelow (fun u v hE => (hlive u v hE).2.1) hrep.ranked hrep.rank_inj hrep.visited
    hx.1 hy.1 hdown
  rw [hforward]
  simp only [Option.bind_eq_bind, Option.bind_some]
  by_cases hstopped : forward.stopped = true
  · rw [if_pos hstopped, removeEdge_added hrep hold, Option.bind_some]
    have hclear := clearVisitedBits_eq hrep.visited fun v => (hfront.visited_iff v).mp
    refine ⟨false, _, rfl, iff_of_true rfl (.inr (hfront.stopped_iff.mp hstopped)),
      fun _ => hclear, by simp, ?_, ?_⟩
    · rw [hclear]
    · rw [hclear]
  rw [if_neg hstopped]
  have hgo : forward.stopped = false := Bool.eq_false_iff.mpr hstopped
  have hxf : x ∉ forward.marked := fun hmem => absurd (hfront.between x hmem).2.2 (lt_irrefl _)
  obtain ⟨backward, hbackward, hback⟩ := backwardDFS_spec
    { rep with
      outSet := Function.update rep.outSet x ((rep.outSet x).insert y).2
      inSet := Function.update rep.inSet y ((rep.inSet y).insert x).2
      visited := forward.visited }
    hinto habove (fun u v hE => (hlive u v hE).1.1) hrep.ranked
    (Bool.eq_false_iff.mpr ((hfront.visited_iff x).not.mpr hxf)) hx.1 hdown
  rw [hbackward, Option.bind_some]
  have hreach := hfront.stopped_iff.not.mp hstopped
  refine ⟨true, _, rfl, iff_of_false (by simp) (not_or.mpr ⟨hself, hreach⟩), by simp,
    fun _ => ?_, rfl, rfl⟩
  obtain ⟨hranked, hlt, hinj⟩ := reorder_spec hrep hx hy hgo hfront hback rfl rfl rfl rfl rfl
  refine ⟨hout, hinto, hlive, hranked, hlt, hinj, fun v => ?_, hrep.free_nodup, hrep.free_lt⟩
  refine clearVisitedBits_visited { rep with visited := backward.visited } ?_ v
  intro v hv
  obtain hv | hv := (hback.visited_iff v).mp hv
  · exact List.mem_append_right _ ((hfront.visited_iff v).mp hv)
  · exact List.mem_append_left _ hv

/-- `IsReachableNonConst` decides reachability and leaves the graph as it is. -/
theorem isReachableNonConst_spec (hrep : Represents rep E) (hx : rep.Live x) (hy : rep.Live y) :
    ∃ reachable, rep.isReachableNonConst x y = some (reachable, rep) ∧
      (reachable = true ↔ Relation.ReflTransGen E x y) := by
  rw [Rep.isReachableNonConst]
  by_cases hself : x = y
  · rw [if_pos hself]
    exact ⟨true, rfl, iff_of_true rfl (hself ▸ .refl)⟩
  rw [if_neg hself]
  by_cases hdown : rep.rank y ≤ rep.rank x
  · rw [if_pos hdown]
    refine ⟨false, rfl, iff_of_false (by simp) fun hpath => hself ?_⟩
    exact hrep.rank_inj x hx.1 y hy.1 (le_antisymm (hrep.rank_le hpath) hdown)
  rw [if_neg hdown]
  obtain ⟨forward, hforward, hfront⟩ := forwardDFS_spec rep hrep.out (fun _ _ _ => Iff.rfl)
    (fun u v hE => (hrep.live u v hE).2.1) hrep.ranked hrep.rank_inj hrep.visited hy.1 hx.1
    (not_le.mp hdown)
  rw [hforward]
  simp only [Option.bind_eq_bind, Option.bind_some]
  rw [clearVisitedBits_eq hrep.visited fun v => (hfront.visited_iff v).mp]
  exact ⟨forward.stopped, rfl, hfront.stopped_iff⟩

/-- The listed insertions with their answers. -/
def insertEdgesAnswers : List (ℕ × ℕ) → Rep → Option (List Bool × Rep)
  | [], rep => some ([], rep)
  | (x, y) :: edges, rep => do
      let inserted ← rep.insertEdge x y
      let rest ← insertEdgesAnswers edges inserted.2
      return (inserted.1 :: rest.1, rest.2)

theorem insertEdges_eq (edges : List (ℕ × ℕ)) (rep : Rep) :
    Rep.insertEdges edges rep = (insertEdgesAnswers edges rep).map Prod.snd := by
  induction edges generalizing rep with
  | nil => rfl
  | cons edge edges ih =>
      simp only [Rep.insertEdges, insertEdgesAnswers, ih, Option.bind_eq_bind,
        Option.map_eq_bind, Option.bind_assoc, Function.comp_def, Option.pure_def,
        Option.bind_some]

theorem insertEdges_spec (edges : List (ℕ × ℕ)) (hrep : Represents rep E)
    (hlive : ∀ edge ∈ edges, rep.Live edge.1 ∧ rep.Live edge.2)
    (hacyclic : Math.Acyclic fun u v => E u v ∨ (u, v) ∈ edges) :
    ∃ answers rep', insertEdgesAnswers edges rep = some (answers, rep') ∧
      (∀ answer ∈ answers, answer = true) ∧
      Represents rep' (fun u v => E u v ∨ (u, v) ∈ edges) ∧
      rep'.size = rep.size ∧ rep'.freeNodes = rep.freeNodes := by
  induction edges generalizing rep E with
  | nil => exact ⟨[], rep, rfl, List.forall_mem_nil _, by simpa using hrep, rfl, rfl⟩
  | cons edge edges ih =>
      obtain ⟨x, y⟩ := edge
      obtain ⟨hhead, htail⟩ := List.forall_mem_cons.mp hlive
      obtain ⟨result, middle, hresult, hinserted⟩ := insertEdge_spec hrep hhead.1 hhead.2
      have hsplit : ∀ u v, (E u v ∨ u = x ∧ v = y) ∨ (u, v) ∈ edges ↔
          E u v ∨ (u, v) ∈ (x, y) :: edges := by
        intro u v
        rw [List.mem_cons, Prod.mk.injEq, or_assoc]
      have haccepted : result = true := by
        rw [← Bool.not_eq_false, hinserted.refused_iff]
        intro hcloses
        have hreaches := hacyclic.not_reaches (x := x) (y := y) (.inr List.mem_cons_self)
        exact hreaches (hcloses.imp id (Relation.ReflTransGen.mono (fun _ _ => .inl) y x))
      have hmiddle := hinserted.added haccepted
      have hsame : ∀ v, middle.Live v ↔ rep.Live v := fun v => by
        rw [Rep.Live, Rep.Live, hinserted.size_eq, hinserted.free_eq]
      obtain ⟨answers, rep', hrest, hanswers, hrep', hsize, hfree⟩ := ih hmiddle
        (fun other hother => (htail other hother).imp (hsame _).mpr (hsame _).mpr)
        (hacyclic.mono fun u v => (hsplit u v).mp)
      refine ⟨result :: answers, rep', ?_, List.forall_mem_cons.mpr ⟨haccepted, hanswers⟩, ?_,
        hsize.trans hinserted.size_eq, hfree.trans hinserted.free_eq⟩
      · rw [insertEdgesAnswers, hresult]
        simp only [Option.bind_eq_bind, Option.bind_some, hrest]
        rfl
      · have hE : (fun u v => (E u v ∨ u = x ∧ v = y) ∨ (u, v) ∈ edges) =
            fun u v => E u v ∨ (u, v) ∈ (x, y) :: edges := by
          funext u v
          exact propext (hsplit u v)
        exact hE ▸ hrep'

/-- The relation after `ContractEdge`: as it was when there is another way along the edge,
and contracted otherwise. -/
def contracted (E : ℕ → ℕ → Prop) (a b : ℕ) : ℕ → ℕ → Prop := fun u v =>
  (Relation.ReflTransGen (cut E a b) a b ∧ E u v) ∨
    (¬ Relation.ReflTransGen (cut E a b) a b ∧ contract (cut E a b) a b u v)

/-- `ContractEdge` with the answers of the insertions that it makes. -/
def contractEdgeAnswers (rep : Rep) (a b : ℕ) : Option (Bool × List Bool × Rep) := do
  let removed ← rep.removeEdge a b
  let (reachable, searched) ← removed.isReachableNonConst a b
  if reachable then
    let restored ← searched.insertEdge a b
    return (false, [restored.1], restored.2)
  else
    let out := searched.outSet b
    let into := searched.inSet b
    let inSet ← Rep.eraseFrom b out.valueSequence (Function.update searched.inSet b .empty)
    let outSet ← Rep.eraseFrom b into.valueSequence (Function.update searched.outSet b .empty)
    let detached :=
      { searched with inSet, outSet, freeNodes := b :: searched.freeNodes }
    let forwarded ← insertEdgesAnswers (out.valueSequence.map fun y => (a, y)) detached
    let merged ← insertEdgesAnswers (into.valueSequence.map fun y => (y, a)) forwarded.2
    return (true, forwarded.1 ++ merged.1, merged.2)

theorem contractEdge_eq (rep : Rep) (a b : ℕ) :
    rep.contractEdge a b =
      (contractEdgeAnswers rep a b).map fun contraction => (contraction.1, contraction.2.2) := by
  simp only [Rep.contractEdge, contractEdgeAnswers, insertEdges_eq, Option.bind_eq_bind,
    Option.map_eq_bind, Option.bind_assoc, Function.comp_def, Option.pure_def, Option.bind_some]
  congr 1
  funext removed
  congr 1
  funext searched
  split <;> simp only [Option.bind_assoc, Option.bind_some]

/-- What `ContractEdge` has done. -/
structure Contracted (rep : Rep) (E : ℕ → ℕ → Prop) (a b : ℕ) (result : Bool)
    (answers : List Bool) (rep' : Rep) : Prop where
  refused_iff : result = false ↔ Relation.ReflTransGen (cut E a b) a b
  inserted : ∀ answer ∈ answers, answer = true
  represents : Represents rep' (contracted E a b)
  size_eq : rep'.size = rep.size
  free_eq : rep'.freeNodes = if result then b :: rep.freeNodes else rep.freeNodes

/-- `ContractEdge` when there is another way along the edge. -/
theorem contractEdge_refused {a b : ℕ} (hrep : Represents rep E) (hedge : E a b)
    {removed : Rep}
    (hremoved : Represents removed (cut E a b)) (ha : removed.Live a) (hb : removed.Live b) :
    ∃ restored, removed.insertEdge a b = some (true, restored) ∧ Represents restored E ∧
      restored.size = removed.size ∧ restored.freeNodes = removed.freeNodes := by
  obtain ⟨result, restored, hresult, hinserted⟩ := insertEdge_spec hremoved ha hb
  have haccepted : result = true := by
    rw [← Bool.not_eq_false, hinserted.refused_iff]
    intro hcloses
    refine hrep.acyclic.not_reaches hedge (hcloses.imp id ?_)
    exact Relation.ReflTransGen.mono (fun _ _ h => h.1) b a
  rw [haccepted] at hresult hinserted
  refine ⟨restored, hresult, ?_, hinserted.size_eq, hinserted.free_eq⟩
  have hback : (fun u v => cut E a b u v ∨ u = a ∧ v = b) = E := by
    funext u v
    refine propext ⟨fun h => h.elim And.left fun heq => heq.1 ▸ heq.2 ▸ hedge, fun hE => ?_⟩
    by_cases hpair : u = a ∧ v = b
    · exact .inr hpair
    · exact .inl ⟨hE, hpair⟩
  exact hback ▸ hinserted.added rfl

/-- **Contraction.** -/
theorem contractEdge_spec {a b : ℕ} (hrep : Represents rep E) (ha : rep.Live a) (hb : rep.Live b)
    (hedge : E a b) :
    ∃ result answers rep', contractEdgeAnswers rep a b = some (result, answers, rep') ∧
      Contracted rep E a b result answers rep' := by
  obtain ⟨removed, hremoved, hcut, hsize, -, hfree⟩ := removeEdge_spec hrep hedge
  have hsame : ∀ v, removed.Live v ↔ rep.Live v := fun v => by
    rw [Rep.Live, Rep.Live, hsize, hfree]
  obtain ⟨reachable, hreachable, hiff⟩ :=
    isReachableNonConst_spec hcut ((hsame a).mpr ha) ((hsame b).mpr hb)
  rw [contractEdgeAnswers, hremoved]
  simp only [Option.bind_eq_bind, Option.bind_some, hreachable]
  by_cases hother : reachable = true
  · have hway := hiff.mp hother
    obtain ⟨restored, hrestored, hrep', hsize', hfree'⟩ := contractEdge_refused hrep hedge hcut
      ((hsame a).mpr ha) ((hsame b).mpr hb)
    have hE : contracted E a b = E := by
      funext u v
      exact propext ⟨fun h => h.elim And.right fun h => absurd hway h.1, fun h => .inl ⟨hway, h⟩⟩
    rw [if_pos hother, hrestored]
    exact ⟨false, [true], restored, rfl, iff_of_true rfl hway,
      List.forall_mem_singleton.mpr rfl, hE.symm ▸ hrep', hsize'.trans hsize, hfree'.trans hfree⟩
  have hway := hiff.not.mp hother
  rw [if_neg hother]
  have hself : ∀ v, ¬ cut E a b v v := hcut.irrefl
  -- the sets of the second node are moved away, and it is taken out of the others
  obtain ⟨inSet, hin, hinSpec⟩ := eraseFrom_spec b (removed.outSet b).nodup
    (Function.update removed.inSet b .empty) fun y hy => by
      have hby := (hcut.out b y).mp hy
      rw [Function.update_of_ne fun heq : y = b => hself b (heq ▸ hby)]
      exact (hcut.into b y).mpr hby
  obtain ⟨outSet, hout, houtSpec⟩ := eraseFrom_spec b (removed.inSet b).nodup
    (Function.update removed.outSet b .empty) fun y hy => by
      have hyb := (hcut.into y b).mp hy
      rw [Function.update_of_ne fun heq : y = b => hself b (heq ▸ hyb)]
      exact (hcut.out y b).mpr hyb
  rw [hin, Option.bind_some, hout, Option.bind_some]
  have hdetached : Represents { removed with inSet, outSet, freeNodes := b :: removed.freeNodes }
      fun u v => cut E a b u v ∧ u ≠ b ∧ v ≠ b := by
    refine hcut.without ((hsame b).mpr hb) (fun u v => ?_) (fun u v => ?_) rfl rfl rfl rfl
    · rw [houtSpec, OrderedSet.mem_valueSequence, hcut.into]
      by_cases hu : u = b
      · simp [hu]
      · rw [Function.update_of_ne hu, hcut.out]
        grind
    · rw [hinSpec, OrderedSet.mem_valueSequence, hcut.out]
      by_cases hv : v = b
      · simp [hv]
      · rw [Function.update_of_ne hv, hcut.into]
        grind
  -- the edges of the second node that are given to the first one
  have hne : a ≠ b := fun heq => hrep.irrefl b (heq ▸ hedge)
  have hliveA : a < removed.size ∧ a ∉ b :: removed.freeNodes :=
    ⟨((hsame a).mpr ha).1, List.not_mem_cons_of_ne_of_not_mem hne ((hsame a).mpr ha).2⟩
  have hliveOther : ∀ v, v ≠ b → removed.Live v → v < removed.size ∧ v ∉ b :: removed.freeNodes :=
    fun v hv hlive => ⟨hlive.1, List.not_mem_cons_of_ne_of_not_mem hv hlive.2⟩
  have hacyclic : Math.Acyclic (contract (cut E a b) a b) :=
    acyclic_contract hcut.acyclic (apart_of_pair hrep.acyclic hedge hway)
  have hmemOut : ∀ u v, (u, v) ∈ (removed.outSet b).valueSequence.map (fun y => (a, y)) ↔
      u = a ∧ cut E a b b v := by
    intro u v
    simp only [List.mem_map, OrderedSet.mem_valueSequence, hcut.out, Prod.mk.injEq]
    constructor
    · rintro ⟨y, hy, hu, hv⟩
      exact ⟨hu.symm, hv ▸ hy⟩
    · rintro ⟨hu, hv⟩
      exact ⟨v, hv, hu.symm, rfl⟩
  have hmemIn : ∀ u v, (u, v) ∈ (removed.inSet b).valueSequence.map (fun y => (y, a)) ↔
      v = a ∧ cut E a b u b := by
    intro u v
    simp only [List.mem_map, OrderedSet.mem_valueSequence, hcut.into, Prod.mk.injEq]
    constructor
    · rintro ⟨y, hy, hu, hv⟩
      exact ⟨hv.symm, hu ▸ hy⟩
    · rintro ⟨hv, hu⟩
      exact ⟨u, hu, rfl, hv.symm⟩
  obtain ⟨forwardedAnswers, forwarded, hforwarded, hforwardedTrue, hrepForwarded,
      hsizeForwarded, hfreeForwarded⟩ :=
    insertEdges_spec ((removed.outSet b).valueSequence.map fun y => (a, y)) hdetached
      (by
        rintro ⟨u, v⟩ hmem
        obtain ⟨rfl, hv⟩ := (hmemOut u v).mp hmem
        exact ⟨hliveA, hliveOther v (fun heq => hself b (heq ▸ hv)) (hcut.live b v hv).2⟩)
      (hacyclic.mono fun u v h => h.imp id fun hmem => .inl ((hmemOut u v).mp hmem))
  obtain ⟨mergedAnswers, merged, hmerged, hmergedTrue, hrepMerged, hsizeMerged, hfreeMerged⟩ :=
    insertEdges_spec ((removed.inSet b).valueSequence.map fun y => (y, a)) hrepForwarded
      (by
        rintro ⟨u, v⟩ hmem
        obtain ⟨rfl, hu⟩ := (hmemIn u v).mp hmem
        rw [Rep.Live, Rep.Live, hsizeForwarded, hfreeForwarded]
        exact ⟨hliveOther u (fun heq => hself b (heq ▸ hu)) (hcut.live u b hu).1, hliveA⟩)
      (hacyclic.mono fun u v h => by
        rw [hmemOut, hmemIn, or_assoc] at h
        exact h)
  rw [hforwarded, Option.bind_some, hmerged]
  refine ⟨true, forwardedAnswers ++ mergedAnswers, merged, rfl, iff_of_false (by simp) hway,
    fun answer hanswer => ?_, ?_, ?_, ?_⟩
  · exact (List.mem_append.mp hanswer).elim (hforwardedTrue answer) (hmergedTrue answer)
  rotate_left
  · exact hsizeMerged.trans (hsizeForwarded.trans hsize)
  · rw [hfreeMerged, hfreeForwarded, if_pos rfl, hfree]
  have hE : contracted E a b = fun u v => ((cut E a b u v ∧ u ≠ b ∧ v ≠ b) ∨
      (u, v) ∈ (removed.outSet b).valueSequence.map fun y => (a, y)) ∨
        (u, v) ∈ (removed.inSet b).valueSequence.map fun y => (y, a) := by
    funext u v
    rw [hmemOut, hmemIn, or_assoc]
    exact propext ⟨fun h => h.elim (fun h => absurd h.1 hway) And.right, fun h => .inr ⟨hway, h⟩⟩
  rw [hE]
  exact hrepMerged

end Edges

/-! ## Sequences of calls -/

/-- The relation after a call. -/
def GraphCall.effect (E : ℕ → ℕ → Prop) : GraphCall → ℕ → ℕ → Prop
  | .newNode => E
  | .removeNode node => fun u v => E u v ∧ u ≠ node ∧ v ≠ node
  | .insertEdge x y => fun u v => E u v ∨
      (u = x ∧ v = y) ∧ ¬ (x = y ∨ Relation.ReflTransGen E y x)
  | .removeEdge x y => cut E x y
  | .contractEdge a b => contracted E a b

/-- A call to `RemoveEdge` finds an edge to remove. -/
def RemovesExisting : Option Rep → GraphCall → Prop
  | some rep, .removeEdge x y => rep.hasEdge x y = true
  | _, _ => True

instance : (state : Option Rep) → (call : GraphCall) → Decidable (RemovesExisting state call)
  | none, _ => inferInstanceAs (Decidable True)
  | some rep, .removeEdge x y => inferInstanceAs (Decidable (rep.hasEdge x y = true))
  | some _, .newNode => inferInstanceAs (Decidable True)
  | some _, .removeNode _ => inferInstanceAs (Decidable True)
  | some _, .insertEdge _ _ => inferInstanceAs (Decidable True)
  | some _, .contractEdge _ _ => inferInstanceAs (Decidable True)

/-- **Each call** does to the graph what it does to the relation. -/
theorem exec_spec {rep : Rep} {E : ℕ → ℕ → Prop} {call : GraphCall} (hrep : Represents rep E)
    (hallowed : call.Allowed rep) (hfinds : RemovesExisting (some rep) call) :
    ∃ rep', call.exec rep = some rep' ∧ Represents rep' (GraphCall.effect E call) := by
  cases call with
  | newNode => exact ⟨_, rfl, represents_newNode hrep⟩
  | removeNode node => exact removeNode_spec hrep hallowed
  | insertEdge x y =>
      obtain ⟨result, rep', hresult, hinserted⟩ := insertEdge_spec hrep hallowed.1 hallowed.2
      refine ⟨rep', by simp [GraphCall.exec, hresult], ?_⟩
      cases result with
      | false =>
          have hE : GraphCall.effect E (.insertEdge x y) = E := by
            funext u v
            have hcloses := hinserted.refused_iff.mp rfl
            exact propext (or_iff_left fun h => h.2 hcloses)
          rw [hE, hinserted.unchanged rfl]
          exact hrep
      | true =>
          have hE : GraphCall.effect E (.insertEdge x y) = fun u v => E u v ∨ u = x ∧ v = y := by
            funext u v
            have hopen := hinserted.refused_iff.not.mp (by simp)
            exact propext (or_congr_right (and_iff_left hopen))
          rw [hE]
          exact hinserted.added rfl
  | removeEdge x y =>
      obtain ⟨rep', hresult, hrep', -⟩ :=
        removeEdge_spec hrep ((hrep.out x y).mp (Rep.hasEdge_iff.mp hfinds))
      exact ⟨rep', hresult, hrep'⟩
  | contractEdge a b =>
      obtain ⟨⟨ha, hb⟩, hedge⟩ := hallowed
      obtain ⟨result, answers, rep', hresult, hcontracted⟩ :=
        contractEdge_spec hrep ha hb ((hrep.out a b).mp (Rep.hasEdge_iff.mp hedge))
      exact ⟨rep', by simp [GraphCall.exec, contractEdge_eq, hresult], hcontracted.represents⟩

theorem reaches_represents {state : Option Rep}
    (hreached : graphMachine.Reaches RemovesExisting state) :
    ∃ rep, state = some rep ∧ Represents rep rep.Edge := by
  induction hreached with
  | init => exact ⟨.new, rfl, represents_new.edge_eq ▸ represents_new⟩
  | @step source target call _ hallowed htaken ih =>
      obtain ⟨rep, rfl, hrep⟩ := ih
      by_cases hlive : call.Allowed rep
      · obtain ⟨rep', hexec, hrep'⟩ := exec_spec hrep hlive hallowed
        obtain rfl : some rep' = target := by
          simpa [graphMachine, hlive, hexec] using htaken
        exact ⟨rep', rfl, hrep'.edge_eq ▸ hrep'⟩
      · exact absurd htaken (by simp [graphMachine, hlive])

/-- What `CheckInvariants` asks of a graph, and the agreement of its sets. -/
structure Checked (rep : Rep) : Prop where
  ranks : ((List.range rep.size).map rep.rank).Perm (List.range rep.size)
  ranked : ∀ u v, v ∈ rep.outSet u → rep.rank u < rep.rank v
  acyclic : Math.Acyclic rep.Edge
  mirror : ∀ u v, v ∈ rep.outSet u ↔ u ∈ rep.inSet v
  visited : ∀ v, rep.visited v = false

/-- What an insertion of an edge between live nodes should do. -/
def InsertsExactly (rep : Rep) (x y : ℕ) : Prop :=
  ∃ result rep', rep.insertEdge x y = some (result, rep') ∧
    (result = false ↔ x = y ∨ Relation.ReflTransGen rep.Edge y x) ∧
    (result = false → rep' = rep) ∧
    (result = true → ∀ u v, rep'.Edge u v ↔ rep.Edge u v ∨ u = x ∧ v = y)

/-- **Incremental detection of cycles.** In a sequence of calls in which `RemoveEdge` is
only given edges of the graph, every graph passes the check and every insertion is exact.
A call to `RemoveEdge` without an edge has no result. -/
theorem cycle_detection {state : Option Rep}
    (hreached : graphMachine.Reaches RemovesExisting state) :
    ∃ rep, state = some rep ∧ Checked rep ∧
      (∀ x y, rep.Live x → rep.Live y → InsertsExactly rep x y) ∧
      ∀ call, call.Allowed rep → ¬ RemovesExisting (some rep) call →
        graphMachine.step (some rep) call = some none := by
  obtain ⟨rep, rfl, hrep⟩ := reaches_represents hreached
  refine ⟨rep, rfl, ⟨hrep.rank_perm, hrep.ranked, hrep.acyclic, fun u v => ?_, hrep.visited⟩,
    fun x y hx hy => ?_, fun call hallowed hnot => ?_⟩
  · rw [hrep.out, hrep.into]
  · obtain ⟨result, rep', hresult, hinserted⟩ := insertEdge_spec hrep hx hy
    refine ⟨result, rep', hresult, hinserted.refused_iff, hinserted.unchanged, fun hadded => ?_⟩
    exact (hinserted.added hadded).out
  · cases call with
    | removeEdge x y =>
        have hedge : ¬ rep.Edge x y := Rep.hasEdge_iff.not.mp hnot
        simp [graphMachine, hallowed, GraphCall.exec, removeEdge_eq_none hrep hedge]
    | _ => exact absurd trivial hnot

/-- Four nodes and three edges, the last of which goes down in rank. -/
theorem reordered_square :
    ∃ state, graphMachine.Reaches RemovesExisting state ∧
      ∃ rep, state = some rep ∧ (Checked rep ∧ rep.rank 3 = 1) ∧ InsertsExactly rep 0 3 := by
  have hmeets : graphMachine.RunMeets RemovesExisting
      [.newNode, .newNode, .newNode, .newNode, .insertEdge 0 1, .insertEdge 1 2, .removeEdge 0 1,
        .insertEdge 3 1] graphMachine.init := by
    decide +kernel
  obtain ⟨state, hreached, hlate⟩ := graphMachine.exists_reaches _
    (Q := fun state =>
      state.any fun (rep : Rep) => decide (rep.Live 0 ∧ rep.Live 3 ∧ rep.rank 3 = 1))
    hmeets (by decide +kernel)
  obtain ⟨rep, rfl, hchecked, hinserts, -⟩ := cycle_detection hreached
  obtain ⟨hzero, hthree, hrank⟩ := of_decide_eq_true hlate
  exact ⟨some rep, hreached, rep, rfl, ⟨hchecked, hrank⟩, hinserts 0 3 hzero hthree⟩

/-- Removing an edge that is not there. -/
theorem missing_edge_removed :
    ¬ ∀ state, graphMachine.Reaches Machine.Unguarded state → ∃ rep, state = some rep := by
  intro hall
  obtain ⟨state, hreached, hnone⟩ := graphMachine.exists_reaches_unguarded
    [.newNode, .newNode, .removeEdge 0 1] (Q := Option.isNone) (by decide +kernel)
  obtain ⟨rep, rfl⟩ := hall state hreached
  exact absurd hnone (by simp)

end ContainerScheduler.Analysis
