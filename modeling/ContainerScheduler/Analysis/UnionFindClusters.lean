/-
# Clusters of union-find

The cells are a ranked forest whose roots hold the size and the value of their trees. The trees
are the classes of the merges so far. A size is right as long as it is an `int`.
-/

import ContainerScheduler.Compiler.UnionFind
import ContainerScheduler.Math.RankedForest
import Mathlib.Data.Fintype.Card

namespace ContainerScheduler.Analysis

open Compiler.UnionFind
open Math

namespace Clustering

universe u v

variable {ι : Type u} {α : Type v}

/-! ## What the calls say -/

section Calls

/-- Connected by the merges. -/
def Connected (calls : List (Call ι α)) (x y : ι) : Prop :=
  Relation.EqvGen (fun a b => .merge a b ∈ calls) x y

open Classical in
/-- The value that was last assigned in a cluster, or taken over by the last merge that joined two
clusters. The last call is in front. -/
noncomputable def lastValue (initial : ι → α) : List (Call ι α) → ι → α
  | [], x => initial x
  | .merge a b :: earlier, x =>
      if ¬Connected earlier a b ∧ (Connected earlier a x ∨ Connected earlier b x) then
        lastValue initial earlier a
      else lastValue initial earlier x
  | .assign a value :: earlier, x =>
      if Connected earlier a x then value else lastValue initial earlier x
  | .get _ :: earlier, x => lastValue initial earlier x
  | .size _ :: earlier, x => lastValue initial earlier x

open Classical in
/-- The cells of a cluster. -/
noncomputable def cluster [Fintype ι] (calls : List (Call ι α)) (x : ι) : Finset ι :=
  Finset.univ.filter fun y => Connected calls x y

theorem mem_cluster [Fintype ι] {calls : List (Call ι α)} {x y : ι} :
    y ∈ cluster calls x ↔ Connected calls x y := by
  classical
  exact Finset.mem_filter_univ y

theorem connected_congr {calls other : List (Call ι α)}
    (hsame : ∀ a b, Call.merge a b ∈ calls ↔ Call.merge a b ∈ other) (x y : ι) :
    Connected calls x y ↔ Connected other x y := by
  rw [Connected, Connected]
  simp only [hsame]

end Calls

/-! ## Cells -/

section Cells

variable {cells other : Cells ι α} {x a b c d : ι}

/-- Only parents have changed, and no root is new. -/
def Relocated (cells other : Cells ι α) : Prop :=
  ∀ x, (other x).rank = (cells x).rank ∧ (other x).size = (cells x).size ∧
    (other x).value = (cells x).value ∧ ((other x).parent = none ↔ (cells x).parent = none)

theorem Relocated.refl (cells : Cells ι α) : Relocated cells cells :=
  fun _ => ⟨rfl, rfl, rfl, Iff.rfl⟩

theorem Relocated.trans {third : Cells ι α} (hfirst : Relocated cells other)
    (hsecond : Relocated other third) : Relocated cells third := by
  intro x
  obtain ⟨hrank, hsize, hvalue, hparent⟩ := hfirst x
  obtain ⟨hrank', hsize', hvalue', hparent'⟩ := hsecond x
  exact ⟨hrank'.trans hrank, hsize'.trans hsize, hvalue'.trans hvalue, hparent'.trans hparent⟩

variable [DecidableEq ι]

theorem update_relocated (hx : (cells x).parent ≠ none) (p : ι) :
    Relocated cells (Function.update cells x { cells x with parent := some p }) := by
  intro y
  by_cases hyx : y = x
  · rw [hyx, Function.update_self]
    exact ⟨rfl, rfl, rfl, ⟨nofun, fun hnone => absurd hnone hx⟩⟩
  · rw [Function.update_of_ne hyx]
    exact ⟨rfl, rfl, rfl, Iff.rfl⟩

/-- The cells when the tree of `c` is linked below `d`. -/
def linkedCells (cells : Cells ι α) (c d : ι) (rank : ℕ) (value : α) : Cells ι α :=
  Function.update (Function.update cells c { cells c with parent := some d }) d
    ⟨rank, (cells d).size + (cells c).size, (cells d).parent, value⟩

theorem linkedCells_self {r : ℕ} {value : α} : linkedCells cells c d r value d =
    ⟨r, (cells d).size + (cells c).size, (cells d).parent, value⟩ := Function.update_self _ _ _

theorem linkedCells_of_ne {r : ℕ} {value : α} (hd : x ≠ d) (hc : x ≠ c) :
    linkedCells cells c d r value x = cells x := by
  rw [linkedCells, Function.update_of_ne hd, Function.update_of_ne hc]

/-- One of the roots is linked below the other one, which gets the value of the first. -/
theorem mergeRoots_eq (hne : a ≠ b) :
    ∃ c d r, (c = b ∧ d = a ∨ c = a ∧ d = b) ∧ (cells d).rank ≤ r ∧ (cells c).rank < r ∧
      2 ^ r ≤ 2 ^ (cells c).rank + 2 ^ (cells d).rank ∧
      mergeRoots cells a b = linkedCells cells c d r (cells a).value := by
  rw [mergeRoots, if_neg hne]
  by_cases hrank : (cells a).rank > (cells b).rank
  · refine ⟨b, a, (cells a).rank, .inl ⟨rfl, rfl⟩, le_rfl, hrank, Nat.le_add_left _ _, ?_⟩
    rw [if_pos hrank, linkedCells]
    simp only [Function.update_of_ne hne, Function.update_self]
  · by_cases hsame : (cells a).rank = (cells b).rank
    · refine ⟨a, b, (cells b).rank + 1, .inr ⟨rfl, rfl⟩, Nat.le_succ _, by omega, ?_, ?_⟩
      · rw [hsame, pow_succ]
        omega
      · rw [if_neg hrank, linkedCells]
        simp only [Function.update_of_ne hne.symm, Function.update_self, hsame, if_true]
    · refine ⟨a, b, (cells b).rank, .inr ⟨rfl, rfl⟩, le_rfl, by omega, Nat.le_add_left _ _, ?_⟩
      rw [if_neg hrank, linkedCells]
      simp only [Function.update_of_ne hne.symm, Function.update_self, hsame, if_false]

end Cells

/-! ## The invariant -/

section Invariant

variable [DecidableEq ι] [Fintype ι]

def tree (root : ι → ι) (r : ι) : Finset ι := Finset.univ.filter fun x => root x = r

structure Clusters (cells : Cells ι α) (root : ι → ι) : Prop where
  forest : RankedForest (Cell.parent ∘ cells) (Cell.rank ∘ cells) root
  size : ∀ r, (cells r).parent = none → (cells r).size = Int32.ofNat (tree root r).card
  bound : ∀ r, (cells r).parent = none → 2 ^ (cells r).rank ≤ (tree root r).card

variable {cells other : Cells ι α} {root : ι → ι} {x a b c d : ι} {fuel : ℕ}

section

variable (hclusters : Clusters cells root)

include hclusters

theorem Clusters.of_relocated (hrelocated : Relocated cells other)
    (hforest : RankedForest (Cell.parent ∘ other) (Cell.rank ∘ other) root) :
    Clusters other root := by
  refine ⟨hforest, fun r hr => ?_, fun r hr => ?_⟩
  · obtain ⟨-, hsize, -, hparent⟩ := hrelocated r
    exact hsize.trans (hclusters.size r (hparent.mp hr))
  · obtain ⟨hrank, -, -, hparent⟩ := hrelocated r
    rw [hrank]
    exact hclusters.bound r (hparent.mp hr)

theorem Clusters.compress (hx : (cells x).parent ≠ none) :
    Clusters (Function.update cells x { cells x with parent := some (root x) }) root := by
  refine hclusters.of_relocated (update_relocated hx (root x)) ?_
  rw [Function.comp_update, Function.comp_update]
  have hrank : Function.update (Cell.rank ∘ cells) x (cells x).rank = Cell.rank ∘ cells :=
    Function.update_eq_self x (Cell.rank ∘ cells)
  rw [hrank]
  exact hclusters.forest.compress hx

/-- **The root is found** with as much fuel as its rank is above that of the cell. -/
theorem findRoot_spec (hfuel : (cells (root x)).rank < fuel + (cells x).rank) :
    ∃ other, findRoot fuel cells x = some (root x, other) ∧ Clusters other root ∧
      Relocated cells other := by
  induction fuel generalizing x with
  | zero =>
      have hle : (cells x).rank ≤ (cells (root x)).rank := hclusters.forest.le x
      omega
  | succ fuel ih =>
      rw [findRoot]
      cases hparent : (cells x).parent with
      | none =>
          rw [hclusters.forest.self x hparent]
          exact ⟨cells, rfl, hclusters, .refl cells⟩
      | some p =>
          obtain ⟨hroot, hlt⟩ := hclusters.forest.up x p hparent
          change (cells x).rank < (cells p).rank at hlt
          rw [hroot] at hfuel
          obtain ⟨other, hfind, hother, hrelocated⟩ := ih (x := p) (by omega)
          have hnotRoot : (other x).parent ≠ none := by
            rw [Ne, (hrelocated x).2.2.2, hparent]
            nofun
          simp only [hfind, Option.map_some, ← hroot]
          exact ⟨_, rfl, hother.compress hnotRoot,
            hrelocated.trans (update_relocated hnotRoot (root x))⟩

theorem Clusters.rank_lt (x : ι) : (cells (root x)).rank < Fintype.card ι := by
  have hbound := hclusters.bound (root x) (hclusters.forest.top x)
  exact (Nat.lt_two_pow_self.trans_le hbound).trans_le (Finset.card_le_univ _)

/-- Fuel for as many calls as there are cells is enough. -/
theorem findRoot_of_card (hfuel : Fintype.card ι ≤ fuel) (x : ι) :
    ∃ other, findRoot fuel cells x = some (root x, other) ∧ Clusters other root ∧
      Relocated cells other := by
  have hlt := hclusters.rank_lt x
  exact findRoot_spec hclusters (by omega)

end

theorem card_tree_linked_self (hcd : c ≠ d) :
    (tree (linked root c d) d).card = (tree root d).card + (tree root c).card := by
  have hunion : tree (linked root c d) d = tree root d ∪ tree root c := by
    ext x
    rw [Finset.mem_union, tree, tree, tree, Finset.mem_filter_univ, Finset.mem_filter_univ,
      Finset.mem_filter_univ, linked]
    by_cases hx : root x = c
    · rw [if_pos hx]
      exact ⟨fun _ => .inr hx, fun _ => rfl⟩
    · rw [if_neg hx]
      exact ⟨fun hd => .inl hd, fun hroot => hroot.resolve_right hx⟩
  rw [hunion, Finset.card_union_of_disjoint]
  refine Finset.disjoint_left.mpr fun x hd hc => hcd ?_
  rw [tree, Finset.mem_filter_univ] at hd hc
  exact hc.symm.trans hd

theorem tree_linked_of_ne {r : ι} (hc : r ≠ c) (hd : r ≠ d) :
    tree (linked root c d) r = tree root r := by
  ext x
  rw [tree, tree, Finset.mem_filter_univ, Finset.mem_filter_univ, linked]
  by_cases hx : root x = c
  · rw [if_pos hx, hx]
    exact ⟨fun heq => absurd heq.symm hd, fun heq => absurd heq.symm hc⟩
  · rw [if_neg hx]

theorem Clusters.link (hclusters : Clusters cells root) (hc : (cells c).parent = none)
    (hd : (cells d).parent = none) (hne : c ≠ d) {r : ℕ} (hrank : (cells d).rank ≤ r)
    (hlt : (cells c).rank < r) (hbound : 2 ^ r ≤ 2 ^ (cells c).rank + 2 ^ (cells d).rank)
    (value : α) : Clusters (linkedCells cells c d r value) (linked root c d) := by
  have hroots : ∀ x, (linkedCells cells c d r value x).parent = none → x ≠ c := by
    rintro x hx rfl
    rw [linkedCells, Function.update_of_ne hne, Function.update_self] at hx
    cases hx
  refine ⟨?_, fun x hx => ?_, fun x hx => ?_⟩
  · have hparent : Cell.parent ∘ linkedCells cells c d r value =
        Function.update (Cell.parent ∘ cells) c (some d) := by
      rw [linkedCells, Function.comp_update, Function.comp_update]
      have hsame : Function.update (Cell.parent ∘ cells) c (some d) d = (cells d).parent :=
        Function.update_of_ne hne.symm _ _
      rw [← hsame]
      exact Function.update_eq_self d _
    have hranks : Cell.rank ∘ linkedCells cells c d r value =
        Function.update (Cell.rank ∘ cells) d r := by
      rw [linkedCells, Function.comp_update, Function.comp_update]
      have hsame : Function.update (Cell.rank ∘ cells) c (cells c).rank = Cell.rank ∘ cells :=
        Function.update_eq_self c _
      rw [hsame]
    rw [hparent, hranks]
    exact hclusters.forest.link hc hd hne hrank hlt
  · have hxc := hroots x hx
    by_cases hxd : x = d
    · rw [hxd, linkedCells_self, card_tree_linked_self hne, Int32.ofNat_add,
        hclusters.size d hd, hclusters.size c hc]
    · rw [linkedCells_of_ne hxd hxc] at hx ⊢
      rw [tree_linked_of_ne hxc hxd]
      exact hclusters.size x hx
  · have hxc := hroots x hx
    by_cases hxd : x = d
    · have hboundc := hclusters.bound c hc
      have hboundd := hclusters.bound d hd
      rw [hxd, linkedCells_self, card_tree_linked_self hne]
      change 2 ^ r ≤ _
      omega
    · rw [linkedCells_of_ne hxd hxc] at hx ⊢
      rw [tree_linked_of_ne hxc hxd]
      exact hclusters.bound x hx

/-- **Merging**: the clusters of the roots are one, with the value of the first. -/
theorem mergeRoots_spec (hclusters : Clusters cells root) (ha : (cells a).parent = none)
    (hb : (cells b).parent = none) :
    ∃ joined, Clusters (mergeRoots cells a b) joined ∧
      (∀ x y, joined x = joined y ↔
        root x = root y ∨ (root x = a ∨ root x = b) ∧ (root y = a ∨ root y = b)) ∧
      ∀ x, (mergeRoots cells a b (joined x)).value =
        if a ≠ b ∧ (root x = a ∨ root x = b) then (cells a).value else (cells (root x)).value := by
  by_cases hne : a = b
  · subst hne
    rw [mergeRoots, if_pos rfl]
    refine ⟨root, hclusters, fun x y => ?_, fun x => (if_neg fun hdistinct => hdistinct.1 rfl).symm⟩
    rw [or_self, or_self]
    exact ⟨.inl, fun hroots => hroots.elim id fun hboth => hboth.1.trans hboth.2.symm⟩
  · obtain ⟨c, d, r, horder, hrank, hlt, hbound, heq⟩ := @mergeRoots_eq _ _ cells _ _ _ hne
    have hc : (cells c).parent = none := by
      rcases horder with ⟨rfl, -⟩ | ⟨rfl, -⟩
      · exact hb
      · exact ha
    have hd : (cells d).parent = none := by
      rcases horder with ⟨-, rfl⟩ | ⟨-, rfl⟩
      · exact ha
      · exact hb
    have hcd : c ≠ d := by
      rcases horder with ⟨rfl, rfl⟩ | ⟨rfl, rfl⟩
      · exact Ne.symm hne
      · exact hne
    have hroots : ∀ x, (root x = c ∨ root x = d) ↔ (root x = a ∨ root x = b) := by
      intro x
      rcases horder with ⟨rfl, rfl⟩ | ⟨rfl, rfl⟩
      · exact or_comm
      · exact Iff.rfl
    rw [heq]
    refine ⟨linked root c d, hclusters.link hc hd hcd hrank hlt hbound _, fun x y => ?_,
      fun x => ?_⟩
    · rw [RankedForest.linked_eq_iff, hroots, hroots]
    · by_cases hx : root x = a ∨ root x = b
      · have htop : linked root c d x = d := by
          rcases (hroots x).mpr hx with hxc | hxd
          · exact RankedForest.linked_of_eq hxc
          · refine (RankedForest.linked_of_ne fun hxc => ?_).trans hxd
            exact hcd (hxc.symm.trans hxd)
        rw [htop, linkedCells_self, if_pos ⟨hne, hx⟩]
      · obtain ⟨hxc, hxd⟩ := not_or.mp fun hcd => hx ((hroots x).mp hcd)
        rw [RankedForest.linked_of_ne hxc, linkedCells_of_ne hxd hxc,
          if_neg fun hdistinct => hx hdistinct.2]

/-! ## Calls -/

/-- The roots after a call, and what they hold. -/
theorem merge_spec (hclusters : Clusters cells root) (hfuel : Fintype.card ι ≤ fuel) (a b : ι) :
    ∃ other joined, merge fuel cells a b = some other ∧ Clusters other joined ∧
      (∀ x y, joined x = joined y ↔ root x = root y ∨
        (root x = root a ∨ root x = root b) ∧ (root y = root a ∨ root y = root b)) ∧
      ∀ x, (other (joined x)).value =
        if root a ≠ root b ∧ (root x = root a ∨ root x = root b) then (cells (root a)).value
        else (cells (root x)).value := by
  obtain ⟨first, hfirst, hclusters₁, hrelocated₁⟩ := findRoot_of_card hclusters hfuel a
  obtain ⟨second, hsecond, hclusters₂, hrelocated₂⟩ := findRoot_of_card hclusters₁ hfuel b
  have hsame := hrelocated₁.trans hrelocated₂
  obtain ⟨joined, hjoined, hroots, hvalues⟩ := mergeRoots_spec hclusters₂
    (hclusters₂.forest.top a) (hclusters₂.forest.top b)
  refine ⟨mergeRoots second (root a) (root b), joined, ?_, hjoined, hroots, fun x => ?_⟩
  · rw [Compiler.UnionFind.merge, hfirst, Option.bind_some, hsecond]
    rfl
  · rw [hvalues, (hsame (root a)).2.2.1, (hsame (root x)).2.2.1]

theorem assign_spec (hclusters : Clusters cells root) (hfuel : Fintype.card ι ≤ fuel) (a : ι)
    (value : α) :
    ∃ other, assign fuel cells a value = some other ∧ Clusters other root ∧
      ∀ x, (other (root x)).value = if root x = root a then value else (cells (root x)).value := by
  obtain ⟨found, hfound, hclusters', hrelocated⟩ := findRoot_of_card hclusters hfuel a
  refine ⟨Function.update found (root a) { found (root a) with value }, ?_, ?_, fun x => ?_⟩
  · rw [Compiler.UnionFind.assign, hfound]
    rfl
  · have hfields : ∀ x, (Function.update found (root a) { found (root a) with value } x).rank =
        (found x).rank ∧ (Function.update found (root a) { found (root a) with value } x).size =
        (found x).size ∧ (Function.update found (root a) { found (root a) with value } x).parent =
        (found x).parent := by
      intro x
      by_cases hx : x = root a
      · rw [hx, Function.update_self]
        exact ⟨rfl, rfl, rfl⟩
      · rw [Function.update_of_ne hx]
        exact ⟨rfl, rfl, rfl⟩
    refine ⟨?_, fun r hr => ?_, fun r hr => ?_⟩
    · rw [show Cell.parent ∘ _ = Cell.parent ∘ found from funext fun x => (hfields x).2.2,
        show Cell.rank ∘ _ = Cell.rank ∘ found from funext fun x => (hfields x).1]
      exact hclusters'.forest
    · rw [(hfields r).2.2] at hr
      rw [(hfields r).2.1]
      exact hclusters'.size r hr
    · rw [(hfields r).2.2] at hr
      rw [(hfields r).1]
      exact hclusters'.bound r hr
  · by_cases hx : root x = root a
    · rw [hx, Function.update_self, if_pos rfl]
    · rw [Function.update_of_ne hx, if_neg hx]
      exact (hrelocated (root x)).2.2.1

/-- What holds behind calls. -/
structure Behind (initial : ι → α) (calls : List (Call ι α)) (cells : Cells ι α) (root : ι → ι) :
    Prop where
  clusters : Clusters cells root
  connected : ∀ x y, root x = root y ↔ Connected calls x y
  values : ∀ x, (cells (root x)).value = lastValue initial calls x

theorem behind_start (initial : ι → α) : Behind initial [] (start initial) id := by
  have htree : ∀ r, (tree id r : Finset ι).card = 1 := by
    intro r
    refine Finset.card_eq_one.mpr ⟨r, ?_⟩
    ext x
    rw [tree, Finset.mem_filter_univ, Finset.mem_singleton]
    rfl
  refine ⟨⟨⟨fun _ _ => rfl, nofun, fun _ => rfl, fun _ => le_rfl⟩, fun r _ => ?_, fun r _ => ?_⟩,
    fun x y => ⟨?_, fun hxy => ?_⟩, fun _ => rfl⟩
  · rw [htree]
    rfl
  · rw [htree]
    rfl
  · rintro rfl
    exact .refl x
  · induction hxy with
    | rel x y hmerge => cases hmerge
    | refl x => rfl
    | symm x y _ ih => exact ih.symm
    | trans x y z _ _ ihxy ihyz => exact ihxy.trans ihyz

/-- A call that joins nothing and assigns nothing. -/
theorem Behind.query {initial : ι → α} {calls : List (Call ι α)} {next : Call ι α}
    (hbehind : Behind initial calls cells root) (hclusters : Clusters other root)
    (hrelocated : Relocated cells other) (hnext : ∀ a b, next ≠ .merge a b)
    (hvalue : lastValue initial (next :: calls) = lastValue initial calls) :
    Behind initial (next :: calls) other root := by
  refine ⟨hclusters, fun x y => ?_, fun x => ?_⟩
  · refine (hbehind.connected x y).trans (connected_congr (fun a b => ?_) x y)
    rw [List.mem_cons]
    exact ⟨.inr, fun hmerge => hmerge.resolve_left fun heq => hnext a b heq.symm⟩
  · rw [(hrelocated (root x)).2.2.1, hvalue]
    exact hbehind.values x

theorem Behind.after_merge {initial : ι → α} {calls : List (Call ι α)}
    (hbehind : Behind initial calls cells root) (hfuel : Fintype.card ι ≤ fuel) (a b : ι) :
    ∃ other joined, merge fuel cells a b = some other ∧
      Behind initial (.merge a b :: calls) other joined := by
  obtain ⟨other, joined, hmerge, hclusters, hroots, hvalues⟩ :=
    merge_spec hbehind.clusters hfuel a b
  refine ⟨other, joined, hmerge, hclusters, fun x y => ?_, fun x => ?_⟩
  · rw [hroots, ← eqvGen_join hbehind.connected x y, Connected]
    refine iff_of_eq (congrArg (fun R => Relation.EqvGen R x y) ?_)
    funext c d
    rw [List.mem_cons, Call.merge.injEq, or_comm]
  · rw [hvalues, lastValue, ← hbehind.values, ← hbehind.values]
    simp only [← hbehind.connected, ne_eq, eq_comm]

theorem Behind.after_assign {initial : ι → α} {calls : List (Call ι α)}
    (hbehind : Behind initial calls cells root) (hfuel : Fintype.card ι ≤ fuel) (a : ι)
    (value : α) :
    ∃ other, assign fuel cells a value = some other ∧
      Behind initial (.assign a value :: calls) other root := by
  obtain ⟨other, hassign, hclusters, hvalues⟩ := assign_spec hbehind.clusters hfuel a value
  refine ⟨other, hassign, hclusters, fun x y => ?_, fun x => ?_⟩
  · refine (hbehind.connected x y).trans (connected_congr (fun c d => ?_) x y)
    rw [List.mem_cons]
    exact ⟨.inr, fun hmerge => hmerge.resolve_left nofun⟩
  · rw [hvalues, lastValue, ← hbehind.values]
    simp only [← hbehind.connected, eq_comm]

/-- **The run lemma**: all calls return. -/
theorem behind_after (initial : ι → α) (hfuel : Fintype.card ι ≤ fuel) (calls : List (Call ι α)) :
    ∃ cells root, after fuel (start initial) calls = some cells ∧
      Behind initial calls cells root := by
  induction calls with
  | nil => exact ⟨start initial, id, rfl, behind_start initial⟩
  | cons next calls ih =>
      obtain ⟨cells, root, hafter, hbehind⟩ := ih
      rw [after, hafter, Option.bind_some]
      cases next with
      | merge a b =>
          obtain ⟨other, joined, hmerge, hother⟩ := hbehind.after_merge hfuel a b
          exact ⟨other, joined, hmerge, hother⟩
      | assign a value =>
          obtain ⟨other, hassign, hother⟩ := hbehind.after_assign hfuel a value
          exact ⟨other, root, hassign, hother⟩
      | get a =>
          obtain ⟨other, hfind, hclusters, hrelocated⟩ := findRoot_of_card hbehind.clusters hfuel a
          refine ⟨other, root, ?_, hbehind.query hclusters hrelocated nofun rfl⟩
          rw [call, Compiler.UnionFind.get, hfind]
          rfl
      | size a =>
          obtain ⟨other, hfind, hclusters, hrelocated⟩ := findRoot_of_card hbehind.clusters hfuel a
          refine ⟨other, root, ?_, hbehind.query hclusters hrelocated nofun rfl⟩
          rw [call, size, hfind]
          rfl

theorem Behind.cluster_card {initial : ι → α} {calls : List (Call ι α)}
    (hbehind : Behind initial calls cells root) (x : ι) :
    tree root (root x) = cluster calls x := by
  ext y
  rw [tree, mem_cluster, Finset.mem_filter_univ, ← hbehind.connected]
  exact eq_comm

/-! ## The partition -/

/-- What is found of the clusters behind calls. -/
structure Finds (fuel : ℕ) (initial : ι → α) (calls : List (Call ι α)) (cells : Cells ι α) :
    Prop where
  roots : ∀ x y, ∃ r s first second, findRoot fuel cells x = some (r, first) ∧
    findRoot fuel cells y = some (s, second) ∧ (r = s ↔ Connected calls x y)
  values : ∀ x, ∃ other, Compiler.UnionFind.get fuel cells x = some (lastValue initial calls x, other)
  sizes : ∀ x, ∃ n other, size fuel cells x = some (n, other) ∧
    n.toInt = ((cluster calls x).card : ℤ)

/-- All calls return, and behind them the clusters are the classes of the merges. -/
def KeepsPartition (initial : ι → α) (calls : List (Call ι α)) : Prop :=
  ∀ fuel, Fintype.card ι ≤ fuel →
    ∃ cells, after fuel (start initial) calls = some cells ∧ Finds fuel initial calls cells

theorem toInt_ofNat_eq_iff {n : ℕ} : (Int32.ofNat n).toInt = (n : ℤ) ↔ n < 2 ^ 31 := by
  constructor
  · intro heq
    have hlt := (Int32.ofNat n).toInt_lt
    omega
  · exact Int32.toInt_ofNat_of_lt

/-- What is found apart from the sizes is right in any case. -/
theorem Behind.finds_iff {initial : ι → α} {calls : List (Call ι α)}
    (hbehind : Behind initial calls cells root) (hfuel : Fintype.card ι ≤ fuel) :
    Finds fuel initial calls cells ↔ ∀ x, (cluster calls x).card < 2 ^ 31 := by
  have hsize : ∀ x, ∃ other, size fuel cells x =
      some (Int32.ofNat (cluster calls x).card, other) := by
    intro x
    obtain ⟨other, hfind, hclusters, -⟩ := findRoot_of_card hbehind.clusters hfuel x
    refine ⟨other, ?_⟩
    rw [size, hfind, Option.map_some, hclusters.size _ (hclusters.forest.top x),
      hbehind.cluster_card]
  constructor
  · intro hfinds x
    obtain ⟨n, other, hn, heq⟩ := hfinds.sizes x
    obtain ⟨other', hn'⟩ := hsize x
    obtain ⟨rfl, -⟩ := Prod.mk.inj (Option.some.inj (hn.symm.trans hn'))
    exact toInt_ofNat_eq_iff.mp heq
  · intro hlt
    refine ⟨fun x y => ?_, fun x => ?_, fun x => ?_⟩
    · obtain ⟨first, hfirst, -⟩ := findRoot_of_card hbehind.clusters hfuel x
      obtain ⟨second, hsecond, -⟩ := findRoot_of_card hbehind.clusters hfuel y
      exact ⟨root x, root y, first, second, hfirst, hsecond, hbehind.connected x y⟩
    · obtain ⟨other, hfind, -, hrelocated⟩ := findRoot_of_card hbehind.clusters hfuel x
      refine ⟨other, ?_⟩
      rw [Compiler.UnionFind.get, hfind, Option.map_some, (hrelocated (root x)).2.2.1, hbehind.values]
    · obtain ⟨other, hn⟩ := hsize x
      exact ⟨_, other, hn, toInt_ofNat_eq_iff.mpr (hlt x)⟩

theorem KeepsPartition.card_lt {initial : ι → α} {calls : List (Call ι α)}
    (hkeeps : KeepsPartition initial calls) (x : ι) : (cluster calls x).card < 2 ^ 31 := by
  obtain ⟨cells, hcells, hfinds⟩ := hkeeps _ le_rfl
  obtain ⟨other, root, hother, hbehind⟩ := behind_after initial (le_refl (Fintype.card ι)) calls
  obtain rfl := Option.some.inj (hcells.symm.trans hother)
  exact (hbehind.finds_iff le_rfl).mp hfinds x

/-- **Union-find computes the partition** if and only if every cluster has a size that is an
`int`. -/
theorem keepsPartition_iff (initial : ι → α) (calls : List (Call ι α)) :
    KeepsPartition initial calls ↔ ∀ x, (cluster calls x).card < 2 ^ 31 := by
  refine ⟨KeepsPartition.card_lt, fun hlt fuel hfuel => ?_⟩
  obtain ⟨cells, root, hcells, hbehind⟩ := behind_after initial hfuel calls
  exact ⟨cells, hcells, (hbehind.finds_iff hfuel).mpr hlt⟩

end Invariant

/-- The first cell is merged with all others, and the size has wrapped. -/
theorem size_wraps : ¬KeepsPartition (fun _ : Fin (2 ^ 31) => ())
    ((List.finRange (2 ^ 31)).map fun x => .merge 0 x) := by
  intro hkeeps
  have hall : cluster ((List.finRange (2 ^ 31)).map fun x => Call.merge (α := Unit) 0 x) 0 =
      Finset.univ := by
    refine Finset.eq_univ_of_forall fun x => mem_cluster.mpr (.rel 0 x ?_)
    exact List.mem_map.mpr ⟨x, List.mem_finRange x, rfl⟩
  have hlt := hkeeps.card_lt 0
  rw [hall, Finset.card_univ, Fintype.card_fin] at hlt
  exact Nat.lt_irrefl _ hlt

end Clustering

end ContainerScheduler.Analysis
