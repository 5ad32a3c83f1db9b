/-
# Repairing a rank after a new edge

A relation is *ranked* when every pair in it goes from a lower to a higher rank. A new
pair from `x` to a lower `y` is made to fit by giving the ranks of two sets of nodes to
the same nodes in another order: first, in their old order, the nodes that reach `x`
from above `y`, and then, in their old order, the nodes that `y` reaches below `x`.
-/

import Mathlib.Data.List.Sort

namespace ContainerScheduler.Math

universe u

/-! ## Sorted lists and their merge -/

section Merge

variable {xs ys zs : List ℕ}

theorem getElem_le (hsorted : zs.Pairwise (· ≤ ·)) {i j : ℕ} (hj : j < zs.length) (hle : i ≤ j) :
    zs[i] ≤ zs[j] := by
  obtain rfl | hlt := hle.eq_or_lt
  · exact le_rfl
  · exact List.pairwise_iff_getElem.mp hsorted i j _ hj hlt

/-- Elements beyond an index are not counted below the one at the index. -/
theorem countP_le_index (hsorted : zs.Pairwise (· ≤ ·)) {i c : ℕ} (hi : i < zs.length)
    (hlt : c < zs[i]) : zs.countP (· ≤ c) ≤ i := by
  have hdrop : (zs.drop i).countP (· ≤ c) = 0 := by
    rw [List.countP_eq_zero]
    intro v hv
    obtain ⟨k, hk, rfl⟩ := List.getElem_of_mem hv
    rw [List.getElem_drop, decide_eq_true_iff, not_le]
    rw [List.length_drop] at hk
    exact hlt.trans_le (getElem_le hsorted (by omega) (Nat.le_add_right i k))
  calc zs.countP (· ≤ c)
      = (zs.take i).countP (· ≤ c) + (zs.drop i).countP (· ≤ c) := by
        rw [← List.countP_append, List.take_append_drop]
    _ ≤ i := by
        rw [hdrop, Nat.add_zero]
        exact List.countP_le_length.trans (by simp)

/-- Elements up to an index are counted below a bound of the one at the index. -/
theorem index_lt_countP (hsorted : zs.Pairwise (· ≤ ·)) {i c : ℕ} (hi : i < zs.length)
    (hle : zs[i] ≤ c) : i < zs.countP (· ≤ c) := by
  have htake : (zs.take (i + 1)).countP (· ≤ c) = (zs.take (i + 1)).length := by
    rw [List.countP_eq_length]
    intro v hv
    obtain ⟨k, hk, rfl⟩ := List.getElem_of_mem hv
    rw [List.getElem_take, decide_eq_true_iff]
    rw [List.length_take] at hk
    exact (getElem_le hsorted hi (by omega)).trans hle
  have hsub := (List.take_sublist (i + 1) zs).countP_le (p := (· ≤ c))
  rw [htake, List.length_take] at hsub
  omega

/-- Merging moves the elements of the first list to the back. -/
theorem merged_le_first (hperm : zs.Perm (xs ++ ys)) (hzs : zs.Pairwise (· ≤ ·))
    (hxs : xs.Pairwise (· ≤ ·)) {i : ℕ} (hi : i < xs.length) (hi' : i < zs.length) :
    zs[i] ≤ xs[i] := by
  by_contra hlt
  have hbound := countP_le_index hzs hi' (not_le.mp hlt)
  have hcount := index_lt_countP hxs hi le_rfl
  rw [hperm.countP_eq, List.countP_append] at hbound
  omega

/-- At the place after the first list each element of the second one is reached. -/
theorem second_le_merged (hperm : zs.Perm (xs ++ ys)) (hzs : zs.Pairwise (· ≤ ·))
    (hys : ys.Pairwise (· ≤ ·)) {j : ℕ} (hj : j < ys.length) (hj' : xs.length + j < zs.length) :
    ys[j] ≤ zs[xs.length + j] := by
  by_contra hlt
  have hbound := countP_le_index hys hj (not_le.mp hlt)
  have hcount := index_lt_countP hzs hj' le_rfl
  rw [hperm.countP_eq, List.countP_append] at hcount
  have := List.countP_le_length (p := (· ≤ zs[xs.length + j])) (l := xs)
  omega

end Merge

/-! ## Giving ranks to a list of nodes -/

section Assign

variable {α : Type u}

/-- The nodes in the order of their ranks. -/
def sortByRank (rank : α → ℕ) (nodes : List α) : List α :=
  nodes.insertionSort fun v w => rank v ≤ rank w

theorem perm_sortByRank (rank : α → ℕ) (nodes : List α) : (sortByRank rank nodes).Perm nodes :=
  List.perm_insertionSort _ _

theorem sortByRank_sorted (rank : α → ℕ) (nodes : List α) :
    ((sortByRank rank nodes).map rank).Pairwise (· ≤ ·) := by
  rw [List.pairwise_map]
  have : Std.Total fun v w : α => rank v ≤ rank w := ⟨fun v w => le_total _ _⟩
  have : IsTrans α fun v w => rank v ≤ rank w := ⟨fun _ _ _ => le_trans⟩
  exact List.pairwise_insertionSort (fun v w => rank v ≤ rank w) nodes

variable [DecidableEq α]

/-- Give the listed ranks to the listed nodes, one after the other. -/
def assign (rank : α → ℕ) : List α → List ℕ → α → ℕ
  | v :: vs, m :: ms => assign (Function.update rank v m) vs ms
  | _, _ => rank

theorem assign_of_notMem (rank : α → ℕ) {list : List α} {v : α} (hv : v ∉ list) (ms : List ℕ) :
    assign rank list ms v = rank v := by
  induction list generalizing rank ms with
  | nil => rfl
  | cons w list ih =>
      obtain ⟨hne, hv⟩ := not_or.mp (List.mem_cons.not.mp hv)
      cases ms with
      | nil => rfl
      | cons m ms => rw [assign, ih _ hv, Function.update_of_ne hne]

theorem assign_getElem (rank : α → ℕ) {list : List α} (hnodup : list.Nodup) (ms : List ℕ)
    {i : ℕ} (hi : i < list.length) (hi' : i < ms.length) :
    assign rank list ms list[i] = ms[i] := by
  induction list generalizing rank ms i with
  | nil => exact absurd hi (Nat.not_lt_zero i)
  | cons w list ih =>
      obtain ⟨hw, hnodup⟩ := List.nodup_cons.mp hnodup
      cases ms with
      | nil => exact absurd hi' (Nat.not_lt_zero i)
      | cons m ms =>
          rw [assign]
          cases i with
          | zero => simp [assign_of_notMem _ hw]
          | succ i =>
              simpa using ih _ hnodup _ (Nat.lt_of_succ_lt_succ hi) (Nat.lt_of_succ_lt_succ hi')

/-- Give the ranks of two lists of nodes, in order, to the first list and then to the
second one, each in the order of its ranks. -/
def reorder (rank : α → ℕ) (back front : List α) : α → ℕ :=
  assign rank (sortByRank rank back ++ sortByRank rank front)
    (((sortByRank rank back).map rank ++ (sortByRank rank front).map rank).insertionSort (· ≤ ·))

/-- What new ranks of two lists of nodes are like. -/
structure Reordered (rank rank' : α → ℕ) (back front : List α) : Prop where
  kept : ∀ v, v ∉ back → v ∉ front → rank' v = rank v
  back_le : ∀ v ∈ back, rank' v ≤ rank v
  front_ge : ∀ v ∈ front, rank v ≤ rank' v
  back_lt : ∀ v ∈ back, ∀ w ∈ back, rank v < rank w → rank' v < rank' w
  front_lt : ∀ v ∈ front, ∀ w ∈ front, rank v < rank w → rank' v < rank' w
  back_lt_front : ∀ v ∈ back, ∀ w ∈ front, rank' v < rank' w
  old : ∀ v ∈ back ++ front, ∃ w ∈ back ++ front, rank' v = rank w

variable {rank : α → ℕ} {back front : List α}

/-- **Reordering.** -/
theorem reordered_reorder (hnodup : (back ++ front).Nodup)
    (hinj : ∀ v ∈ back ++ front, ∀ w ∈ back ++ front, rank v = rank w → v = w) :
    Reordered rank (reorder rank back front) back front := by
  have hback := perm_sortByRank rank back
  have hfront := perm_sortByRank rank front
  have hsortedBack := sortByRank_sorted rank back
  have hsortedFront := sortByRank_sorted rank front
  rw [reorder]
  generalize sortByRank rank back = xs at hback hsortedBack ⊢
  generalize sortByRank rank front = ys at hfront hsortedFront ⊢
  have hall : (xs ++ ys).Perm (back ++ front) := hback.append hfront
  have hlist := hall.nodup_iff.mpr hnodup
  have hperm := List.perm_insertionSort (· ≤ ·) (xs.map rank ++ ys.map rank)
  have hsorted := List.pairwise_insertionSort (· ≤ ·) (xs.map rank ++ ys.map rank)
  generalize (xs.map rank ++ ys.map rank).insertionSort (· ≤ ·) = zs at hperm hsorted ⊢
  have hlength : zs.length = xs.length + ys.length := by simpa using hperm.length_eq
  have hstrict : zs.Pairwise (· < ·) := by
    have hdistinct : zs.Nodup := by
      rw [hperm.nodup_iff, ← List.map_append]
      exact hlist.map_on fun v hv w hw =>
        hinj v (hall.mem_iff.mp hv) w (hall.mem_iff.mp hw)
    exact (hsorted.and hdistinct).imp fun hpair => lt_of_le_of_ne hpair.1 hpair.2
  have hlt : ∀ {i j : ℕ} (hj : j < zs.length) (hij : i < j), zs[i] < zs[j] := fun hj hij =>
    List.pairwise_iff_getElem.mp hstrict _ _ _ hj hij
  -- what the nodes of either list get
  have hfirst : ∀ i (hi : i < xs.length), assign rank (xs ++ ys) zs xs[i] = zs[i] := by
    intro i hi
    have hget := assign_getElem rank hlist zs (i := i) (by simp; omega) (by omega)
    rwa [List.getElem_append_left hi] at hget
  have hsecond : ∀ j (hj : j < ys.length),
      assign rank (xs ++ ys) zs ys[j] = zs[xs.length + j] := by
    intro j hj
    have hget := assign_getElem rank hlist zs (i := xs.length + j) (by simp; omega)
      (by omega)
    simpa using hget
  have hindex : ∀ {ws : List α} (hws : (ws.map rank).Pairwise (· ≤ ·)) {i j : ℕ}
      (hi : i < ws.length) (hj : j < ws.length), rank ws[i] < rank ws[j] → i < j := by
    intro ws hws i j hi hj hless
    by_contra hle
    have := getElem_le hws (i := j) (j := i) (by simpa using hi) (not_lt.mp hle)
    simp only [List.getElem_map] at this
    omega
  refine ⟨?_, ?_, ?_, ?_, ?_, ?_, ?_⟩
  · intro v hv hv'
    refine assign_of_notMem rank ?_ zs
    rw [hall.mem_iff, List.mem_append]
    exact not_or.mpr ⟨hv, hv'⟩
  · intro v hv
    obtain ⟨i, hi, rfl⟩ := List.getElem_of_mem (hback.mem_iff.mpr hv)
    rw [hfirst i hi]
    have hle := merged_le_first hperm hsorted hsortedBack (i := i) (by simpa using hi) (by omega)
    rwa [List.getElem_map] at hle
  · intro v hv
    obtain ⟨j, hj, rfl⟩ := List.getElem_of_mem (hfront.mem_iff.mpr hv)
    rw [hsecond j hj]
    have hle := second_le_merged hperm hsorted hsortedFront (j := j) (by simpa using hj)
      (by simp; omega)
    simpa only [List.getElem_map, List.length_map] using hle
  · intro v hv w hw hless
    obtain ⟨i, hi, rfl⟩ := List.getElem_of_mem (hback.mem_iff.mpr hv)
    obtain ⟨j, hj, rfl⟩ := List.getElem_of_mem (hback.mem_iff.mpr hw)
    rw [hfirst i hi, hfirst j hj]
    exact hlt (by omega) (hindex hsortedBack hi hj hless)
  · intro v hv w hw hless
    obtain ⟨i, hi, rfl⟩ := List.getElem_of_mem (hfront.mem_iff.mpr hv)
    obtain ⟨j, hj, rfl⟩ := List.getElem_of_mem (hfront.mem_iff.mpr hw)
    rw [hsecond i hi, hsecond j hj]
    exact hlt (by omega) (Nat.add_lt_add_left (hindex hsortedFront hi hj hless) _)
  · intro v hv w hw
    obtain ⟨i, hi, rfl⟩ := List.getElem_of_mem (hback.mem_iff.mpr hv)
    obtain ⟨j, hj, rfl⟩ := List.getElem_of_mem (hfront.mem_iff.mpr hw)
    rw [hfirst i hi, hsecond j hj]
    exact hlt (by omega) (by omega)
  · intro v hv
    obtain ⟨i, hi, rfl⟩ := List.getElem_of_mem (hall.mem_iff.mpr hv)
    have hi' : i < zs.length := by simpa [hlength] using hi
    rw [assign_getElem rank hlist _ hi hi']
    have hmem : zs[i] ∈ (xs ++ ys).map rank := by
      rw [List.map_append, ← hperm.mem_iff]
      exact List.getElem_mem hi'
    obtain ⟨w, hw, heq⟩ := List.mem_map.mp hmem
    exact ⟨w, hall.mem_iff.mp hw, heq.symm⟩

/-- Ranks that were different stay different. -/
theorem Reordered.inj {rank' : α → ℕ} (hreordered : Reordered rank rank' back front)
    {nodes : α → Prop} (hnodes : ∀ v ∈ back ++ front, nodes v)
    (hinj : ∀ v, nodes v → ∀ w, nodes w → rank v = rank w → v = w) :
    ∀ v, nodes v → ∀ w, nodes w → rank' v = rank' w → v = w := by
  have hunlisted : ∀ v ∈ back ++ front, ∀ w, nodes w → w ∉ back ++ front → rank' v ≠ rank' w := by
    intro v hv w hw hnot heq
    obtain ⟨other, hother, hold⟩ := hreordered.old v hv
    obtain ⟨hback, hfront⟩ := not_or.mp (List.mem_append.not.mp hnot)
    rw [hold, hreordered.kept w hback hfront] at heq
    exact hnot (hinj other (hnodes other hother) w hw heq ▸ hother)
  have hsame : ∀ list : List α, (∀ v ∈ list, nodes v) →
      (∀ v ∈ list, ∀ w ∈ list, rank v < rank w → rank' v < rank' w) →
      ∀ v ∈ list, ∀ w ∈ list, rank' v = rank' w → v = w := by
    intro list hlist hmono v hv w hw heq
    obtain hlt | hrank | hlt := lt_trichotomy (rank v) (rank w)
    · exact absurd heq (hmono v hv w hw hlt).ne
    · exact hinj v (hlist v hv) w (hlist w hw) hrank
    · exact absurd heq (hmono w hw v hv hlt).ne'
  intro v hv w hw heq
  by_cases hvl : v ∈ back ++ front
  · by_cases hwl : w ∈ back ++ front
    · obtain hvb | hvf := List.mem_append.mp hvl <;> obtain hwb | hwf := List.mem_append.mp hwl
      · exact hsame back (fun u hu => hnodes u (List.mem_append_left _ hu)) hreordered.back_lt
          v hvb w hwb heq
      · exact absurd heq (hreordered.back_lt_front v hvb w hwf).ne
      · exact absurd heq (hreordered.back_lt_front w hwb v hvf).ne'
      · exact hsame front (fun u hu => hnodes u (List.mem_append_right _ hu)) hreordered.front_lt
          v hvf w hwf heq
    · exact absurd heq (hunlisted v hvl w hw hwl)
  · by_cases hwl : w ∈ back ++ front
    · exact absurd heq.symm (hunlisted w hwl v hv hvl)
    · obtain ⟨hvb, hvf⟩ := not_or.mp (List.mem_append.not.mp hvl)
      obtain ⟨hwb, hwf⟩ := not_or.mp (List.mem_append.not.mp hwl)
      rw [hreordered.kept v hvb hvf, hreordered.kept w hwb hwf] at heq
      exact hinj v hv w hw heq

end Assign

/-! ## The new pair -/

section Repair

variable {α : Type u} {E : α → α → Prop} {rank rank' : α → ℕ} {back front : List α} {x y : α}

/-- **Rank repair.** When the nodes at the front are all that `y` reaches below `x`, those
at the back are all that reach `x` above `y`, and `y` does not reach `x`, their reordered
ranks fit the relation and the pair from `x` to `y`. -/
theorem ranked_of_reordered (hranked : ∀ u w, E u w → rank u < rank w)
    (hreordered : Reordered rank rank' back front)
    (hx : x ∈ back) (hy : y ∈ front)
    (hsameX : ∀ u w, E u w → rank w = rank x → w = x)
    (hsameY : ∀ u w, E u w → rank u = rank y → u = y)
    (hfront : ∀ u ∈ front, rank y ≤ rank u ∧ rank u ≤ rank x)
    (hback : ∀ w ∈ back, rank y ≤ rank w ∧ rank w ≤ rank x)
    (hfrontClosed : ∀ u ∈ front, ∀ w, E u w → w ≠ x ∧ (rank w < rank x → w ∈ front))
    (hbackClosed : ∀ w ∈ back, ∀ u, E u w → rank y < rank u → u ∈ back ∨ u ∈ front)
    {u w : α} (hpair : E u w ∨ u = x ∧ w = y) : rank' u < rank' w := by
  obtain ⟨hkept, hbackLe, hfrontGe, hbackLt, hfrontLt, hbackFront, hold⟩ := hreordered
  have hrange : ∀ v, v ∈ back ∨ v ∈ front → rank y ≤ rank' v ∧ rank' v ≤ rank x := by
    intro v hv
    obtain ⟨other, hother, heq⟩ := hold v (List.mem_append.mpr hv)
    rw [heq]
    obtain hother | hother := List.mem_append.mp hother
    · exact hback other hother
    · exact hfront other hother
  obtain hE | ⟨rfl, rfl⟩ := hpair
  · have hless := hranked u w hE
    by_cases hub : u ∈ back
    · by_cases hwb : w ∈ back
      · exact hbackLt u hub w hwb hless
      by_cases hwf : w ∈ front
      · exact hbackFront u hub w hwf
      · rw [hkept w hwb hwf]
        exact (hbackLe u hub).trans_lt hless
    by_cases huf : u ∈ front
    · obtain ⟨hne, hclosed⟩ := hfrontClosed u huf w hE
      by_cases hwf : w ∈ front
      · exact hfrontLt u huf w hwf hless
      -- `w` lies beyond `x`, since it has not been reached
      have hbeyond : rank x < rank w := by
        refine lt_of_le_of_ne (not_lt.mp fun hlt => hwf (hclosed hlt)) fun heq => ?_
        exact hne (hsameX u w hE heq.symm)
      have hwb : w ∉ back := fun hwb => absurd (hback w hwb).2 (not_le.mpr hbeyond)
      rw [hkept w hwb hwf]
      exact (hrange u (.inr huf)).2.trans_lt hbeyond
    rw [hkept u hub huf]
    by_cases hwb : w ∈ back
    · -- `u` lies before `y`, since it has not been reached
      have hbefore : rank u < rank y := by
        refine lt_of_le_of_ne (not_lt.mp fun hlt => ?_) fun heq => ?_
        · exact (hbackClosed w hwb u hE hlt).elim hub huf
        · exact huf (hsameY u w hE heq ▸ hy)
      exact hbefore.trans_le (hrange w (.inl hwb)).1
    by_cases hwf : w ∈ front
    · exact hless.trans_le (hfrontGe w hwf)
    · rw [hkept w hwb hwf]
      exact hless
  · exact hbackFront u hx w hy

end Repair

end ContainerScheduler.Math
