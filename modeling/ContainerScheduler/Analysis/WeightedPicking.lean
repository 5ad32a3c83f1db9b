/-
# Weighted picking

A picker stands for the list of its weights. It picks the element whose weight covers a number, and
a number below the total is drawn without a bias.
-/

import ContainerScheduler.Analysis.PickerTrees
import ContainerScheduler.Analysis.UniformDraws

namespace ContainerScheduler.Analysis

open Math
open ContainerScheduler.Random
open ContainerScheduler.Random.WeightedPicker

namespace Picking

/-! ## The list of weights -/

/-- The weights of the elements, and no weight behind them. -/
structure Weighs (ws : List ℕ) (p : WeightedPicker) : Prop where
  length : p.n = ws.length
  sums : Sums (fun i => ws.getD i 0) p

/-- What a call does to the weights. -/
def effect : Call → List ℕ → List ℕ
  | .setWeight index weight, ws => ws.set index weight.toNatClampNeg
  | .setAllWeights weight, ws => List.replicate ws.length weight.toNatClampNeg
  | .setWeightsFromArray n weights _, _ => (weights.take n).map Int32.toNatClampNeg
  | .append weight _, ws => ws ++ [weight.toNatClampNeg]
  | .resize newSize _, ws => ws.take newSize ++ List.replicate (newSize - ws.length) 0

/-- No weight is negative, and an index or an array is as long as it has to be. -/
def Required (ws : List ℕ) : Call → Prop
  | .setWeight index weight => index < ws.length ∧ 0 ≤ weight
  | .setAllWeights weight => 0 ≤ weight
  | .setWeightsFromArray n weights _ => n ≤ weights.length ∧ ∀ weight ∈ weights.take n, 0 ≤ weight
  | .append weight _ => 0 ≤ weight
  | .resize _ _ => True

/-- The bounds on the number of elements and on their sum. -/
def Bounded (ws : List ℕ) : Prop := ws.length ≤ 2 ^ 30 ∧ ws.sum < 2 ^ 31

/-- Each call is as required, and the weights stay bounded. -/
def AllowedCalls : List ℕ → List Call → Prop
  | _, [] => True
  | ws, next :: calls =>
      Required ws next ∧ Bounded (effect next ws) ∧ AllowedCalls (effect next ws) calls

section Operations

variable {p : WeightedPicker} {ws : List ℕ} {f : ℕ → ℕ} {i turns : ℕ}

theorem getD_replicate (n w j : ℕ) : (List.replicate n w).getD j 0 = if j < n then w else 0 := by
  rw [List.getD_eq_getElem?_getD, List.getElem?_replicate]
  split_ifs
  · rfl
  · rfl

theorem getD_resized (n j : ℕ) :
    (ws.take n ++ List.replicate (n - ws.length) 0).getD j 0 = if j < n then ws.getD j 0 else 0 := by
  rw [List.getD_eq_getElem?_getD, List.getElem?_append, List.length_take, List.getElem?_take,
    List.getElem?_replicate, List.getD_eq_getElem?_getD]
  by_cases hj : j < n
  · rw [if_pos hj, if_pos hj]
    by_cases hlt : j < min n ws.length
    · rw [if_pos hlt]
    · rw [if_neg hlt, List.getElem?_eq_none (by omega : ws.length ≤ j), if_pos (by omega)]
      rfl
  · rw [if_neg (by omega), if_neg (by omega), if_neg hj]
    rfl

theorem Sums.congr {g : ℕ → ℕ} (hp : Sums f p) (hsame : ∀ j, f j = g j) : Sums g p := by
  rw [← show f = g from funext hsame]
  exact hp

/-- Leaves in front of the number of elements are set, and the others are set to 0. -/
theorem leaves_spec {body : ℕ → WeightedPicker → Except Failure WeightedPicker} {g : ℕ → Int32}
    (hlevels : 0 < p.numLevels) (hroom : p.n ≤ levelSize (p.numLevels - 1))
    (hbody : forLoop body 0 p.n p = .ok (fill p (p.numLevels - 1) 0 p.n g))
    (hf : ∀ j < p.n, g j = Int32.ofNat (f j)) (hzero : ∀ j, p.n ≤ j → f j = 0) :
    ∃ q, ((forLoop body 0 p.n p).bind fun p =>
      (forLoop (setLeaf 0) p.n (levelSize (p.numLevels - 1) - p.n) p).bind rebuildTreeWeights) =
        .ok q ∧ SameShape p q ∧ Sums f q := by
  have hloop := @forLoop_setLeaf (fill p (p.numLevels - 1) 0 p.n g) p.n
    (levelSize (p.numLevels - 1) - p.n) 0 hlevels (by
      change p.n + (levelSize (p.numLevels - 1) - p.n) ≤ levelSize (p.numLevels - 1)
      omega)
  obtain ⟨q, hq, hshape, hsums⟩ := @rebuild_spec (fill (fill p (p.numLevels - 1) 0 p.n g)
    (p.numLevels - 1) p.n (levelSize (p.numLevels - 1) - p.n) fun _ => 0) f hlevels (by
      intro j hj
      change j < levelSize (p.numLevels - 1) at hj
      refine fill_level_self.trans ?_
      by_cases hlt : j < p.n
      · rw [if_neg (by omega), fill_level_self, if_pos (by omega), hf j hlt]
      · rw [if_pos (by omega), hzero j (Nat.not_lt.mp hlt)]
        rfl)
  refine ⟨q, ?_, hshape, ?_, ?_, hsums⟩
  · rw [hbody]
    exact (congrArg (·.bind rebuildTreeWeights) hloop).trans hq
  · rw [hshape.2]
    exact hlevels
  · rw [hshape.1, hshape.2]
    exact hroom

theorem setAllWeights_spec (hlevels : 0 < p.numLevels) (hroom : p.n ≤ levelSize (p.numLevels - 1))
    {weight : Int32} (hweight : 0 ≤ weight) :
    ∃ q, p.setAllWeights weight = .ok q ∧ SameShape p q ∧
      Weighs (List.replicate p.n weight.toNatClampNeg) q := by
  obtain ⟨q, hq, hshape, hsums⟩ := leaves_spec (f := fun j =>
    (List.replicate p.n weight.toNatClampNeg).getD j 0) hlevels hroom
    (@forLoop_setLeaf p _ _ weight hlevels (by omega))
    (fun j hj => by rw [getD_replicate, if_pos hj, Int32.ofNat_toNatClampNeg _ hweight])
    (fun j hj => by rw [getD_replicate, if_neg (Nat.not_lt.mpr hj)])
  exact ⟨q, hq, hshape, hshape.1.trans List.length_replicate.symm, hsums⟩

/-! ## Construction -/

theorem findLevels_spec {n left numLevels : ℕ} (hn : n ≤ 2 ^ 30) (hleft : 0 < left)
    (hsum : left + numLevels = 32) (hpos : 0 < numLevels) :
    ∃ levels, findLevels n left numLevels = .ok levels ∧ 0 < levels ∧
      n ≤ levelSize (levels - 1) := by
  induction left generalizing numLevels with
  | zero => exact absurd hleft (Nat.lt_irrefl 0)
  | succ left ih =>
      rw [findLevels]
      by_cases hlt : levelSize (numLevels - 1) < n
      · rw [if_pos hlt]
        have hlevels : numLevels - 1 < 30 := (Nat.pow_lt_pow_iff_right (by decide : 1 < 2)).mp
          (hlt.trans_le hn)
        exact ih (by omega) (by omega) (by omega)
      · rw [if_neg hlt]
        exact ⟨numLevels, rfl, hpos, Nat.not_lt.mp hlt⟩

theorem create_spec {n : ℕ} (hn : n ≤ 2 ^ 30) (memory : ℕ → ℕ → Int32) :
    ∃ p, create n memory = .ok p ∧ p.n = n ∧ Weighs (List.replicate n 1) p := by
  obtain ⟨numLevels, hfind, hlevels, hroom⟩ := findLevels_spec hn (by decide : 0 < 31) rfl
    Nat.one_pos
  obtain ⟨p, hp, hshape, hweighs⟩ := @setAllWeights_spec ⟨n, numLevels, memory⟩ hlevels hroom 1
    (by decide)
  refine ⟨p, ?_, hshape.1, hweighs⟩
  rw [create, if_neg (by omega), Int.toNat_natCast, hfind]
  exact hp

/-! ## Resizing -/

theorem forLoop_setWeight (hp : Sums f p) (hroom : i + turns ≤ p.n) :
    ∃ q, forLoop (fun i p => p.setWeight i 0) i turns p = .ok q ∧ SameShape p q ∧
      Sums (fun j => if i ≤ j ∧ j < i + turns then 0 else f j) q := by
  induction turns generalizing i f p with
  | zero =>
      refine ⟨p, rfl, ⟨rfl, rfl⟩, hp.congr fun j => ?_⟩
      rw [if_neg (by omega)]
  | succ turns ih =>
      obtain ⟨q, hq, hshape, hsums⟩ := hp.setWeight (i := i) (by omega) 0
      obtain ⟨r, hr, hshape', hsums'⟩ := ih (i := i + 1) hsums (by rw [hshape.1]; omega)
      refine ⟨r, ?_, ⟨hshape'.1.trans hshape.1, hshape'.2.trans hshape.2⟩,
        hsums'.congr fun j => ?_⟩
      · rw [forLoop, show p.setWeight i 0 = .ok q from hq]
        exact hr
      · by_cases hji : j = i
        · rw [hji, if_neg (by omega), Function.update_self, if_pos (by omega)]
        · rw [Function.update_of_ne hji]
          by_cases hlater : i + 1 ≤ j ∧ j < i + 1 + turns
          · rw [if_pos hlater, if_pos (by omega)]
          · rw [if_neg hlater, if_neg (by omega)]

theorem getD_eq_zero {j : ℕ} (hj : ws.length ≤ j) : ws.getD j 0 = 0 := by
  rw [List.getD_eq_getElem?_getD, List.getElem?_eq_none hj]
  rfl

/-- A new picker that the old weights are copied to. -/
theorem copy_spec {q : WeightedPicker} {n : ℕ} (hp : Weighs ws p) (hlt : p.n < n)
    (hq : Weighs (List.replicate n 1) q) :
    ∃ r, ((forLoop (fun i q => (p.read (p.numLevels - 1) i).bind fun weight => setLeaf weight i q)
      0 p.n q).bind fun q => (forLoop (setLeaf 0) p.n (n - p.n) q).bind rebuildTreeWeights) =
        .ok r ∧ r.n = n ∧ Sums (fun j => if j < n then ws.getD j 0 else 0) r := by
  have hlevels := hq.sums.levels
  have hroom := hq.sums.room
  have hqn : q.n = n := hq.length.trans List.length_replicate
  rw [hqn] at hroom
  have hcopy : forLoop (fun i q => (p.read (p.numLevels - 1) i).bind fun weight =>
      setLeaf weight i q) 0 p.n q =
        .ok (fill q (q.numLevels - 1) 0 p.n fun j => Int32.ofNat (ws.getD j 0)) := by
    refine forLoop_eq_fill (by omega) (by omega) fun j r _ hj hsame _ => ?_
    have hplevels := hp.sums.levels
    have hleaf := (Nat.zero_add p.n ▸ hj).trans_le hp.sums.room
    rw [read_eq (by omega) hleaf, hp.sums.leaf hleaf, Except.bind, setLeaf, hsame]
  have hloop := @forLoop_setLeaf (fill q (q.numLevels - 1) 0 p.n fun j =>
    Int32.ofNat (ws.getD j 0)) p.n (n - p.n) 0 hlevels (by
      change p.n + (n - p.n) ≤ levelSize (q.numLevels - 1)
      omega)
  obtain ⟨r, hr, hshape, hsums⟩ := @rebuild_spec (fill (fill q (q.numLevels - 1) 0 p.n fun j =>
    Int32.ofNat (ws.getD j 0)) (q.numLevels - 1) p.n (n - p.n) fun _ => 0)
    (fun j => if j < n then ws.getD j 0 else 0) hlevels (by
      intro j hj
      change j < levelSize (q.numLevels - 1) at hj
      refine fill_level_self.trans ?_
      by_cases hless : j < p.n
      · rw [if_neg (by omega), fill_level_self, if_pos (by omega), if_pos (by omega)]
      · have hzero : ws.getD j 0 = 0 := getD_eq_zero (by rw [← hp.length]; omega)
        by_cases hnew : j < n
        · rw [if_pos (by omega), if_pos hnew, hzero]
          rfl
        · rw [if_neg (by omega), fill_level_self, if_neg (by omega), if_neg hnew, hq.sums.leaf hj,
            getD_replicate, if_neg hnew])
  refine ⟨r, ?_, hshape.1.trans hqn, ?_, ?_, hsums⟩
  · rw [hcopy]
    exact (congrArg (·.bind rebuildTreeWeights) hloop).trans hr
  · rw [hshape.2]
    exact hlevels
  · rw [hshape.1, hshape.2]
    exact hqn ▸ hroom

theorem resize_spec {n : ℕ} (hp : Weighs ws p) (hn : n ≤ 2 ^ 30) (memory : ℕ → ℕ → Int32) :
    ∃ q, p.resize n memory = .ok q ∧
      Weighs (ws.take n ++ List.replicate (n - ws.length) 0) q := by
  have hlength : (ws.take n ++ List.replicate (n - ws.length) 0).length = n := by
    rw [List.length_append, List.length_take, List.length_replicate]
    omega
  rw [resize, if_neg (by omega), Int.toNat_natCast]
  by_cases hfits : n ≤ levelSize (p.numLevels - 1)
  · rw [if_pos (Int.ofNat_le.mpr hfits)]
    rcases Nat.le_total p.n n with hle | hle
    · refine ⟨{ p with n }, ?_, hlength.symm, ?_⟩
      · rw [Nat.sub_eq_zero_of_le hle]
        rfl
      · refine Sums.congr ⟨hp.sums.levels, hfits, hp.sums.nodes⟩ fun j => ?_
        rw [getD_resized]
        by_cases hj : j < n
        · rw [if_pos hj]
        · rw [if_neg hj, getD_eq_zero (by rw [← hp.length]; omega)]
    · obtain ⟨q, hq, hshape, hsums⟩ := @forLoop_setWeight p _ n (p.n - n) hp.sums
        (by omega)
      refine ⟨{ q with n }, ?_, hlength.symm, ?_⟩
      · rw [hq]
        rfl
      · refine Sums.congr ⟨hsums.levels, ?_, hsums.nodes⟩ fun j => ?_
        · change n ≤ levelSize (q.numLevels - 1)
          rw [hshape.2]
          exact hfits
        · rw [getD_resized]
          by_cases hj : j < n
          · rw [if_neg (by omega), if_pos hj]
          · rw [if_neg hj]
            by_cases hless : j < p.n
            · rw [if_pos (by omega)]
            · rw [if_neg (by omega), getD_eq_zero (by rw [← hp.length]; omega)]
  · rw [if_neg fun hle => hfits (Int.ofNat_le.mp hle)]
    obtain ⟨q, hq, -, hweighs⟩ := create_spec hn memory
    have hroom := hp.sums.room
    obtain ⟨r, hr, hrn, hsums⟩ := copy_spec hp (n := n) (by omega) hweighs
    refine ⟨r, ?_, hrn.trans hlength.symm, hsums.congr fun j => (getD_resized n j).symm⟩
    rw [hq]
    exact hr

/-! ## Calls -/

theorem setWeight_spec {index : ℕ} {weight : Int32} (hp : Weighs ws p) (hindex : index < ws.length)
    (hweight : 0 ≤ weight) :
    ∃ q, p.setWeight index weight = .ok q ∧ Weighs (ws.set index weight.toNatClampNeg) q := by
  obtain ⟨q, hq, hshape, hsums⟩ := hp.sums.setWeight (i := index) (by rw [hp.length]; exact hindex)
    weight.toNatClampNeg
  rw [Int32.ofNat_toNatClampNeg _ hweight] at hq
  refine ⟨q, hq, hshape.1.trans (hp.length.trans List.length_set.symm), hsums.congr fun j => ?_⟩
  rw [List.getD_eq_getElem?_getD, List.getElem?_set]
  by_cases hj : index = j
  · subst hj
    rw [Function.update_self, if_pos rfl, if_pos hindex]
    rfl
  · rw [Function.update_of_ne (Ne.symm hj), if_neg hj, List.getD_eq_getElem?_getD]

theorem append_spec {weight : Int32} (hp : Weighs ws p) (hlength : ws.length + 1 ≤ 2 ^ 30)
    (hweight : 0 ≤ weight) (memory : ℕ → ℕ → Int32) :
    ∃ q, p.append weight memory = .ok q ∧ Weighs (ws ++ [weight.toNatClampNeg]) q := by
  obtain ⟨q, hq, hgrown⟩ := resize_spec hp hlength memory
  have hlist : ws.take (ws.length + 1) ++ List.replicate (ws.length + 1 - ws.length) 0 =
      ws ++ [0] := by
    rw [List.take_of_length_le (Nat.le_succ _), Nat.add_sub_cancel_left]
    rfl
  rw [hlist] at hgrown
  obtain ⟨r, hr, hweighs⟩ := @setWeight_spec _ _ ws.length _ hgrown
    (by rw [List.length_append]; exact Nat.lt_succ_self _) hweight
  refine ⟨r, ?_, ?_⟩
  · have hlast : q.n - 1 = ws.length := by
      rw [hgrown.length, List.length_append]
      rfl
    have hcast : ((ws.length + 1 : ℕ) : ℤ) = (ws.length : ℤ) + 1 := Int.natCast_succ ws.length
    rw [append, hp.length, ← hcast, hq]
    change q.setWeight (q.n - 1) weight = .ok r
    rw [hlast]
    exact hr
  · rw [List.set_append_right _ _ (Nat.le_refl _), Nat.sub_self] at hweighs
    exact hweighs

theorem setWeightsFromArray_spec {n : ℕ} {weights : List Int32} (hp : Weighs ws p)
    (hn : n ≤ 2 ^ 30) (hlength : n ≤ weights.length) (hweights : ∀ weight ∈ weights.take n, 0 ≤ weight)
    (memory : ℕ → ℕ → Int32) :
    ∃ q, p.setWeightsFromArray n weights memory = .ok q ∧
      Weighs ((weights.take n).map Int32.toNatClampNeg) q := by
  obtain ⟨q, hq, hresized⟩ := resize_spec hp hn memory
  have hqn : q.n = n := by
    rw [hresized.length, List.length_append, List.length_take, List.length_replicate]
    omega
  have hlevels := hresized.sums.levels
  have hroom := hresized.sums.room
  have hvalue : ∀ j < n, weights.getD j 0 =
      Int32.ofNat (((weights.take n).map Int32.toNatClampNeg).getD j 0) := by
    intro j hj
    have hlt : j < weights.length := by omega
    rw [List.getD_eq_getElem?_getD, List.getD_eq_getElem?_getD, List.getElem?_map,
      List.getElem?_take_of_lt hj, List.getElem?_eq_getElem hlt]
    refine (Int32.ofNat_toNatClampNeg _ (hweights _ ?_)).symm
    exact List.mem_of_getElem? ((List.getElem?_take_of_lt hj).trans (List.getElem?_eq_getElem hlt))
  have hmapped : ((weights.take n).map Int32.toNatClampNeg).length = n := by
    rw [List.length_map, List.length_take]
    omega
  rw [setWeightsFromArray, hq]
  refine (leaves_spec (f := fun j => ((weights.take n).map Int32.toNatClampNeg).getD j 0) hlevels
    hroom (forLoop_eq_fill (g := fun j => weights.getD j 0) (by omega) (by omega)
      fun j r _ hj hsame _ => ?_) (fun j hj => hvalue j (hqn ▸ hj))
    (fun j hj => getD_eq_zero (by omega))).imp fun r hr =>
      ⟨hr.1, hr.2.1.1.trans (hqn.trans hmapped.symm), hr.2.2⟩
  have hlt : j < weights.length := by omega
  simp only [List.getD_eq_getElem?_getD, List.getElem?_eq_getElem hlt, setLeaf, hsame,
    Option.getD_some]

/-- **The step lemma**: a call changes the weights as it says. -/
theorem call_spec {next : Call} (hp : Weighs ws p) (hnext : Required ws next)
    (hbounded : Bounded (effect next ws)) :
    ∃ q, p.call next = .ok q ∧ Weighs (effect next ws) q := by
  cases next with
  | setWeight index weight => exact setWeight_spec hp hnext.1 hnext.2
  | setAllWeights weight =>
      obtain ⟨q, hq, -, hweighs⟩ := setAllWeights_spec hp.sums.levels hp.sums.room hnext
      rw [hp.length] at hweighs
      exact ⟨q, hq, hweighs⟩
  | setWeightsFromArray n weights memory =>
      have hn : n ≤ 2 ^ 30 := by
        have hle := hbounded.1
        rw [effect, List.length_map, List.length_take, Nat.min_eq_left hnext.1] at hle
        exact hle
      exact setWeightsFromArray_spec hp hn hnext.1 hnext.2 memory
  | append weight memory =>
      have hle := hbounded.1
      rw [effect, List.length_append] at hle
      exact append_spec hp hle hnext memory
  | resize n memory =>
      have hn : n ≤ 2 ^ 30 := by
        have hle := hbounded.1
        rw [effect, List.length_append, List.length_take, List.length_replicate] at hle
        omega
      exact resize_spec hp hn memory

/-- **The run lemma.** -/
theorem run_spec {calls : List Call} (hp : Weighs ws p) (hcalls : AllowedCalls ws calls) :
    ∃ q, p.run calls = .ok q ∧ Weighs (calls.foldl (fun ws next => effect next ws) ws) q := by
  induction calls generalizing p ws with
  | nil => exact ⟨p, rfl, hp⟩
  | cons next calls ih =>
      obtain ⟨hnext, hbounded, hrest⟩ := hcalls
      obtain ⟨q, hq, hweighs⟩ := call_spec hp hnext hbounded
      obtain ⟨r, hr, hend⟩ := ih hweighs hrest
      refine ⟨r, ?_, hend⟩
      rw [run, hq]
      exact hr

theorem AllowedCalls.bounded {calls : List Call} (hws : Bounded ws)
    (hcalls : AllowedCalls ws calls) :
    Bounded (calls.foldl (fun ws next => effect next ws) ws) := by
  induction calls generalizing ws with
  | nil => exact hws
  | cons next calls ih => exact ih hcalls.2.1 hcalls.2.2

/-! ## Picking -/

theorem sum_range_getD (ws : List ℕ) (n : ℕ) :
    ∑ j ∈ Finset.range n, ws.getD j 0 = (ws.take n).sum := by
  induction n with
  | zero => rfl
  | succ n ih =>
      rw [Finset.sum_range_succ, ih, List.getD_eq_getElem?_getD]
      by_cases hn : n < ws.length
      · rw [List.take_add_one, List.sum_append, List.getElem?_eq_getElem hn]
        rfl
      · rw [List.getElem?_eq_none (by omega), List.take_of_length_le (by omega),
          List.take_of_length_le (by omega)]
        rfl

theorem Sums.totalWeight (hp : Sums f p) :
    p.totalWeight = .ok (Int32.ofNat (∑ j ∈ Finset.range (levelSize (p.numLevels - 1)), f j)) := by
  have hroot := hp.nodes 0 le_rfl hp.levels 0 Nat.one_pos
  have hsum := sum_range_add_treeSum f (p.numLevels - 1 - 0) 0
  rw [Nat.zero_mul, Finset.sum_range_zero, Nat.zero_add, Nat.zero_add, Nat.one_mul] at hsum
  rw [WeightedPicker.totalWeight, read_eq hp.levels Nat.one_pos, hroot, hsum]
  rfl

theorem Weighs.totalWeight (hp : Weighs ws p) : p.totalWeight = .ok (Int32.ofNat ws.sum) := by
  have hroom := hp.sums.room
  rw [hp.sums.totalWeight, sum_range_getD, List.take_of_length_le (by rw [← hp.length]; exact hroom)]

/-- **The descent**: the sum in front of the node and the position in it are the number that is
looked for. -/
theorem descend_spec {l index position weight : ℕ} (hp : Sums f p) (hl : turns + l = p.numLevels)
    (hpos : 0 < l) (hindex : index < levelSize (l - 1))
    (hsum : ∑ j ∈ Finset.range (index * 2 ^ turns), f j + position = weight)
    (hlt : position < treeSum f turns index) (hbound : treeSum f turns index < 2 ^ 31) :
    ∃ leaf rest, p.descend turns l index (Int32.ofNat position) = .ok (leaf, Int32.ofNat rest) ∧
      leaf < levelSize (p.numLevels - 1) ∧ ∑ j ∈ Finset.range leaf, f j + rest = weight ∧
      rest < f leaf ∧ f leaf < 2 ^ 31 := by
  induction turns generalizing l index position with
  | zero =>
      refine ⟨index, position, rfl, ?_, ?_, hlt, hbound⟩
      · rw [show p.numLevels = l by omega]
        exact hindex
      · rw [pow_zero, Nat.mul_one] at hsum
        exact hsum
  | succ turns ih =>
      have hsize := levelSize_succ (l - 1)
      rw [Nat.sub_add_cancel hpos] at hsize
      have hnode := hp.nodes l (Nat.zero_le l) (by omega) (2 * index) (by omega)
      rw [show p.numLevels - 1 - l = turns by omega] at hnode
      rw [treeSum] at hlt hbound
      have hleft : index * 2 ^ (turns + 1) = 2 * index * 2 ^ turns := by
        rw [pow_succ, Nat.mul_comm 2 index, Nat.mul_assoc, Nat.mul_comm 2]
      rw [hleft] at hsum
      have hcompare : Int32.ofNat position < Int32.ofNat (treeSum f turns (2 * index)) ↔
          position < treeSum f turns (2 * index) := Int32.ofNat_lt_iff_lt (by omega) (by omega)
      rw [descend, read_eq (by omega) (by omega), hnode, Except.bind]
      by_cases hless : position < treeSum f turns (2 * index)
      · rw [if_pos (hcompare.mpr hless)]
        exact ih (by omega) (Nat.succ_pos l) (by rw [Nat.add_sub_cancel]; omega) hsum hless (by omega)
      · rw [if_neg fun hbelow => hless (hcompare.mp hbelow),
          ← Int32.ofNat_sub _ _ (Nat.not_lt.mp hless)]
        have hright := sum_range_add_treeSum f turns (2 * index)
        exact ih (by omega) (Nat.succ_pos l) (by rw [Nat.add_sub_cancel]; omega) (by omega)
          (by omega) (by omega)

/-- **The index whose weight covers a number.** -/
theorem pickAt_inside (hp : Weighs ws p) (hsum : ws.sum < 2 ^ 31) {w : ℕ} (hw : w < ws.sum) :
    ∃ i < ws.length, p.pickAt (Int32.ofNat w) = .ok i ∧ (ws.take i).sum ≤ w ∧
      w < (ws.take (i + 1)).sum := by
  have hlevels := hp.sums.levels
  have htotal : treeSum (fun j => ws.getD j 0) (p.numLevels - 1) 0 = ws.sum := by
    have htree := sum_range_add_treeSum (fun j => ws.getD j 0) (p.numLevels - 1) 0
    rw [Nat.zero_mul, Finset.sum_range_zero, Nat.zero_add, Nat.zero_add, Nat.one_mul,
      sum_range_getD, List.take_of_length_le (by rw [← hp.length]; exact hp.sums.room)] at htree
    exact htree
  obtain ⟨leaf, rest, hdescend, hleaf, hfront, hrest, hbound⟩ :=
    @descend_spec p _ (p.numLevels - 1) 1 0 w _ hp.sums (by omega) Nat.one_pos Nat.one_pos
    (by rw [Nat.zero_mul, Finset.sum_range_zero, Nat.zero_add]) (by rw [htotal]; exact hw)
    (by rw [htotal]; exact hsum)
  have hlt : leaf < ws.length := by
    by_contra hge
    rw [getD_eq_zero (Nat.not_lt.mp hge)] at hrest
    exact Nat.not_lt_zero _ hrest
  have hnext := sum_range_getD ws (leaf + 1)
  rw [Finset.sum_range_succ] at hnext
  rw [sum_range_getD] at hfront hnext
  refine ⟨leaf, hlt, ?_, by omega, by omega⟩
  rw [pickAt, hp.totalWeight, Except.bind, if_neg ?_, hdescend, Except.bind,
    if_pos (by rw [hp.length]; exact hlt), read_eq (by omega) hleaf, hp.sums.leaf hleaf,
    Except.bind, if_pos ((Int32.ofNat_le_iff_le (by omega) hbound).mpr hrest.le)]
  rintro (hnegative | hge)
  · exact Int32.not_lt.mpr (Int32.zero_le_ofNat_of_lt (by omega)) hnegative
  · rw [Int32.ofNat_le_iff_le hsum (by omega)] at hge
    omega

theorem pickAt_outside (hp : Weighs ws p) (hsum : ws.sum < 2 ^ 31) {w : Int32}
    (hw : ¬(0 ≤ w.toInt ∧ w.toInt < ws.sum)) : p.pickAt w = .ok (-1) := by
  rw [pickAt, hp.totalWeight, Except.bind, if_pos]
  rw [Int32.lt_iff_toInt_lt, Int32.le_iff_toInt_le, Int32.toInt_ofNat_of_lt hsum, Int32.toInt_zero]
  omega

theorem sum_take_le (ws : List ℕ) {i j : ℕ} (hij : i ≤ j) : (ws.take i).sum ≤ (ws.take j).sum := by
  rw [← sum_range_getD, ← sum_range_getD]
  exact Finset.sum_le_sum_of_subset (Finset.range_subset_range.mpr hij)

/-- The weight of an element covers a number. -/
def Covers (ws : List ℕ) (i : ℕ) (w : ℤ) : Prop := (ws.take i).sum ≤ w ∧ w < (ws.take (i + 1)).sum

theorem Covers.unique {j : ℕ} {w : ℤ} (hi : Covers ws i w) (hj : Covers ws j w) : j = i := by
  obtain ⟨hi, hinext⟩ := hi
  obtain ⟨hj, hjnext⟩ := hj
  rcases Nat.lt_trichotomy i j with hlt | rfl | hlt
  · have hle : (ws.take (i + 1)).sum ≤ (ws.take j).sum := sum_take_le ws hlt
    omega
  · rfl
  · have hle : (ws.take (j + 1)).sum ≤ (ws.take i).sum := sum_take_le ws hlt
    omega

/-- What a picker answers. -/
structure PicksByWeight (ws : List ℕ) (p : WeightedPicker) : Prop where
  elements : p.n = ws.length
  weights : ∀ i w : ℕ, ws[i]? = some w → ∃ weight, p.getWeight i = .ok weight ∧ weight.toInt = w
  total : ∃ total, p.totalWeight = .ok total ∧ total.toInt = ws.sum
  inside : ∀ w : Int32, 0 ≤ w.toInt → w.toInt < ws.sum →
    ∃ i < ws.length, p.pickAt w = .ok i ∧ Covers ws i w.toInt ∧ ∀ j, Covers ws j w.toInt → j = i
  outside : ∀ w : Int32, ¬(0 ≤ w.toInt ∧ w.toInt < ws.sum) → p.pickAt w = .ok (-1)

theorem Weighs.picksByWeight (hp : Weighs ws p) (hsum : ws.sum < 2 ^ 31) : PicksByWeight ws p := by
  refine ⟨hp.length, fun i w hi => ?_, ⟨_, hp.totalWeight, Int32.toInt_ofNat_of_lt hsum⟩,
    fun w hw hlt => ?_, fun w => pickAt_outside hp hsum⟩
  · have hlt := (List.getElem?_eq_some_iff.mp hi).1
    have hle : w ≤ ws.sum := List.single_le_sum (fun _ _ => Nat.zero_le _) w (List.mem_of_getElem? hi)
    refine ⟨_, hp.sums.getWeight (by rw [hp.length]; exact hlt), ?_⟩
    rw [List.getD_eq_getElem?_getD, hi]
    exact Int32.toInt_ofNat_of_lt (hle.trans_lt hsum)
  · have hvalue : (w.toNatClampNeg : ℤ) = w.toInt := Int.toNat_of_nonneg hw
    have hle : 0 ≤ w := Int32.le_iff_toInt_le.mpr hw
    obtain ⟨i, hi, hpick, hfront, hnext⟩ := pickAt_inside hp hsum (w := w.toNatClampNeg) (by omega)
    rw [Int32.ofNat_toNatClampNeg w hle] at hpick
    have hcovers : Covers ws i w.toInt := ⟨by omega, by omega⟩
    exact ⟨i, hi, hpick, hcovers, fun j => hcovers.unique⟩

/-- **Weighted picking follows the cumulative weights**, and draws have no bias. -/
theorem weighted_picking_exact {n : ℕ} (hn : n ≤ 2 ^ 30) (memory : ℕ → ℕ → Int32)
    {calls : List Call} (hcalls : AllowedCalls (List.replicate n 1) calls) :
    (∃ p q, create n memory = .ok p ∧ p.run calls = .ok q ∧
      PicksByWeight (calls.foldl (fun ws next => effect next ws) (List.replicate n 1)) q) ∧
    ∀ m : Int32, 0 < m → DrawsEvenly m := by
  obtain ⟨p, hp, -, hweighs⟩ := create_spec hn memory
  obtain ⟨q, hq, hend⟩ := run_spec hweighs hcalls
  have hstart : Bounded (List.replicate n 1) := by
    refine ⟨by rw [List.length_replicate]; exact hn, ?_⟩
    rw [List.sum_replicate_nat, Nat.mul_one]
    omega
  exact ⟨⟨p, q, hp, hq, hend.picksByWeight (hcalls.bounded hstart).2⟩, fun m => drawsEvenly⟩

theorem weighted_picking_exact_three :
    let calls : List Call := [.setWeight 1 5, .append 2 fun _ _ => 7, .resize 6 fun _ _ => 9]
    (∃ p q, create 3 (fun _ _ => 8) = .ok p ∧ p.run calls = .ok q ∧
      PicksByWeight [1, 5, 1, 2, 0, 0] q) ∧ ∀ m : Int32, 0 < m → DrawsEvenly m :=
  weighted_picking_exact (n := 3) (by decide) (fun _ _ => 8)
    ⟨⟨by decide, by decide⟩, ⟨by decide, by decide⟩, (by decide : (0 : Int32) ≤ 2),
      ⟨by decide, by decide⟩, trivial, ⟨by decide, by decide⟩, trivial⟩

/-! ## Drawing an element -/

/-- What a picker draws from the words of a generator, if its weights are not all 0. -/
structure PicksProportionally (ws : List ℕ) (p : WeightedPicker) : Prop where
  rejected : ∀ rnd words, rnd.toNat < 2 ^ 32 % ws.sum → p.pick (rnd :: words) = p.pick words
  accepted : ∀ rnd : UInt32, 2 ^ 32 % ws.sum ≤ rnd.toNat →
    ∃ i w : ℕ, ws[i]? = some w ∧ 0 < w ∧ ∀ words, p.pick (rnd :: words) = .ok (some (i, words))
  /-- An element has as many words as its weight says. -/
  proportional : ∀ i w : ℕ, ws[i]? = some w → ((Finset.range (2 ^ 32)).filter fun rnd =>
    p.pick [UInt32.ofNat rnd] = .ok (some ((i : ℤ), []))).card = w * (2 ^ 32 / ws.sum)

theorem Weighs.pick_eq (hp : Weighs ws p) (hpos : 0 < ws.sum) (hsum : ws.sum < 2 ^ 31)
    (words : List UInt32) :
    p.pick words = (drawWord (Int32.ofNat ws.sum) words).elim (.ok none) fun drawn =>
      (p.pickAt drawn.1).map fun index => some (index, drawn.2) := by
  have hlt : 0 < Int32.ofNat ws.sum := (Int32.ofNat_lt_iff_lt (by decide) hsum).mpr hpos
  have hne : Int32.ofNat ws.sum ≠ 0 := fun hzero => Int32.lt_irrefl (hzero ▸ hlt)
  rw [pick, hp.totalWeight, Except.bind, if_neg hne, unbiasedUniform,
    if_neg (Int32.not_lt.mpr (Int32.le_of_lt hlt)), if_neg hne, Except.bind]
  cases drawWord (Int32.ofNat ws.sum) words <;> rfl

theorem sum_take_succ {w : ℕ} (hw : ws[i]? = some w) :
    (ws.take (i + 1)).sum = (ws.take i).sum + w := by
  rw [List.take_add_one, List.sum_append, hw]
  rfl

theorem Weighs.picksProportionally (hp : Weighs ws p) (hsum : ws.sum < 2 ^ 31)
    (hpos : 0 < ws.sum) : PicksProportionally ws p := by
  have hskip : ∀ rnd words, rnd.toNat < 2 ^ 32 % ws.sum →
      p.pick (rnd :: words) = p.pick words := by
    intro rnd words hrnd
    rw [hp.pick_eq hpos hsum, hp.pick_eq hpos hsum, drawWord, uniformOfWord_eq hpos hsum,
      if_neg (Nat.not_le.mpr hrnd)]
  have hdraw : ∀ rnd : UInt32, 2 ^ 32 % ws.sum ≤ rnd.toNat → ∃ i < ws.length,
      (∀ words, p.pick (rnd :: words) = .ok (some ((i : ℤ), words))) ∧
        Covers ws i (rnd.toNat % ws.sum : ℕ) := by
    intro rnd hrnd
    obtain ⟨i, hi, hpick, hfront, hnext⟩ := pickAt_inside hp hsum (Nat.mod_lt rnd.toNat hpos)
    refine ⟨i, hi, fun words => ?_, Int.ofNat_le.mpr hfront, Int.ofNat_lt.mpr hnext⟩
    rw [hp.pick_eq hpos hsum, drawWord, uniformOfWord_eq hpos hsum, if_pos hrnd]
    exact congrArg (Except.map _) hpick
  refine ⟨hskip, fun rnd hrnd => ?_, fun i w hw => ?_⟩
  · obtain ⟨i, hi, hpick, hfront, hbelow⟩ := hdraw rnd hrnd
    have hnext := sum_take_succ (List.getElem?_eq_getElem hi)
    exact ⟨i, ws[i], List.getElem?_eq_getElem hi, by omega, hpick⟩
  · have hle := sum_take_le ws (le_max_left (i + 1) ws.length)
    rw [List.take_of_length_le (le_max_right _ _)] at hle
    obtain ⟨I, hI⟩ : ∃ I, I = Finset.Ico (ws.take i).sum (ws.take (i + 1)).sum := ⟨_, rfl⟩
    have hword : ∀ rnd ∈ Finset.range (2 ^ 32),
        (p.pick [UInt32.ofNat rnd] = .ok (some ((i : ℤ), [])) ↔
          2 ^ 32 % ws.sum ≤ rnd ∧ rnd % ws.sum ∈ I) := by
      intro rnd hrnd
      have htoNat : (UInt32.ofNat rnd).toNat = rnd := by
        rw [UInt32.toNat_ofNat', Nat.mod_eq_of_lt (Finset.mem_range.mp hrnd)]
      by_cases haccept : 2 ^ 32 % ws.sum ≤ rnd
      · obtain ⟨j, -, hpick, hcovers⟩ := hdraw (UInt32.ofNat rnd) (htoNat.symm ▸ haccept)
        rw [htoNat] at hcovers
        rw [hpick, hI, Finset.mem_Ico, and_iff_right haccept]
        constructor
        · intro hsame
          obtain rfl : j = i := by simpa using hsame
          exact hcovers.imp Int.ofNat_le.mp Int.ofNat_lt.mp
        · intro hinside
          rw [hcovers.unique (hinside.imp Int.ofNat_le.mpr Int.ofNat_lt.mpr)]
      · rw [hskip _ _ (htoNat.symm ▸ not_le.mp haccept), hp.pick_eq hpos hsum]
        exact iff_of_false (by simp [drawWord]) fun hboth => haccept hboth.1
    -- the numbers that the weight covers have equally many words
    rw [Finset.filter_congr hword, Finset.card_eq_sum_card_fiberwise (f := (· % ws.sum))
      fun rnd hrnd => (Finset.mem_filter.mp hrnd).2.2, Finset.sum_const_nat (m := 2 ^ 32 / ws.sum),
      hI, Nat.card_Ico, sum_take_succ hw, Nat.add_sub_cancel_left]
    intro v hv
    have hvlt := (Finset.mem_Ico.mp (hI ▸ hv)).2.trans_le hle
    rw [← card_accepted (2 ^ 32) hvlt, Finset.filter_filter]
    refine congrArg Finset.card (Finset.filter_congr fun rnd _ => ?_)
    constructor
    · rintro ⟨⟨haccept, -⟩, hvalue⟩
      exact ⟨haccept, hvalue⟩
    · rintro ⟨haccept, rfl⟩
      exact ⟨⟨haccept, hv⟩, rfl⟩

/-- **Elements are drawn in proportion to their weights**, after any calls. -/
theorem pick_is_proportional {n : ℕ} (hn : n ≤ 2 ^ 30) (memory : ℕ → ℕ → Int32)
    {calls : List Call} (hcalls : AllowedCalls (List.replicate n 1) calls) :
    let ws := calls.foldl (fun ws next => effect next ws) (List.replicate n 1)
    ∃ p q, create n memory = .ok p ∧ p.run calls = .ok q ∧
      (ws.sum = 0 → ∀ words, q.pick words = .ok (some (-1, words))) ∧
      (0 < ws.sum → PicksProportionally ws q) := by
  intro ws
  obtain ⟨p, hp, -, hweighs⟩ := create_spec hn memory
  obtain ⟨q, hq, hend⟩ := run_spec hweighs hcalls
  have hstart : Bounded (List.replicate n 1) := by
    rw [Bounded, List.length_replicate, List.sum_replicate_nat]
    omega
  refine ⟨p, q, hp, hq, fun hzero words => ?_,
    hend.picksProportionally (hcalls.bounded hstart).2⟩
  have htotal : q.totalWeight = .ok (Int32.ofNat ws.sum) := hend.totalWeight
  rw [pick, htotal, hzero]
  rfl

theorem pick_is_proportional_three :
    ∃ p q, create 3 (fun _ _ => 8) = .ok p ∧ p.run [.setWeight 1 5] = .ok q ∧
      (7 = 0 → ∀ words, q.pick words = .ok (some (-1, words))) ∧
      (0 < 7 → PicksProportionally [1, 5, 1] q) :=
  pick_is_proportional (n := 3) (by decide) (fun _ _ => 8)
    ⟨⟨by decide, by decide⟩, ⟨by decide, by decide⟩, trivial⟩

end Operations

end Picking

end ContainerScheduler.Analysis
