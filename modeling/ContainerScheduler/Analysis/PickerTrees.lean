/-
# The trees of weighted pickers

The nodes are the sums of the leaves below them. A path of additions keeps this, and so does a pass
from the leaves to the root.
-/

import ContainerScheduler.Math.SumTree
import ContainerScheduler.Random.WeightedPicker

namespace ContainerScheduler.Analysis

open Math
open ContainerScheduler.Random
open ContainerScheduler.Random.WeightedPicker

namespace Picking

/-- The levels from the `l`-th one on have the sums of the leaves. -/
def SumsFrom (l : ℕ) (f : ℕ → ℕ) (p : WeightedPicker) : Prop :=
  ∀ k, l ≤ k → k < p.numLevels → ∀ i < levelSize k,
    p.level k i = Int32.ofNat (treeSum f (p.numLevels - 1 - k) i)

def written (p : WeightedPicker) (l i : ℕ) (weight : Int32) : WeightedPicker :=
  { p with level := Function.update p.level l (Function.update (p.level l) i weight) }

/-- The nodes above a leaf with an addition. -/
def addedPath (p : WeightedPicker) (delta : Int32) (l index : ℕ) : WeightedPicker :=
  { p with level := fun k i =>
      if k < l ∧ i = index / 2 ^ (l - 1 - k) then p.level k i + delta else p.level k i }

/-- What a loop over one level writes. -/
def fill (p : WeightedPicker) (l i turns : ℕ) (g : ℕ → Int32) : WeightedPicker :=
  { p with level := Function.update p.level l fun j =>
      if i ≤ j ∧ j < i + turns then g j else p.level l j }

section Loops

variable {p q : WeightedPicker} {l i turns : ℕ} {g : ℕ → Int32} {f : ℕ → ℕ}

theorem read_eq (hl : l < p.numLevels) (hi : i < levelSize l) : p.read l i = .ok (p.level l i) :=
  if_pos ⟨hl, hi⟩

theorem write_eq {weight : Int32} (hl : l < p.numLevels) (hi : i < levelSize l) :
    p.write l i weight = .ok (written p l i weight) :=
  if_pos ⟨hl, hi⟩

theorem fill_level_of_ne {k : ℕ} (hk : k ≠ l) : (fill p l i turns g).level k = p.level k :=
  Function.update_of_ne hk _ _

theorem fill_level_self {j : ℕ} : (fill p l i turns g).level l j =
    if i ≤ j ∧ j < i + turns then g j else p.level l j :=
  congrFun (Function.update_self l _ p.level) j

theorem written_level_self {weight : Int32} :
    (written p l i weight).level l = Function.update (p.level l) i weight :=
  Function.update_self l _ p.level

/-- A write, and the loop behind it. -/
theorem fill_succ : fill (written p l i (g i)) l (i + 1) turns g = fill p l i (turns + 1) g := by
  rw [fill, fill, written_level_self]
  refine congrArg (fun level => ({ p with level } : WeightedPicker)) ?_
  refine (Function.update_idem _ _ p.level).trans ?_
  refine congrArg (Function.update p.level l) (funext fun j => ?_)
  by_cases hji : j = i
  · rw [hji, if_neg (by omega), if_pos (by omega), Function.update_self]
  · rw [Function.update_of_ne hji]
    by_cases hlater : i + 1 ≤ j ∧ j < i + 1 + turns
    · rw [if_pos hlater, if_pos (by omega)]
    · rw [if_neg hlater, if_neg (by omega)]

/-- A loop whose body writes to one level. -/
theorem forLoop_eq_fill {body : ℕ → WeightedPicker → Except Failure WeightedPicker}
    (hl : l < p.numLevels) (hroom : i + turns ≤ levelSize l)
    (hbody : ∀ j q, i ≤ j → j < i + turns → q.numLevels = p.numLevels →
      (∀ k, k ≠ l → q.level k = p.level k) → body j q = q.write l j (g j)) :
    forLoop body i turns p = .ok (fill p l i turns g) := by
  induction turns generalizing i p with
  | zero =>
      have hsame : fill p l i 0 g = p := by
        rw [fill]
        refine congrArg (fun level => ({ p with level } : WeightedPicker)) ?_
        refine (congrArg (Function.update p.level l) (funext fun j => ?_)).trans
          (Function.update_eq_self l p.level)
        exact if_neg (by omega)
      rw [hsame]
      rfl
  | succ turns ih =>
      rw [forLoop, hbody i p le_rfl (by omega) rfl fun _ _ => rfl, write_eq hl (by omega)]
      have hrest : ∀ j q, i + 1 ≤ j → j < i + 1 + turns →
          q.numLevels = (written p l i (g i)).numLevels →
          (∀ k, k ≠ l → q.level k = (written p l i (g i)).level k) →
          body j q = q.write l j (g j) := by
        intro j q hij hj hlevels hsame
        refine hbody j q (by omega) (by omega) hlevels fun k hk => ?_
        rw [hsame k hk]
        exact Function.update_of_ne hk _ _
      exact (ih (p := written p l i (g i)) hl (by omega) hrest).trans
        (congrArg Except.ok fill_succ)

theorem forLoop_setLeaf {weight : Int32} (hlevels : 0 < p.numLevels)
    (hroom : i + turns ≤ levelSize (p.numLevels - 1)) :
    forLoop (setLeaf weight) i turns p =
      .ok (fill p (p.numLevels - 1) i turns fun _ => weight) := by
  refine forLoop_eq_fill (by omega) hroom fun j q _ _ hsame _ => ?_
  rw [setLeaf, hsame]

/-! ## Rebuilding -/

theorem levelSize_succ (l : ℕ) : levelSize (l + 1) = 2 * levelSize l := pow_succ' 2 l

/-- One level more has the sums. -/
theorem SumsFrom.fill_level (hsums : SumsFrom (l + 1) f p) (hl : l + 1 < p.numLevels) :
    SumsFrom l f (fill p l 0 (levelSize l) fun i =>
      p.level (l + 1) (2 * i) + p.level (l + 1) (2 * i + 1)) := by
  intro k hlk hk i hi
  rcases Nat.eq_or_lt_of_le hlk with rfl | hlt
  · have hsize := levelSize_succ l
    change _ = Int32.ofNat (treeSum f (p.numLevels - 1 - l) i)
    rw [fill_level_self, if_pos (by omega), hsums (l + 1) le_rfl hl _ (by omega),
      hsums (l + 1) le_rfl hl _ (by omega), ← Int32.ofNat_add,
      show p.numLevels - 1 - l = p.numLevels - 1 - (l + 1) + 1 by omega]
    rfl
  · rw [fill_level_of_ne (by omega)]
    exact hsums k hlt hk i hi

/-- What the operations leave alone. -/
def SameShape (p q : WeightedPicker) : Prop := q.n = p.n ∧ q.numLevels = p.numLevels

theorem rebuildLevels_spec (hsums : SumsFrom l f p) (hl : l < p.numLevels) :
    ∃ q, rebuildLevels l p = .ok q ∧ SameShape p q ∧ SumsFrom 0 f q := by
  induction l generalizing p with
  | zero => exact ⟨p, rfl, ⟨rfl, rfl⟩, hsums⟩
  | succ l ih =>
      have hsize := levelSize_succ l
      have hloop : forLoop (fun i q => (q.read (l + 1) (2 * i)).bind fun left =>
          (q.read (l + 1) (2 * i + 1)).bind fun right => q.write l i (left + right))
          0 (levelSize l) p = .ok (fill p l 0 (levelSize l) fun i =>
            p.level (l + 1) (2 * i) + p.level (l + 1) (2 * i + 1)) := by
        refine forLoop_eq_fill (by omega) (by omega) fun j q _ hj hlevels hsame => ?_
        rw [read_eq (by omega) (by omega), hsame (l + 1) (by omega), Except.bind,
          read_eq (by omega) (by omega), hsame (l + 1) (by omega)]
        rfl
      obtain ⟨q, hq, hshape, hq0⟩ := ih (hsums.fill_level hl) (Nat.lt_of_succ_lt hl)
      refine ⟨q, ?_, hshape, hq0⟩
      rw [rebuildLevels, hloop]
      exact hq

/-- Leaves that are set, and the sums above them. -/
theorem rebuild_spec (hlevels : 0 < p.numLevels)
    (hleaves : ∀ i < levelSize (p.numLevels - 1), p.level (p.numLevels - 1) i = Int32.ofNat (f i)) :
    ∃ q, rebuildTreeWeights p = .ok q ∧ SameShape p q ∧ SumsFrom 0 f q := by
  refine rebuildLevels_spec (fun k hle hk i hi => ?_) (by omega)
  obtain rfl : k = p.numLevels - 1 := by omega
  rw [Nat.sub_self]
  exact hleaves i hi

/-! ## A path -/

/-- The path from a leaf up to the root. -/
theorem addPath_eq (delta : Int32) (hl : l ≤ p.numLevels) {index : ℕ}
    (hindex : index < 2 ^ (l - 1)) :
    addPath delta l index p = .ok (addedPath p delta l index) := by
  induction l generalizing p index with
  | zero => exact congrArg Except.ok (congrArg (fun level => ({ p with level } : WeightedPicker))
      (funext fun k => funext fun i => (if_neg (by omega)).symm))
  | succ l ih =>
      have hroom : index < levelSize l := hindex
      have hhalf : index / 2 < 2 ^ (l - 1) := by
        cases l with
        | zero =>
            have hzero : index < 1 := hindex
            change index / 2 < 1
            omega
        | succ l =>
            have hlt : index < 2 ^ (l + 1) := hindex
            rw [pow_succ] at hlt
            change index / 2 < 2 ^ l
            omega
      rw [addPath, read_eq hl hroom, Except.bind, write_eq hl hroom, Except.bind]
      refine (ih (p := written p l index (p.level l index + delta)) (Nat.le_of_succ_le hl)
        hhalf).trans ?_
      refine congrArg Except.ok (congrArg (fun level => ({ p with level } : WeightedPicker))
        (funext fun k => funext fun i => ?_))
      dsimp only [written]
      rcases Nat.lt_trichotomy k l with hlt | rfl | hgt
      · have hdiv : index / 2 / 2 ^ (l - 1 - k) = index / 2 ^ (l + 1 - 1 - k) := by
          rw [Nat.div_div_eq_div_mul, ← pow_succ']
          congr 2
          omega
        rw [Function.update_of_ne hlt.ne, hdiv]
        simp only [hlt, Nat.lt_succ_of_lt hlt]
      · rw [Function.update_self, if_neg (by omega), Nat.add_sub_cancel, Nat.sub_self, pow_zero,
          Nat.div_one]
        by_cases hi : i = index
        · rw [hi, Function.update_self, if_pos ⟨Nat.lt_succ_self k, rfl⟩]
        · rw [Function.update_of_ne hi, if_neg fun hboth => hi hboth.2]
      · rw [Function.update_of_ne hgt.ne', if_neg (by omega), if_neg (by omega)]

/-- A sum with one changed value, in `int32`. -/
theorem ofNat_eq_add {new old a b : ℕ} (heq : new + a = old + b) :
    Int32.ofNat new = Int32.ofNat old + (Int32.ofNat b - Int32.ofNat a) := by
  have hsum := congrArg Int32.ofNat heq
  rw [Int32.ofNat_add, Int32.ofNat_add] at hsum
  rw [Int32.sub_eq_add_neg, ← Int32.add_assoc, ← hsum, ← Int32.sub_eq_add_neg, Int32.add_sub_cancel]

/-- What holds of a picker with weights at its leaves. -/
structure Sums (f : ℕ → ℕ) (p : WeightedPicker) : Prop where
  levels : 0 < p.numLevels
  room : p.n ≤ levelSize (p.numLevels - 1)
  nodes : SumsFrom 0 f p

theorem Sums.leaf (hp : Sums f p) (hi : i < levelSize (p.numLevels - 1)) :
    p.level (p.numLevels - 1) i = Int32.ofNat (f i) := by
  have hlevels := hp.levels
  have hnode := hp.nodes (p.numLevels - 1) (Nat.zero_le _) (by omega) i hi
  rw [Nat.sub_self] at hnode
  exact hnode

theorem Sums.getWeight (hp : Sums f p) (hi : i < p.n) : p.getWeight i = .ok (Int32.ofNat (f i)) := by
  have hlevels := hp.levels
  have hroom := hi.trans_le hp.room
  rw [WeightedPicker.getWeight, if_pos hi, read_eq (by omega) hroom, hp.leaf hroom]

/-- **Setting a weight** keeps the sums. -/
theorem Sums.setWeight (hp : Sums f p) (hi : i < p.n) (weight : ℕ) :
    ∃ q, p.setWeight i (Int32.ofNat weight) = .ok q ∧ SameShape p q ∧
      Sums (Function.update f i weight) q := by
  have hlevels := hp.levels
  have hroom := hi.trans_le hp.room
  refine ⟨addedPath p (Int32.ofNat weight - Int32.ofNat (f i)) p.numLevels i, ?_, ⟨rfl, rfl⟩,
    hlevels, hp.room, ?_⟩
  · rw [WeightedPicker.setWeight, hp.getWeight hi]
    exact addPath_eq _ le_rfl hroom
  · intro k _ hk j hj
    have hupdate := treeSum_update f i weight (p.numLevels - 1 - k) j
    have hnode := hp.nodes k (Nat.zero_le k) hk j hj
    change (if k < p.numLevels ∧ j = i / 2 ^ (p.numLevels - 1 - k) then
      p.level k j + (Int32.ofNat weight - Int32.ofNat (f i)) else p.level k j) =
        Int32.ofNat (treeSum (Function.update f i weight) (p.numLevels - 1 - k) j)
    rw [hnode]
    by_cases hpath : j = i / 2 ^ (p.numLevels - 1 - k)
    · rw [if_pos hpath, if_pos hpath] at hupdate
      rw [if_pos ⟨hk, hpath⟩]
      exact (ofNat_eq_add hupdate).symm
    · rw [if_neg hpath, if_neg hpath] at hupdate
      rw [if_neg fun hboth => hpath hboth.2]
      exact congrArg Int32.ofNat hupdate.symm

end Loops

end Picking

end ContainerScheduler.Analysis
