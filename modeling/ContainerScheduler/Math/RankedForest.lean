/-
# Ranked forests

Nodes with at most one parent, which has a higher rank. Each node has a root, and this does not
change when a node is moved below its root. When a root is linked below another one, their trees
are one.
-/

import Mathlib.Algebra.Order.Ring.Int

namespace ContainerScheduler.Math

universe u

variable {ι : Type u}

/-- The roots of the nodes, with ranks that rise towards them. -/
structure RankedForest (parent : ι → Option ι) (rank : ι → ℕ) (root : ι → ι) : Prop where
  self : ∀ x, parent x = none → root x = x
  up : ∀ x p, parent x = some p → root x = root p ∧ rank x < rank p
  top : ∀ x, parent (root x) = none
  le : ∀ x, rank x ≤ rank (root x)

/-- The roots when the tree of `c` is linked below `d`. -/
def linked [DecidableEq ι] (root : ι → ι) (c d : ι) (x : ι) : ι :=
  if root x = c then d else root x

namespace RankedForest

variable {parent : ι → Option ι} {rank : ι → ℕ} {root : ι → ι} {x a b c d : ι}

theorem root_root (hforest : RankedForest parent rank root) (x : ι) : root (root x) = root x :=
  hforest.self (root x) (hforest.top x)

theorem lt (hforest : RankedForest parent rank root) (hx : parent x ≠ none) :
    rank x < rank (root x) := by
  obtain ⟨p, hp⟩ := Option.ne_none_iff_exists'.mp hx
  obtain ⟨hroot, hlt⟩ := hforest.up x p hp
  rw [hroot]
  exact hlt.trans_le (hforest.le p)

theorem root_ne (hforest : RankedForest parent rank root) (hx : parent x ≠ none) (y : ι) :
    root y ≠ x := by
  rintro rfl
  exact hx (hforest.top y)

variable [DecidableEq ι]

/-- **Compression**: a node moves below its root. -/
theorem compress (hforest : RankedForest parent rank root) (hx : parent x ≠ none) :
    RankedForest (Function.update parent x (some (root x))) rank root := by
  refine ⟨fun y hy => ?_, fun y p hp => ?_, fun y => ?_, hforest.le⟩
  · by_cases hyx : y = x
    · rw [hyx, Function.update_self] at hy
      cases hy
    · rw [Function.update_of_ne hyx] at hy
      exact hforest.self y hy
  · by_cases hyx : y = x
    · rw [hyx, Function.update_self] at hp
      obtain rfl := Option.some.inj hp
      rw [hyx]
      exact ⟨(hforest.root_root x).symm, hforest.lt hx⟩
    · rw [Function.update_of_ne hyx] at hp
      exact hforest.up y p hp
  · rw [Function.update_of_ne (hforest.root_ne hx y)]
    exact hforest.top y

theorem linked_of_ne (hne : root x ≠ c) : linked root c d x = root x := if_neg hne

theorem linked_of_eq (heq : root x = c) : linked root c d x = d := if_pos heq

/-- **Linking**: a root goes below another one, whose rank is then above it. -/
theorem link (hforest : RankedForest parent rank root) (hc : parent c = none)
    (hd : parent d = none) (hne : c ≠ d) {r : ℕ} (hrank : rank d ≤ r) (hlt : rank c < r) :
    RankedForest (Function.update parent c (some d)) (Function.update rank d r)
      (linked root c d) := by
  have hrootd : root d = d := hforest.self d hd
  have hrootc : root c = c := hforest.self c hc
  have hlinkedd : linked root c d d = d :=
    (linked_of_ne fun heq => hne (heq.symm.trans hrootd)).trans hrootd
  refine ⟨fun x hx => ?_, fun x p hp => ?_, fun x => ?_, fun x => ?_⟩
  · have hxc : x ≠ c := by
      rintro rfl
      rw [Function.update_self] at hx
      cases hx
    rw [Function.update_of_ne hxc] at hx
    have hroot := hforest.self x hx
    have hrootc : root x ≠ c := by rwa [hroot]
    exact (linked_of_ne hrootc).trans hroot
  · by_cases hxc : x = c
    · subst hxc
      rw [Function.update_self] at hp
      obtain rfl := Option.some.inj hp
      rw [Function.update_of_ne hne, Function.update_self, linked_of_eq hrootc, hlinkedd]
      exact ⟨rfl, hlt⟩
    · rw [Function.update_of_ne hxc] at hp
      obtain ⟨hroot, hless⟩ := hforest.up x p hp
      have hxd : x ≠ d := by
        rintro rfl
        rw [hd] at hp
        cases hp
      rw [linked, linked, hroot, Function.update_of_ne hxd]
      refine ⟨rfl, ?_⟩
      by_cases hpd : p = d
      · rw [hpd] at hless ⊢
        rw [Function.update_self]
        exact hless.trans_le hrank
      · rw [Function.update_of_ne hpd]
        exact hless
  · by_cases hx : root x = c
    · rw [linked_of_eq hx, Function.update_of_ne hne.symm]
      exact hd
    · rw [linked_of_ne hx, Function.update_of_ne hx]
      exact hforest.top x
  · have hle := hforest.le x
    by_cases hx : root x = c
    · have hxd : x ≠ d := by
        rintro rfl
        exact hne (hx.symm.trans hrootd)
      rw [linked_of_eq hx, Function.update_self, Function.update_of_ne hxd]
      rw [hx] at hle
      exact (hle.trans_lt hlt).le
    · rw [linked_of_ne hx]
      by_cases hroot : root x = d
      · rw [hroot, Function.update_self]
        by_cases hxd : x = d
        · rw [hxd, Function.update_self]
        · rw [Function.update_of_ne hxd]
          rw [hroot] at hle
          exact hle.trans hrank
      · have hxd : x ≠ d := by
          rintro rfl
          exact hroot hrootd
        rw [Function.update_of_ne hxd, Function.update_of_ne hroot]
        exact hle

/-- Below the linked roots there is one tree. -/
theorem linked_eq_iff {y : ι} :
    linked root c d x = linked root c d y ↔
      root x = root y ∨ (root x = c ∨ root x = d) ∧ (root y = c ∨ root y = d) := by
  rw [linked, linked]
  split_ifs with hx hy hy
  · exact ⟨fun _ => .inl (hx.trans hy.symm), fun _ => rfl⟩
  · constructor
    · intro heq
      exact .inr ⟨.inl hx, .inr heq.symm⟩
    · rintro (heq | ⟨-, hroot⟩)
      · exact absurd (heq.symm.trans hx) hy
      · exact (hroot.resolve_left hy).symm
  · constructor
    · intro heq
      exact .inr ⟨.inr heq, .inl hy⟩
    · rintro (heq | ⟨hroot, -⟩)
      · exact absurd (heq.trans hy) hx
      · exact hroot.resolve_left hx
  · constructor
    · exact fun heq => .inl heq
    · rintro (heq | ⟨hrootx, hrooty⟩)
      · exact heq
      · exact (hrootx.resolve_left hx).trans (hrooty.resolve_left hy).symm

end RankedForest

open Relation in
/-- When two elements are joined, their classes are one. -/
theorem eqvGen_join {R : ι → ι → Prop} {root : ι → ι} {a b : ι}
    (hroot : ∀ x y, root x = root y ↔ EqvGen R x y) (x y : ι) :
    EqvGen (fun x y => R x y ∨ x = a ∧ y = b) x y ↔
      root x = root y ∨
        (root x = root a ∨ root x = root b) ∧ (root y = root a ∨ root y = root b) := by
  have hmono : ∀ x y, EqvGen R x y → EqvGen (fun x y => R x y ∨ x = a ∧ y = b) x y :=
    fun x y hxy => EqvGen.mono (fun _ _ hR => Or.inl hR) x y hxy
  have hjoined : EqvGen (fun x y => R x y ∨ x = a ∧ y = b) a b := .rel a b (.inr ⟨rfl, rfl⟩)
  have hfrom : ∀ z, root z = root a ∨ root z = root b →
      EqvGen (fun x y => R x y ∨ x = a ∧ y = b) z a := by
    rintro z (hz | hz)
    · exact hmono z a ((hroot z a).mp hz)
    · exact (hmono z b ((hroot z b).mp hz)).trans _ _ _ (hjoined.symm _ _)
  constructor
  · intro hxy
    induction hxy with
    | rel x y hR =>
        rcases hR with hR | ⟨rfl, rfl⟩
        · exact .inl ((hroot x y).mpr (.rel x y hR))
        · exact .inr ⟨.inl rfl, .inr rfl⟩
    | refl x => exact .inl rfl
    | symm x y _ ih => exact ih.imp Eq.symm And.symm
    | trans x y z _ _ ihxy ihyz =>
        rcases ihxy with hxy | ⟨hx, hy⟩
        · rw [hxy]
          exact ihyz
        · rcases ihyz with hyz | ⟨-, hz⟩
          · rw [← hyz]
            exact .inr ⟨hx, hy⟩
          · exact .inr ⟨hx, hz⟩
  · rintro (heq | ⟨hx, hy⟩)
    · exact hmono x y ((hroot x y).mp heq)
    · exact (hfrom x hx).trans _ _ _ ((hfrom y hy).symm _ _)

end ContainerScheduler.Math
