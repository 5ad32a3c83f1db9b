/-
# Boxes of integer cells

A box is a list of half-open ranges, one for each dimension, and its cells are the points whose
coordinates lie in these ranges. Intersections and hulls are computed range by range.
-/

import Mathlib.Algebra.Order.Ring.Int
import Mathlib.Data.Int.ConditionallyCompleteOrder
import Mathlib.Data.Int.Interval
import Mathlib.Order.ConditionallyCompleteLattice.Indexed

namespace ContainerScheduler.Math

/-- The ranges `lower ≤ x < upper` of the dimensions. -/
abbrev Box := List (ℤ × ℤ)

namespace Box

/-- A coordinate in front of a point. -/
def consCell : ℤ × List ℤ ↪ List ℤ where
  toFun point := point.1 :: point.2
  inj' first second heq := by
    injection heq with hhead htail
    exact Prod.ext hhead htail

/-- The points of a box. -/
noncomputable def cells : Box → Finset (List ℤ)
  | [] => {[]}
  | range :: rest => (Finset.Ico range.1 range.2 ×ˢ cells rest).map consCell

/-- The common part of two ranges. -/
def interRange (first second : ℤ × ℤ) : ℤ × ℤ :=
  (max first.1 second.1, min first.2 second.2)

@[simp]
theorem mem_cells_cons {range : ℤ × ℤ} {rest : Box} {x : ℤ} {xs : List ℤ} :
    x :: xs ∈ cells (range :: rest) ↔ (range.1 ≤ x ∧ x < range.2) ∧ xs ∈ cells rest := by
  rw [cells, ← Finset.mem_Ico, ← Finset.mem_product (p := (x, xs))]
  exact Finset.mem_map' consCell (a := (x, xs))

theorem nil_not_mem_cells {range : ℤ × ℤ} {rest : Box} : [] ∉ cells (range :: rest) := by
  simp [cells, consCell]

theorem card_cells (box : Box) :
    (cells box).card = (box.map fun range => (range.2 - range.1).toNat).prod := by
  induction box with
  | nil => rfl
  | cons range rest ih =>
      rw [cells, Finset.card_map, Finset.card_product, Int.card_Ico, ih, List.map_cons,
        List.prod_cons]

/-- Boxes of one rank intersect dimension by dimension. -/
theorem cells_inter {first second : Box} (hlength : first.length = second.length) :
    cells (List.zipWith interRange first second) = cells first ∩ cells second := by
  induction first generalizing second with
  | nil =>
      rw [List.length_nil, eq_comm, List.length_eq_zero_iff] at hlength
      rw [hlength, List.zipWith_nil_left, Finset.inter_self]
  | cons range rest ih =>
      cases second with
      | nil => cases hlength
      | cons range' rest' =>
          ext cell
          rw [List.zipWith_cons_cons, Finset.mem_inter]
          cases cell with
          | nil => simp only [nil_not_mem_cells, false_and]
          | cons x xs =>
              rw [mem_cells_cons, mem_cells_cons, mem_cells_cons, ih (Nat.succ.inj hlength),
                Finset.mem_inter]
              simp only [interRange, max_le_iff, lt_min_iff]
              tauto

/-- Wider ranges have more cells. -/
theorem cells_subset {box wider : Box}
    (hwider : List.Forall₂ (fun range range' => range'.1 ≤ range.1 ∧ range.2 ≤ range'.2)
      box wider) :
    cells box ⊆ cells wider := by
  induction hwider with
  | nil => exact subset_rfl
  | cons hrange _ ih =>
      intro cell hcell
      cases cell with
      | nil => exact absurd hcell nil_not_mem_cells
      | cons x xs =>
          rw [mem_cells_cons] at hcell ⊢
          exact ⟨⟨hrange.1.trans hcell.1.1, hcell.1.2.trans_le hrange.2⟩, ih hcell.2⟩

theorem cells_nonempty {box : Box} (hranges : ∀ range ∈ box, range.1 < range.2) :
    (cells box).Nonempty := by
  induction box with
  | nil => exact ⟨[], Finset.mem_singleton_self []⟩
  | cons range rest ih =>
      rcases ih fun range' hmem => hranges range' (List.mem_cons_of_mem _ hmem) with ⟨xs, hxs⟩
      refine ⟨range.1 :: xs, mem_cells_cons.mpr ⟨⟨le_rfl, ?_⟩, hxs⟩⟩
      exact hranges range List.mem_cons_self

end Box

/-! ## Covering by disjoint parts -/

/-- What disjoint parts have of a set they have together. -/
theorem sum_card_inter_eq {α : Type*} [DecidableEq α] (target : Finset α) {parts : List (Finset α)}
    (hdisjoint : parts.Pairwise Disjoint) :
    (parts.map fun part => (target ∩ part).card).sum =
      (target.filter fun x => ∃ part ∈ parts, x ∈ part).card := by
  induction parts with
  | nil => simp
  | cons part parts ih =>
      rcases List.pairwise_cons.mp hdisjoint with ⟨hpart, hparts⟩
      have hsplit : (target.filter fun x => ∃ part' ∈ part :: parts, x ∈ part') =
          target ∩ part ∪ target.filter fun x => ∃ part' ∈ parts, x ∈ part' := by
        ext x
        simp only [Finset.mem_filter, Finset.mem_union, Finset.mem_inter, List.exists_mem_cons_iff]
        tauto
      have hapart : Disjoint (target ∩ part)
          (target.filter fun x => ∃ part' ∈ parts, x ∈ part') := by
        rw [Finset.disjoint_left]
        intro x hx hx'
        rcases (Finset.mem_filter.mp hx').2 with ⟨part', hpart', hmem⟩
        exact Finset.disjoint_left.mp (hpart part' hpart') (Finset.mem_inter.mp hx).2 hmem
      rw [List.map_cons, List.sum_cons, ih hparts, hsplit, Finset.card_union_of_disjoint hapart]

/-- Disjoint parts cover a set if and only if their shares add up to it. -/
theorem sum_card_inter_eq_card_iff {α : Type*} [DecidableEq α] (target : Finset α)
    {parts : List (Finset α)} (hdisjoint : parts.Pairwise Disjoint) :
    (parts.map fun part => (target ∩ part).card).sum = target.card ↔
      ∀ x ∈ target, ∃ part ∈ parts, x ∈ part := by
  rw [sum_card_inter_eq target hdisjoint, Finset.card_filter_eq_iff]

end ContainerScheduler.Math
