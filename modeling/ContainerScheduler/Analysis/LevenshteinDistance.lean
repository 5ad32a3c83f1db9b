/-
# The Levenshtein distance is exact

The last column of the dynamic program begins with a cost of zero instead of the length of the
shorter sequence. Its entry in a row is the distance or, if that is less, the number of the row, and
the last row is at least as far away as the two sequences are.
-/

import ContainerScheduler.Containers.EditDistance
import ContainerScheduler.Math.EditDistance

namespace ContainerScheduler.Analysis

open Containers.EditDistance
open Math

universe u

variable {α : Type u} {cmp : α → α → Bool}

theorem asInt_natCast {cost : ℕ} (hsmall : cost < 2 ^ 31) : asInt cost = cost :=
  Int.bmod_eq_of_le (by omega) (by omega)

/-- Elements that are equivalent. -/
abbrev Equal (cmp : α → α → Bool) (a b : α) : Prop := cmp a b = true

/-! ## The rows -/

/-- The costs of a row, behind the columns of `v`. Both prefixes are reversed. -/
def costs (cmp : α → α → Bool) (u : List α) : (v t : List α) → List ℕ
  | _, [] => []
  | v, [b] => [min (editDistance (Equal cmp) u (b :: v)) u.length]
  | v, b :: b' :: t => editDistance (Equal cmp) u (b :: v) :: costs cmp u (b :: v) (b' :: t)

/-- All prefixes of lists of this length are less than an `int` apart. -/
theorem editDistance_lt {u v : List α} (hu : u.length < 2 ^ 31 - 2) (hv : v.length < 2 ^ 31 - 2) :
    editDistance (Equal cmp) u v < 2 ^ 31 - 2 :=
  (editDistance_le_max u v).trans_lt (max_lt hu hv)

section Column

variable {u v t : List α} {a b : α}

theorem visitColumns_nil (base insertion : ℤ) (scratch : List ℤ) :
    visitColumns cmp a base insertion [] scratch = scratch := by
  rw [visitColumns.eq_def]

/-- The entry that takes the place of another. -/
def cheapest (cmp : α → α → Bool) (a b : α) (base insertion entry : ℕ) : ℕ :=
  min (entry + 1) (min (insertion + 1) (base + if cmp a b then 0 else 1))

/-- Only the distance in the row above is cut off in the last column. -/
theorem cheapest_last (u v : List α) (a b : α) :
    cheapest cmp a b (editDistance (Equal cmp) u v) (editDistance (Equal cmp) (a :: u) v)
        (min (editDistance (Equal cmp) u (b :: v)) u.length) =
      min (editDistance (Equal cmp) (a :: u) (b :: v)) (a :: u).length := by
  have hcons := @editDistance_cons _ (Equal cmp) _ a b u v
  rw [hcons, List.length_cons, cheapest]
  generalize (if cmp a b = true then 0 else 1 : ℕ) = replacement
  omega

theorem visitColumns_cons {base insertion entry : ℕ} (scratch : List ℤ)
    (hbase : base < 2 ^ 31 - 2) (hinsertion : insertion < 2 ^ 31 - 2)
    (hentry : entry < 2 ^ 31 - 2) :
    visitColumns cmp a (asInt base) (asInt (insertion + 1 : ℕ)) (b :: t) (entry :: scratch) =
      (cheapest cmp a b base insertion entry : ℤ) ::
        visitColumns cmp a (asInt entry)
          (asInt (cheapest cmp a b base insertion entry + 1 : ℕ)) t scratch := by
  have hcost : min (asInt ((entry : ℤ) + 1)) (min (asInt (insertion + 1 : ℕ))
      (asInt (asInt base + if cmp a b then 0 else 1))) =
        (cheapest cmp a b base insertion entry : ℕ) := by
    have hreplacement : ((base : ℤ) + if cmp a b then 0 else 1) =
        (base + if cmp a b then 0 else 1 : ℕ) := by
      split_ifs <;> rfl
    have hle : (base + if cmp a b then 0 else 1) < 2 ^ 31 := by
      split_ifs <;> omega
    rw [← Nat.cast_succ, asInt_natCast (by omega : base < 2 ^ 31), hreplacement,
      asInt_natCast hle, asInt_natCast (by omega), asInt_natCast (by omega), cheapest]
    omega
  rw [visitColumns, hcost]
  rfl

theorem visitColumns_costs (hu : (a :: u).length < 2 ^ 31 - 2)
    (hv : v.length + t.length < 2 ^ 31 - 2) :
    visitColumns cmp a (asInt (editDistance (Equal cmp) u v))
        (asInt (editDistance (Equal cmp) (a :: u) v + 1 : ℕ)) t
        ((costs cmp u v t).map fun cost : ℕ => (cost : ℤ)) =
      (costs cmp (a :: u) v t).map fun cost : ℕ => (cost : ℤ) := by
  have hu' : u.length < 2 ^ 31 - 2 := (Nat.lt_succ_self _).trans hu
  induction t generalizing v with
  | nil => rfl
  | cons b t ih =>
      rw [List.length_cons] at hv
      have hv' : v.length < 2 ^ 31 - 2 := by omega
      have hbv : (b :: v).length < 2 ^ 31 - 2 := by
        rw [List.length_cons]
        omega
      cases t with
      | nil =>
          have hentry : min (editDistance (Equal cmp) u (b :: v)) u.length < 2 ^ 31 - 2 :=
            (min_le_right _ _).trans_lt hu'
          rw [costs, List.map_singleton,
            visitColumns_cons [] (editDistance_lt hu' hv') (editDistance_lt hu hv') hentry, costs,
            List.map_singleton, visitColumns_nil, cheapest_last]
      | cons b' t =>
          rw [costs, List.map_cons, visitColumns_cons _ (editDistance_lt hu' hv')
            (editDistance_lt hu hv') (editDistance_lt hu' hbv), cheapest, ← editDistance_cons,
            ih (by simp only [List.length_cons] at hv ⊢; omega), costs, List.map_cons]

end Column

theorem visitRows_costs {u s t : List α} (hs : u.length + s.length < 2 ^ 31 - 2)
    (ht : t.length < 2 ^ 31 - 2) :
    visitRows cmp t u.length s ((costs cmp u [] t).map fun cost : ℕ => (cost : ℤ)) =
      (costs cmp (s.reverse ++ u) [] t).map fun cost : ℕ => (cost : ℤ) := by
  induction s generalizing u with
  | nil => rfl
  | cons a s ih =>
      rw [List.length_cons] at hs
      have hcolumns := @visitColumns_costs α cmp u [] t a (by rw [List.length_cons]; omega)
        (by rw [List.length_nil]; omega)
      rw [editDistance_nil_right, editDistance_nil_right, List.length_cons] at hcolumns
      rw [visitRows]
      push_cast at hcolumns ⊢
      rw [add_assoc, one_add_one_eq_two] at hcolumns
      rw [hcolumns, List.reverse_cons, List.append_assoc]
      exact ih (u := a :: u) (by rw [List.length_cons]; omega)

theorem costs_nil (v t : List α) :
    costs cmp [] v t =
      (List.range t.length).map fun j => if j + 1 < t.length then v.length + (j + 1) else 0 := by
  induction t generalizing v with
  | nil => rfl
  | cons b t ih =>
      cases t with
      | nil => simp [costs]
      | cons b' t =>
          have hlength : (b :: b' :: t).length = (b' :: t).length + 1 := rfl
          rw [costs, ih, hlength, List.range_succ_eq_map, List.map_cons, List.map_map,
            editDistance_nil_left, if_pos (by simp)]
          refine congrArg₂ _ rfl (List.map_congr_left fun j _ => ?_)
          simp only [Function.comp_apply, Nat.succ_eq_add_one, Nat.add_lt_add_iff_right,
            List.length_cons]
          split_ifs <;> omega

/-- The last cost of a row. -/
theorem costs_last (u v t : List α) (ht : t ≠ []) :
    (costs cmp u v t)[t.length - 1]? =
      some (min (editDistance (Equal cmp) u (t.reverse ++ v)) u.length) := by
  induction t generalizing v with
  | nil => exact absurd rfl ht
  | cons b t ih =>
      cases t with
      | nil => rfl
      | cons b' t =>
          have hlast := ih (b :: v) (List.cons_ne_nil b' t)
          rw [List.reverse_cons, List.append_assoc]
          exact hlast

/-! ## The distance -/

section Distance

variable [BEq α] {s t : List α}

theorem forall₂_of_beq (heq : ∀ a b : α, (a == b) = true → cmp a b = true)
    (hbeq : (s == t) = true) : List.Forall₂ (Equal cmp) s t := by
  induction s generalizing t with
  | nil =>
      cases t with
      | nil => exact .nil
      | cons b t => cases hbeq
  | cons a s ih =>
      cases t with
      | nil => cases hbeq
      | cons b t =>
          rw [List.cons_beq_cons, Bool.and_eq_true] at hbeq
          exact .cons (heq a b hbeq.1) (ih hbeq.2)

theorem distanceToShorter_eq (heq : ∀ a b : α, (a == b) = true → cmp a b = true)
    (hs : s.length < 2 ^ 31 - 2) (hle : t.length ≤ s.length) :
    distanceToShorter cmp s t = editDistance (Equal cmp) s.reverse t.reverse := by
  rw [distanceToShorter]
  split_ifs with hempty hbeq
  · rw [List.eq_nil_of_length_eq_zero hempty, List.reverse_nil, editDistance_nil_right,
      List.length_reverse]
  · rw [editDistance_eq_zero (List.rel_reverse (forall₂_of_beq heq hbeq))]
    rfl
  · have hne : t ≠ [] := fun hnil => hempty (congrArg List.length hnil)
    have hfirst : firstRow t.length =
        (costs cmp [] [] t).map fun cost : ℕ => (cost : ℤ) := by
      rw [costs_nil, firstRow, List.map_map]
      refine List.map_congr_left fun j _ => ?_
      rw [Function.comp_apply]
      split_ifs
      · rw [List.length_nil, Nat.zero_add]
      · rfl
    have hrows := @visitRows_costs α cmp [] s t (by rw [List.length_nil]; omega) (by omega)
    rw [List.length_nil, List.append_nil] at hrows
    have hbound := @editDistance_le_max _ (Equal cmp) _ s.reverse t.reverse
    rw [List.length_reverse, List.length_reverse, max_eq_left hle] at hbound
    rw [hfirst, hrows, List.getD_eq_getElem?_getD, List.getElem?_map, costs_last _ _ _ hne,
      List.append_nil, List.length_reverse, min_eq_left hbound]
    rfl

end Distance

/-- The result is the least number of edits, and hence the same in both directions. -/
theorem levenshtein_distance_exact [BEq α] (cmp : α → α → Bool)
    (hcmp : Equivalence fun a b => cmp a b = true)
    (heq : ∀ a b : α, (a == b) = true → cmp a b = true) (s t : List α)
    (hs : s.length < 2 ^ 31 - 2) (ht : t.length < 2 ^ 31 - 2) :
    (∃ distance : ℕ, levenshteinDistance cmp s t = distance ∧
      IsLeast {n | Edits (fun a b => cmp a b = true) n s t} distance) ∧
    levenshteinDistance cmp s t = levenshteinDistance cmp t s := by
  have hcomm : ∀ s t : List α, editDistance (Equal cmp) s t = editDistance (Equal cmp) t s :=
    editDistance_comm fun _ _ => hcmp.symm
  have hdistance : ∀ s t : List α, s.length < 2 ^ 31 - 2 → t.length < 2 ^ 31 - 2 →
      levenshteinDistance cmp s t = editDistance (Equal cmp) s.reverse t.reverse := by
    intro s t hs ht
    rw [levenshteinDistance]
    split_ifs with hlonger
    · rw [distanceToShorter_eq heq ht hlonger.le, hcomm]
    · exact distanceToShorter_eq heq hs (not_lt.mp hlonger)
  refine ⟨⟨_, hdistance s t hs ht, ?_⟩, ?_⟩
  · have hleast := @isLeast_editDistance _ (Equal cmp) _ hcmp.refl s.reverse t.reverse
    simpa only [edits_reverse] using hleast
  · rw [hdistance s t hs ht, hdistance t s ht hs, hcomm]

/-- Letters are compared without their case. -/
theorem levenshtein_distance_exact_kilo :
    (∃ distance : ℕ, levenshteinDistance (fun a b : Char => a.toLower == b.toLower)
        "Kilogram".toList "kilo".toList = distance ∧
      IsLeast {n | Edits (fun a b : Char => (a.toLower == b.toLower) = true) n
        "Kilogram".toList "kilo".toList} distance) ∧
    levenshteinDistance (fun a b : Char => a.toLower == b.toLower)
        "Kilogram".toList "kilo".toList =
      levenshteinDistance (fun a b : Char => a.toLower == b.toLower)
        "kilo".toList "Kilogram".toList :=
  levenshtein_distance_exact (fun a b : Char => a.toLower == b.toLower)
    ⟨fun _ => beq_self_eq_true _, fun hab => by rw [beq_iff_eq] at hab ⊢; exact hab.symm,
      fun hab hbc => by rw [beq_iff_eq] at hab hbc ⊢; exact hab.trans hbc⟩
    (fun _ _ hab => by rw [beq_iff_eq.mp hab]; exact beq_self_eq_true _)
    _ _ (by decide) (by decide)

end ContainerScheduler.Analysis
