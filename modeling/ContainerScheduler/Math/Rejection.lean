/-
# Rejection

Of the numbers below `m`, those below the remainder by `n` are rejected. The others have each
remainder equally often.
-/

import Mathlib.Data.Int.CardIntervalMod

namespace ContainerScheduler.Math

section Rejection

variable {n v : ℕ}

theorem card_filter_mod (m : ℕ) (hv : v < n) :
    ((Finset.range m).filter fun w => w % n = v).card = m / n + if v < m % n then 1 else 0 := by
  have hcount := Nat.count_modEq_card m (Nat.zero_lt_of_lt hv) v
  rw [Nat.count_eq_card_filter_range, Nat.mod_eq_of_lt hv] at hcount
  rw [← hcount]
  refine congrArg Finset.card (Finset.filter_congr fun w _ => ?_)
  rw [Nat.ModEq, Nat.mod_eq_of_lt hv]

/-- **Each remainder is accepted equally often.** -/
theorem card_accepted (m : ℕ) (hv : v < n) :
    ((Finset.range m).filter fun w => m % n ≤ w ∧ w % n = v).card = m / n := by
  have hpos := Nat.zero_lt_of_lt hv
  have hunion : (Finset.range m).filter (fun w => w % n = v) =
      (Finset.range m).filter (fun w => m % n ≤ w ∧ w % n = v) ∪
        (Finset.range (m % n)).filter (fun w => w % n = v) := by
    ext w
    have hle := Nat.mod_le m n
    simp only [Finset.mem_filter, Finset.mem_union, Finset.mem_range]
    constructor
    · rintro ⟨hlt, hmod⟩
      rcases Nat.lt_or_ge w (m % n) with hless | hge
      · exact .inr ⟨hless, hmod⟩
      · exact .inl ⟨hlt, hge, hmod⟩
    · rintro (⟨hlt, -, hmod⟩ | ⟨hless, hmod⟩)
      · exact ⟨hlt, hmod⟩
      · exact ⟨hless.trans_le hle, hmod⟩
  have hdisjoint : Disjoint ((Finset.range m).filter fun w => m % n ≤ w ∧ w % n = v)
      ((Finset.range (m % n)).filter fun w => w % n = v) := by
    refine Finset.disjoint_left.mpr fun w hin hout => ?_
    simp only [Finset.mem_filter, Finset.mem_range] at hin hout
    omega
  have hall := card_filter_mod m hv
  have hrejected := card_filter_mod (m % n) hv
  rw [hunion, Finset.card_union_of_disjoint hdisjoint, hrejected, Nat.mod_mod,
    Nat.div_eq_of_lt (Nat.mod_lt m hpos)] at hall
  omega

end Rejection

end ContainerScheduler.Math
