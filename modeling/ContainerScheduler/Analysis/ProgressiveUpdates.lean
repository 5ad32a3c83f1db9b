/-
# Progressive updates

A progressive update takes the written parallelism to its target, and each value that it
writes should lie between the two. The guard that stops a decrease is that of a step by one,
while a step takes the half: the last half may be below the target, and then the next step is
an increase.
-/

import ContainerScheduler.Client.Updates

namespace ContainerScheduler.Analysis

open Client

/-- The written values lead from the old value to the new one without turning back. -/
structure Progressive (parallelismOld parallelismNew : ℤ) (written : List ℤ) : Prop where
  last : written.getLastD parallelismOld = parallelismNew
  silent : parallelismOld = parallelismNew → written = []
  increasing : parallelismOld ≤ parallelismNew → (parallelismOld :: written).Pairwise (· ≤ ·)
  decreasing : parallelismNew ≤ parallelismOld → (parallelismOld :: written).Pairwise (· ≥ ·)
  between : ∀ value ∈ written, min parallelismOld parallelismNew ≤ value ∧
    value ≤ max parallelismOld parallelismNew

section Loop

variable {old new half : ℤ} {written : List ℤ}

/-- A value below the target is followed by the target. -/
theorem nextParallelism_of_lt (hlt : old < new) : nextParallelism old new = new :=
  if_pos (.inl hlt)

/-- A value above the target is followed by its half. -/
theorem nextParallelism_of_gt (hpositive : 1 ≤ new) (hlt : new < old) :
    nextParallelism old new = old / 2 := by
  rw [nextParallelism, if_neg (by omega), Int.tdiv_eq_ediv_of_nonneg (by omega)]

/-- One write of an update. -/
theorem progressiveUpdateThreads_succ (fuel : ℕ) (hne : old ≠ new) :
    progressiveUpdateThreads new (fuel + 1) old =
      (progressiveUpdateThreads new fuel (nextParallelism old new)).map
        (nextParallelism old new :: ·) :=
  if_neg hne

/-- An update stops with the target: by strong induction on the old value. -/
theorem progressiveUpdateThreads_terminates (hpositive : 1 ≤ new) (old : ℤ) :
    ∃ fuel written, progressiveUpdateThreads new fuel old = some written := by
  induction hsize : old.toNat using Nat.strong_induction_on generalizing old with
  | _ size ih =>
      rcases lt_trichotomy old new with hlt | heq | hgt
      · refine ⟨2, [new], ?_⟩
        rw [progressiveUpdateThreads_succ 1 hlt.ne, nextParallelism_of_lt hlt,
          progressiveUpdateThreads, if_pos rfl]
        rfl
      · exact ⟨1, [], if_pos heq⟩
      · rcases ih (old / 2).toNat (by omega) (old / 2) rfl with ⟨fuel, written, hrun⟩
        refine ⟨fuel + 1, old / 2 :: written, ?_⟩
        rw [progressiveUpdateThreads_succ fuel hgt.ne', nextParallelism_of_gt hpositive hgt, hrun]
        rfl

/-- Nothing is written when the values agree. -/
theorem written_of_eq {fuel : ℕ} (hrun : progressiveUpdateThreads new fuel new = some written) :
    written = [] := by
  cases fuel with
  | zero => cases hrun
  | succ fuel =>
      rw [progressiveUpdateThreads, if_pos rfl] at hrun
      exact (Option.some.inj hrun).symm

theorem progressive_self : Progressive new new [] where
  last := rfl
  silent _ := rfl
  increasing _ := List.pairwise_singleton _ _
  decreasing _ := List.pairwise_singleton _ _
  between _ hmem := absurd hmem List.not_mem_nil

theorem progressive_of_lt (hlt : old < new) : Progressive old new [new] where
  last := rfl
  silent heq := absurd heq hlt.ne
  increasing hle := List.pairwise_pair.mpr hle
  decreasing hge := absurd hlt (not_lt.mpr hge)
  between value hmem := by
    rw [List.mem_singleton.mp hmem]
    exact ⟨min_le_right _ _, le_max_right _ _⟩

/-- A half that is not below the target may be written first. -/
theorem progressive_cons_iff (hhalf : half < old) (hle : new ≤ half)
    (hsilent : half = new → written = []) :
    Progressive old new (half :: written) ↔ Progressive half new written := by
  have hlt : new < old := hle.trans_lt hhalf
  constructor
  · intro hprogressive
    have hdecreasing := (List.pairwise_cons.mp (hprogressive.decreasing hlt.le)).2
    have hbetween : ∀ value ∈ written, min half new ≤ value ∧ value ≤ max half new := by
      intro value hmem
      have hlower := (hprogressive.between value (List.mem_cons_of_mem half hmem)).1
      have hupper := (List.pairwise_cons.mp hdecreasing).1 value hmem
      exact ⟨by omega, by omega⟩
    have hlast := hprogressive.last
    rw [List.getLastD_cons] at hlast
    refine ⟨hlast, hsilent, ?_, fun _ => hdecreasing, hbetween⟩
    intro hge
    rw [hsilent (le_antisymm hge hle)]
    exact List.pairwise_singleton _ _
  · intro hprogressive
    have hdecreasing := hprogressive.decreasing hle
    have hbelow : ∀ value ∈ half :: written, new ≤ value ∧ value ≤ half := by
      intro value hmem
      rcases List.mem_cons.mp hmem with rfl | hmem
      · exact ⟨hle, le_rfl⟩
      · have hbetween := hprogressive.between value hmem
        exact ⟨by omega, by omega⟩
    have hlast : (half :: written).getLastD old = new := by
      rw [List.getLastD_cons, hprogressive.last]
    refine ⟨hlast, fun heq => absurd heq hlt.ne', fun hge => absurd hlt (not_lt.mpr hge),
      fun _ => List.pairwise_cons.mpr ⟨?_, hdecreasing⟩, ?_⟩
    · intro value hmem
      exact (hbelow value hmem).2.trans hhalf.le
    · intro value hmem
      have hvalue := hbelow value hmem
      exact ⟨by omega, by omega⟩

/-- A half below the target may not. -/
theorem not_progressive_cons (hlt : new < old) (hbelow : half < new) :
    ¬ Progressive old new (half :: written) := by
  intro hprogressive
  have hbetween := (hprogressive.between half List.mem_cons_self).1
  rw [min_eq_right hlt.le] at hbetween
  exact absurd hbelow (not_lt.mpr hbetween)

/-- Halving meets the target from the half on when it does from the value on. -/
theorem exists_halving_iff (hlt : new < old) :
    (∃ k : ℕ, old / 2 ^ k = new) ↔ ∃ k : ℕ, old / 2 / 2 ^ k = new := by
  have hhalf : ∀ k : ℕ, old / 2 / 2 ^ k = old / 2 ^ (k + 1) := by
    intro k
    rw [Int.ediv_ediv_of_nonneg two_pos.le, pow_succ']
  simp only [hhalf]
  constructor
  · intro hmeets
    rcases hmeets with ⟨k, hk⟩
    cases k with
    | zero =>
        rw [pow_zero, Int.ediv_one] at hk
        exact absurd hk hlt.ne'
    | succ k => exact ⟨k, hk⟩
  · intro hmeets
    rcases hmeets with ⟨k, hk⟩
    exact ⟨k + 1, hk⟩

/-- What an update writes turns back unless it is an increase, or halving meets the target: by
induction on the writes. -/
theorem progressive_iff (hpositive : 1 ≤ new) {fuel : ℕ}
    (hrun : progressiveUpdateThreads new fuel old = some written) :
    Progressive old new written ↔ old ≤ new ∨ ∃ k : ℕ, old / 2 ^ k = new := by
  induction fuel generalizing old written with
  | zero => cases hrun
  | succ fuel ih =>
      rcases lt_trichotomy old new with hlt | rfl | hgt
      · rw [progressiveUpdateThreads_succ fuel hlt.ne, nextParallelism_of_lt hlt] at hrun
        rcases Option.map_eq_some_iff.mp hrun with ⟨rest, hrest, rfl⟩
        rw [written_of_eq hrest]
        exact iff_of_true (progressive_of_lt hlt) (.inl hlt.le)
      · rw [written_of_eq hrun]
        exact iff_of_true progressive_self (.inl le_rfl)
      · rw [progressiveUpdateThreads_succ fuel hgt.ne', nextParallelism_of_gt hpositive hgt]
          at hrun
        rcases Option.map_eq_some_iff.mp hrun with ⟨rest, hrest, rfl⟩
        rw [exists_halving_iff hgt, or_iff_right (not_le.mpr hgt)]
        rcases lt_or_ge (old / 2) new with hbelow | habove
        · apply iff_of_false (not_progressive_cons hgt hbelow)
          intro hmeets
          rcases hmeets with ⟨k, hk⟩
          have hle := Int.ediv_le_self (2 ^ k) (show 0 ≤ old / 2 by omega)
          omega
        · have hsilent : old / 2 = new → rest = [] := by
            intro heq
            rw [heq] at hrest
            exact written_of_eq hrest
          rw [progressive_cons_iff (by omega) habove hsilent, ih hrest, or_iff_right_of_imp]
          intro hle
          exact ⟨0, by rw [pow_zero, Int.ediv_one]; exact le_antisymm hle habove⟩

end Loop

/-- **A progressive update stops**, and what it writes leads to the target without turning back
if and only if the target is not below the old value or is met by halving it. -/
theorem progressive_update_iff {new : ℤ} (hnew : 1 ≤ new) (old : ℤ) :
    ∃ fuel written, progressiveUpdateThreads new fuel old = some written ∧
      (Progressive old new written ↔ old ≤ new ∨ ∃ k : ℕ, old / 2 ^ k = new) := by
  rcases progressiveUpdateThreads_terminates hnew old with ⟨fuel, written, hrun⟩
  exact ⟨fuel, written, hrun, progressive_iff hnew hrun⟩

theorem progressive_eight_to_two : ∃ fuel written,
    progressiveUpdateThreads 2 fuel 8 = some written ∧
      (Progressive 8 2 written ↔ (8 : ℤ) ≤ 2 ∨ ∃ k : ℕ, (8 : ℤ) / 2 ^ k = 2) :=
  progressive_update_iff (by decide) 8

/-- **From five to four the update writes two first.** -/
theorem progressive_update_overshoots :
    progressiveUpdateThreads 4 3 5 = some [2, 4] ∧ ¬ Progressive 5 4 [2, 4] := by
  refine ⟨rfl, ?_⟩
  intro hprogressive
  exact absurd (hprogressive.between 2 List.mem_cons_self).1 (by decide)

end ContainerScheduler.Analysis
