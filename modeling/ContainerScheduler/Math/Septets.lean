/-
# Numbers in groups of seven bits

A number is written with seven bits in each byte, the lowest first. The top bit is set in every byte
but the last, so the end can be seen, and no encoding is the start of another.
-/

import Mathlib.Data.Nat.Bitwise

namespace ContainerScheduler.Math

/-- The groups of a number, with the top bit in all but the last. -/
def septets (v : ℕ) : List ℕ :=
  if v < 128 then [v] else (v % 128 + 128) :: septets (v / 128)

theorem septets_of_lt {v : ℕ} (hlt : v < 128) : septets v = [v] := by
  rw [septets, if_pos hlt]

theorem septets_of_le {v : ℕ} (hle : 128 ≤ v) :
    septets v = (v % 128 + 128) :: septets (v / 128) := by
  rw [septets, if_neg hle.not_gt]

/-- The last group ends the number, and those before it do not. -/
theorem septets_eq_append (v : ℕ) : ∃ front last, septets v = front ++ [last] ∧ last < 128 ∧
    ∀ byte ∈ front, 128 ≤ byte ∧ byte < 256 := by
  induction v using Nat.strongRecOn with
  | ind v ih =>
    by_cases hsmall : v < 128
    · exact ⟨[], v, septets_of_lt hsmall, hsmall, by simp⟩
    · obtain ⟨front, last, heq, hlast, hfront⟩ := ih (v / 128) (by omega)
      refine ⟨(v % 128 + 128) :: front, last, ?_, hlast, ?_⟩
      · rw [septets_of_le (not_lt.mp hsmall), heq, List.cons_append]
      · intro byte hmem
        rcases List.mem_cons.mp hmem with rfl | hmem
        · omega
        · exact hfront byte hmem

theorem lt_of_mem_septets {v byte : ℕ} (hmem : byte ∈ septets v) : byte < 256 := by
  obtain ⟨front, last, heq, hlast, hfront⟩ := septets_eq_append v
  rw [heq, List.mem_append, List.mem_singleton] at hmem
  rcases hmem with hmem | rfl
  · exact (hfront byte hmem).2
  · omega

/-- The groups of a proper prefix do not end the number. -/
theorem le_of_mem_prefix {v : ℕ} {front : List ℕ} (hfront : front <+: septets v)
    (hproper : front ≠ septets v) {byte : ℕ} (hmem : byte ∈ front) : 128 ≤ byte := by
  obtain ⟨most, last, heq, -, hmost⟩ := septets_eq_append v
  rw [heq] at hfront hproper
  rcases List.prefix_concat_iff.mp hfront with hwhole | hfront
  · exact absurd hwhole hproper
  · exact (hmost byte (hfront.subset hmem)).1

end ContainerScheduler.Math
