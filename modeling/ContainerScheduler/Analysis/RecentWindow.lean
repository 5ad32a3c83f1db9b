/-
# Duplicate requests are caught in a window

The set holds what the circular buffer holds, other than zero, and the buffer
holds the last ids that have been accepted. An id that is refused is not written
again, so it keeps its age.
-/

import ContainerScheduler.Math.RingQueue
import ContainerScheduler.Rendezvous.RecentRequestIds
import Mathlib.Data.List.GetD

namespace ContainerScheduler.Analysis

open Math Math.SlidingWindow Rendezvous

/-- The ids other than zero that have been accepted, the last of which comes last. -/
def acceptedIds (calls : List (ℤ × Bool)) : List ℤ :=
  (calls.filter fun call => call.1 ≠ 0 ∧ call.2 = true).map Prod.fst

/-- The set and the circular buffer are in step with this history of accepted ids. -/
structure InStep (n : ℕ) (history : List ℤ) (s : RecentRequestIds) : Prop where
  nextIndex : s.nextIndex < n
  length : s.circularBuffer.length = n
  rotated : s.circularBuffer.rotate s.nextIndex = window n 0 history
  tracked : ∀ id, id ∈ s.set ↔ id ≠ 0 ∧ id ∈ window n 0 history
  /-- Only zero occurs more than once. -/
  distinct : (window n 0 history).Pairwise fun first second => first = second → first = 0

section InStep

variable {n : ℕ} {history : List ℤ} {s : RecentRequestIds} {id : ℤ}

theorem InStep.init (hn : 0 < n) : InStep n [] (.init n) := by
  refine ⟨hn, List.length_replicate, ?_, ?_, ?_⟩
  · rw [window_nil]
    exact List.rotate_zero _
  · intro id
    rw [window_nil, List.mem_replicate]
    exact ⟨fun hmem => absurd hmem (Finset.notMem_empty id), fun hmem => absurd hmem.2.2 hmem.1⟩
  · rw [window_nil, List.pairwise_replicate]
    exact .inr fun _ => rfl

/-- The window, the oldest entry of which is at the next place. -/
theorem InStep.window_eq (hs : InStep n history s) :
    window n 0 history =
      s.circularBuffer.getD s.nextIndex 0 :: (window n 0 history).tail := by
  have hlt : s.nextIndex < s.circularBuffer.length := hs.length ▸ hs.nextIndex
  have hdrop : s.circularBuffer.drop s.nextIndex =
      s.circularBuffer.getD s.nextIndex 0 :: s.circularBuffer.drop (s.nextIndex + 1) := by
    rw [List.getD_eq_getElem _ _ hlt, List.drop_eq_getElem_cons hlt]
  rw [← hs.rotated, List.rotate_eq_drop_append_take hlt.le, hdrop]
  rfl

/-- An id that is not tracked displaces the oldest one. -/
theorem InStep.insert_new (hs : InStep n history s) (hne : id ≠ 0) (hnew : id ∉ s.set) :
    InStep n (history ++ [id]) (s.insert id).2 := by
  have hn : 0 < n := Nat.zero_lt_of_lt hs.nextIndex
  have hlt : s.nextIndex < s.circularBuffer.length := hs.length ▸ hs.nextIndex
  have hnext := @window_append_singleton _ n 0 id history hn
  have hfresh : id ∉ window n 0 history := fun hmem => hnew ((hs.tracked id).mpr ⟨hne, hmem⟩)
  have hwindow := hs.window_eq
  have hdistinct := hs.distinct
  rw [hwindow] at hfresh hdistinct
  obtain ⟨holdest, hrest⟩ := List.pairwise_cons.mp hdistinct
  rw [RecentRequestIds.insert, if_neg hne, if_neg hnew]
  constructor
  · rw [← hs.length]
    exact Nat.mod_lt _ (Nat.zero_lt_of_lt hlt)
  · rw [List.length_set, hs.length]
  · rw [hnext, ← hs.rotated]
    exact rotate_set hlt
  · intro other
    rw [hnext, Finset.mem_erase, Finset.mem_insert, hs.tracked, List.mem_append,
      List.mem_singleton]
    constructor
    · rintro ⟨hother, rfl | ⟨hzero, hmem⟩⟩
      · exact ⟨hne, .inr rfl⟩
      · rw [hwindow] at hmem
        exact ⟨hzero, .inl ((List.mem_cons.mp hmem).resolve_left hother)⟩
    · rintro ⟨hzero, hmem | rfl⟩
      · refine ⟨fun heq => hzero ?_, .inr ⟨hzero, List.mem_of_mem_tail hmem⟩⟩
        rw [heq]
        exact holdest other hmem heq.symm
      · exact ⟨fun heq => hfresh (heq ▸ List.mem_cons_self), .inl rfl⟩
  · rw [hnext, List.pairwise_append]
    refine ⟨hrest, List.pairwise_singleton _ _, ?_⟩
    intro first hfirst second hsecond heq
    rw [List.mem_singleton.mp hsecond] at heq
    exact absurd (List.mem_cons_of_mem _ (heq ▸ hfirst)) hfresh

theorem InStep.insert_eq_false_iff (hs : InStep n history s) (hne : id ≠ 0) :
    (s.insert id).1 = false ↔ id ∈ history.rtake n := by
  have htracked := hs.tracked id
  rw [mem_window hne] at htracked
  rw [RecentRequestIds.insert, if_neg hne]
  split_ifs with hmem
  · simpa using (htracked.mp hmem).2
  · simpa [hne] using mt htracked.mpr hmem

end InStep

/-- One more call. -/
theorem inserts_append {n : ℕ} (ids : List ℤ) (id : ℤ) :
    RecentRequestIds.inserts n (ids ++ [id]) =
      ((RecentRequestIds.inserts n ids).1 ++
          [(id, ((RecentRequestIds.inserts n ids).2.insert id).1)],
        ((RecentRequestIds.inserts n ids).2.insert id).2) := by
  rw [RecentRequestIds.inserts, List.foldl_append]
  rfl

/-- After any calls. -/
theorem inStep_inserts {n : ℕ} (hn : 0 < n) (ids : List ℤ) :
    InStep n (acceptedIds (RecentRequestIds.inserts n ids).1)
      (RecentRequestIds.inserts n ids).2 := by
  induction ids using List.reverseRecOn with
  | nil => exact InStep.init hn
  | append_singleton ids id ih =>
      rw [inserts_append, acceptedIds, List.filter_append, List.map_append, ← acceptedIds]
      by_cases hzero : id = 0
      · subst hzero
        rw [List.filter_cons_of_neg (by simp), List.filter_nil, List.map_nil, List.append_nil]
        exact ih
      · by_cases hmem : id ∈ (RecentRequestIds.inserts n ids).2.set
        · have hinsert : (RecentRequestIds.inserts n ids).2.insert id =
              (false, (RecentRequestIds.inserts n ids).2) := by
            rw [RecentRequestIds.insert, if_neg hzero, if_pos hmem]
          rw [hinsert, List.filter_cons_of_neg (by simp), List.filter_nil, List.map_nil,
            List.append_nil]
          exact ih
        · have hanswer : ((RecentRequestIds.inserts n ids).2.insert id).1 = true := by
            rw [RecentRequestIds.insert, if_neg hzero, if_neg hmem]
          rw [List.filter_cons_of_pos (by simp [hzero, hanswer]), List.filter_nil, List.map_cons,
            List.map_nil]
          exact ih.insert_new hzero hmem

/-- A request is refused exactly if its id is among the last `n` that have been accepted. Zero is
always accepted and changes nothing, and the set holds nothing that is not in the buffer. -/
theorem duplicates_are_caught (n : ℕ) (hn : 0 < n) (ids : List ℤ) :
    let run := RecentRequestIds.inserts n ids
    (∀ id, id ≠ 0 → ((run.2.insert id).1 = false ↔ id ∈ (acceptedIds run.1).rtake n)) ∧
      run.2.insert 0 = (true, run.2) ∧ ∀ id ∈ run.2.set, id ∈ run.2.circularBuffer := by
  have hs := inStep_inserts hn ids
  refine ⟨fun id hne => hs.insert_eq_false_iff hne, rfl, fun id hmem => ?_⟩
  have hwindow := ((hs.tracked id).mp hmem).2
  rw [← hs.rotated, List.mem_rotate] at hwindow
  exact hwindow

theorem duplicates_are_caught_three :
    let run := RecentRequestIds.inserts 3 [5, 6, 5, 0, 7, 8]
    (∀ id, id ≠ 0 → ((run.2.insert id).1 = false ↔ id ∈ (acceptedIds run.1).rtake 3)) ∧
      run.2.insert 0 = (true, run.2) ∧ ∀ id ∈ run.2.set, id ∈ run.2.circularBuffer :=
  duplicates_are_caught 3 (by decide) [5, 6, 5, 0, 7, 8]

end ContainerScheduler.Analysis
