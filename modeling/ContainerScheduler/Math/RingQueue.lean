/-
# Rings of a fixed length

A queue lies in the cells of a ring from its head on. Its tail is the cell behind its last element,
so a ring of `n` cells holds at most `n - 1` elements, and is empty when head and tail agree.

A ring whose place of the next entry holds the oldest one holds a window of the history: what was in
it at first, and the entries written since, as far as they are among the last ones.
-/

import Mathlib.Data.List.DropRight
import Mathlib.Data.List.Rotate
import Mathlib.Data.Nat.ModEq

namespace ContainerScheduler.Math

universe u

variable {α : Type u}

/-- What waits in the cells between head and tail. -/
structure RingQueue (cells : ℕ → Option α) (n head tail : ℕ) (waiting : List α) : Prop where
  head_lt : head < n
  length_lt : waiting.length < n
  tail_eq : tail = (head + waiting.length) % n
  get : ∀ i < waiting.length, cells ((head + i) % n) = waiting[i]?

namespace RingQueue

variable {cells : ℕ → Option α} {n head tail : ℕ} {waiting : List α}

theorem nil (hhead : head < n) : RingQueue cells n head head [] :=
  ⟨hhead, Nat.zero_lt_of_lt hhead, (Nat.mod_eq_of_lt hhead).symm, fun _ hi => absurd hi (by simp)⟩

/-- Two positions of the queue do not meet in the ring. -/
theorem mod_ne {i j : ℕ} (hlt : i < j) (hj : j < n) : (head + i) % n ≠ (head + j) % n := by
  intro heq
  have hi := Nat.mod_eq_of_lt (Nat.lt_trans hlt hj)
  have hsame := Nat.ModEq.add_left_cancel' head heq
  rw [Nat.ModEq, hi, Nat.mod_eq_of_lt hj] at hsame
  omega

theorem tail_lt (hqueue : RingQueue cells n head tail waiting) : tail < n := by
  rw [hqueue.tail_eq]
  exact Nat.mod_lt _ (Nat.zero_lt_of_lt hqueue.head_lt)

theorem head_eq_tail_iff (hqueue : RingQueue cells n head tail waiting) :
    head = tail ↔ waiting = [] := by
  rw [hqueue.tail_eq]
  constructor
  · intro heq
    by_contra hne
    have hpos := List.length_pos_iff.mpr hne
    refine @mod_ne n head _ _ hpos hqueue.length_lt ?_
    rw [Nat.add_zero, Nat.mod_eq_of_lt hqueue.head_lt]
    exact heq
  · rintro rfl
    exact (Nat.mod_eq_of_lt hqueue.head_lt).symm

theorem push (hqueue : RingQueue cells n head tail waiting) (hroom : waiting.length + 1 < n)
    {cells' : ℕ → Option α} {e : α}
    (hcells : ∀ i, cells' i = if i = tail then some e else cells i) :
    RingQueue cells' n head ((tail + 1) % n) (waiting ++ [e]) := by
  refine ⟨hqueue.head_lt, by simpa using hroom, ?_, fun i hi => ?_⟩
  · rw [hqueue.tail_eq, List.length_append, List.length_singleton, Nat.mod_add_mod, Nat.add_assoc]
  · rw [List.length_append, List.length_singleton] at hi
    rw [hcells, hqueue.tail_eq]
    rcases Nat.lt_succ_iff_lt_or_eq.mp hi with hlt | rfl
    · rw [if_neg (mod_ne hlt hqueue.length_lt), hqueue.get i hlt,
        List.getElem?_append_left hlt]
    · rw [if_pos rfl, List.getElem?_append_right (Nat.le_refl _), Nat.sub_self]
      rfl

theorem pop {e : α} (hqueue : RingQueue cells n head tail (e :: waiting)) :
    cells head = some e ∧ RingQueue cells n ((head + 1) % n) tail waiting := by
  have hn := Nat.zero_lt_of_lt hqueue.head_lt
  have hlength := hqueue.length_lt
  rw [List.length_cons] at hlength
  refine ⟨?_, Nat.mod_lt _ hn, by omega, ?_, fun i hi => ?_⟩
  · have hget := hqueue.get 0 (by simp)
    rwa [Nat.add_zero, Nat.mod_eq_of_lt hqueue.head_lt] at hget
  · rw [hqueue.tail_eq, List.length_cons, Nat.mod_add_mod, Nat.add_assoc, Nat.add_comm 1]
  · have hget := hqueue.get (i + 1) (by simpa using hi)
    rwa [List.getElem?_cons_succ, Nat.add_comm i, ← Nat.add_assoc, ← Nat.mod_add_mod] at hget

end RingQueue

/-! ## The last entries of a history -/

/-- The last `n` entries behind these initial ones. -/
def window (n : ℕ) (initial : α) (history : List α) : List α :=
  (List.replicate n initial ++ history).rtake n

namespace SlidingWindow

variable {n : ℕ} {initial a : α} {history : List α}

theorem window_nil : window n initial ([] : List α) = List.replicate n initial := by
  simp [window, List.rtake.eq_def]

/-- The next entry displaces the oldest one. -/
theorem window_append_singleton (hn : 0 < n) :
    window n initial (history ++ [a]) = (window n initial history).tail ++ [a] := by
  have hlong : (List.replicate n initial ++ history).length - n + 1 ≤
      (List.replicate n initial ++ history).length := by
    rw [List.length_append, List.length_replicate]
    omega
  rw [window, window, List.rtake.eq_def, List.rtake.eq_def, ← List.append_assoc, List.tail_drop,
    List.length_append, List.length_singleton, Nat.sub_add_comm,
    List.drop_append_of_le_length hlong]
  rw [List.length_append, List.length_replicate]
  omega

/-- The window holds the initial entry until it is full, and else the last entries. -/
theorem mem_window (hne : a ≠ initial) : a ∈ window n initial history ↔ a ∈ history.rtake n := by
  rw [window, List.rtake.eq_def, List.rtake.eq_def, List.length_append, List.length_replicate,
    Nat.add_sub_cancel_left, List.drop_append, List.drop_replicate, List.length_replicate,
    List.mem_append, List.mem_replicate]
  simp [hne]

/-- The entry at the place goes to the back, where it is overwritten. -/
theorem rotate_set {ring : List α} {i : ℕ} (hi : i < ring.length) :
    (ring.set i a).rotate ((i + 1) % ring.length) = (ring.rotate i).tail ++ [a] := by
  have hlength : (ring.set i a).length = ring.length := List.length_set
  have htake : (ring.set i a).take (i + 1) = ring.take i ++ [a] := by
    rw [List.take_add_one, List.take_set_of_le le_rfl, List.getElem?_set_self hi]
    rfl
  have hdrop : ring.drop i ≠ [] := by simpa using hi
  rw [← hlength, List.rotate_mod, List.rotate_eq_drop_append_take (hlength ▸ hi),
    List.drop_set_of_lt (Nat.lt_succ_self i), htake, List.rotate_eq_drop_append_take hi.le,
    List.tail_append_of_ne_nil hdrop, List.tail_drop, List.append_assoc]

end SlidingWindow

end ContainerScheduler.Math
