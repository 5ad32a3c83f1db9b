/-
# Depth-first search with an explicit stack

The search pops a node, marks it unless it is marked already, and pushes those of its
successors that are worth a visit. A successor can stop the search at once. The marks
that are there at the start are left alone, and what is marked is listed in order.

A fuel bounds the number of pops. The pushes are at most the edges of the nodes that
get marked, so the number of edges of a finite graph is enough.
-/

import Mathlib.Algebra.Order.BigOperators.Group.List
import Mathlib.Algebra.Order.Group.Nat
import Mathlib.Algebra.Order.Ring.Int
import Mathlib.Data.List.Nodup

namespace ContainerScheduler.Math

universe u

variable {α : Type u}

/-- How a search ended: whether a successor stopped it, what it marked, and all marks. -/
structure Found (α : Type u) where
  stopped : Bool
  marked : List α
  visited : α → Bool

section Search

variable (next : α → List α) (stop keep : α → Bool)

/-- Push the successors that are kept and not marked; `none` when one of them stops the
search. -/
def pushAll (visited : α → Bool) : List α → List α → Option (List α)
  | [], stack => some stack
  | w :: ws, stack =>
      if stop w then none
      else pushAll visited ws (if !visited w && keep w then w :: stack else stack)

/-- What `pushAll` leaves on the stack. -/
theorem pushAll_spec (visited : α → Bool) (ws stack : List α) :
    (pushAll stop keep visited ws stack = none ∧ ∃ w ∈ ws, stop w = true) ∨
      ∃ pushed, pushAll stop keep visited ws stack = some (pushed ++ stack) ∧
        pushed.length ≤ ws.length ∧ (∀ w ∈ ws, stop w = false) ∧
        (∀ w ∈ pushed, w ∈ ws ∧ keep w = true) ∧
        ∀ w ∈ ws, keep w = true → visited w = true ∨ w ∈ pushed := by
  induction ws generalizing stack with
  | nil => exact .inr ⟨[], rfl, le_rfl, by simp, by simp, by simp⟩
  | cons w ws ih =>
      rw [pushAll]
      by_cases hstop : stop w = true
      · exact .inl ⟨if_pos hstop, w, List.mem_cons_self, hstop⟩
      rw [if_neg hstop]
      obtain ⟨hnone, other, hother, hstops⟩ | ⟨pushed, hpushed, hlength, hgoes, hkeep, hall⟩ :=
        ih (if !visited w && keep w then w :: stack else stack)
      · exact .inl ⟨hnone, other, List.mem_cons_of_mem w hother, hstops⟩
      have hgo : ∀ other ∈ w :: ws, stop other = false :=
        List.forall_mem_cons.mpr ⟨Bool.eq_false_iff.mpr hstop, hgoes⟩
      by_cases hpush : (!visited w && keep w) = true
      · rw [if_pos hpush] at hpushed ⊢
        obtain ⟨-, hkept⟩ := Bool.and_eq_true_iff.mp hpush
        refine .inr ⟨pushed ++ [w], by simpa using hpushed, ?_, hgo, ?_, ?_⟩
        · simpa using hlength
        · intro other hmem
          obtain hmem | hmem := List.mem_append.mp hmem
          · exact ⟨List.mem_cons_of_mem w (hkeep other hmem).1, (hkeep other hmem).2⟩
          · obtain rfl := List.mem_singleton.mp hmem
            exact ⟨List.mem_cons_self, hkept⟩
        · intro other hmem hkept'
          obtain rfl | hmem := List.mem_cons.mp hmem
          · exact .inr (by simp)
          · exact (hall other hmem hkept').imp id (List.mem_append_left [w])
      · rw [if_neg hpush] at hpushed ⊢
        refine .inr ⟨pushed, hpushed, hlength.trans (Nat.le_succ _), hgo, ?_, ?_⟩
        · intro other hmem
          exact ⟨List.mem_cons_of_mem w (hkeep other hmem).1, (hkeep other hmem).2⟩
        · intro other hmem hkept
          obtain rfl | hmem := List.mem_cons.mp hmem
          · exact .inl (by simpa [hkept] using hpush)
          · exact hall other hmem hkept

variable [DecidableEq α]

/-- The loop of the search; `none` when the fuel is used up. -/
def search : ℕ → (α → Bool) → List α → List α → Option (Found α)
  | 0, _, _, _ => none
  | _ + 1, visited, marked, [] => some ⟨false, marked, visited⟩
  | fuel + 1, visited, marked, n :: stack =>
      if visited n then search fuel visited marked stack
      else
        match pushAll stop keep (Function.update visited n true) (next n) stack with
        | none => some ⟨true, marked ++ [n], Function.update visited n true⟩
        | some stack => search fuel (Function.update visited n true) (marked ++ [n]) stack

/-- What the search keeps about its marks and its stack. -/
structure Exploring (before : α → Bool) (start : α) (visited : α → Bool)
    (marked stack : List α) : Prop where
  visited_iff : ∀ v, visited v = true ↔ before v = true ∨ v ∈ marked
  nodup : marked.Nodup
  fresh : ∀ v ∈ marked, before v = false
  started : visited start = true ∨ start ∈ stack
  reached : ∀ v, v ∈ marked ∨ v ∈ stack →
    Relation.ReflTransGen (fun u w => w ∈ next u ∧ keep w = true) start v
  closed : ∀ u ∈ marked, ∀ w ∈ next u,
    stop w = false ∧ (keep w = true → visited w = true ∨ w ∈ stack)

/-- What a search has found. A search that was stopped has marked a node with a
successor that stops it; one that was not has marked whatever can be reached. -/
structure Explored (before : α → Bool) (start : α) (found : Found α) : Prop where
  visited_iff : ∀ v, found.visited v = true ↔ before v = true ∨ v ∈ found.marked
  nodup : found.marked.Nodup
  fresh : ∀ v ∈ found.marked, before v = false
  reached : ∀ v ∈ found.marked,
    Relation.ReflTransGen (fun u w => w ∈ next u ∧ keep w = true) start v
  stops : found.stopped = true → ∃ u ∈ found.marked, ∃ w ∈ next u, stop w = true
  started : found.stopped = false → found.visited start = true
  closed : found.stopped = false → ∀ u ∈ found.marked, ∀ w ∈ next u,
    stop w = false ∧ (keep w = true → found.visited w = true)

/-- The pops that are left: the nodes on the stack and the edges of unmarked nodes. -/
def popsLeft (nodes : List α) (visited : α → Bool) (stack : List α) : ℕ :=
  stack.length + ((nodes.filter fun v => !visited v).map fun v => (next v).length).sum

variable {next stop keep} {before : α → Bool} {start : α} {nodes : List α}

/-- Marking a node takes its edges away from what is left. -/
theorem popsLeft_update (hnodup : nodes.Nodup) {visited : α → Bool} {n : α} (hn : n ∈ nodes)
    (hfresh : visited n = false) (stack : List α) :
    popsLeft next nodes (Function.update visited n true) stack + (next n).length =
      popsLeft next nodes visited stack := by
  have hsum : ∀ nodes : List α, nodes.Nodup → n ∈ nodes →
      ((nodes.filter fun v => !Function.update visited n true v).map fun v =>
          (next v).length).sum + (next n).length =
        ((nodes.filter fun v => !visited v).map fun v => (next v).length).sum := by
    intro nodes hnodup hn
    have hsame : ∀ rest : List α, n ∉ rest →
        (rest.filter fun v => !Function.update visited n true v) =
          rest.filter fun v => !visited v := by
      intro rest hrest
      refine List.filter_congr fun v hv => ?_
      rw [Function.update_of_ne (fun heq : v = n => hrest (heq ▸ hv))]
    induction nodes with
    | nil => cases hn
    | cons v nodes ih =>
        obtain ⟨hv, hnodup⟩ := List.nodup_cons.mp hnodup
        obtain rfl | hn := List.mem_cons.mp hn
        · rw [List.filter_cons_of_neg (by simp), List.filter_cons_of_pos (by simp [hfresh]),
            hsame nodes hv, List.map_cons, List.sum_cons, Nat.add_comm]
        · have hne : v ≠ n := fun heq => hv (heq ▸ hn)
          by_cases hvisited : visited v = true
          · rw [List.filter_cons_of_neg (by simp [Function.update_of_ne hne, hvisited]),
              List.filter_cons_of_neg (by simp [hvisited])]
            exact ih hnodup hn
          · rw [List.filter_cons_of_pos (by simp [Function.update_of_ne hne, hvisited]),
              List.filter_cons_of_pos (by simp [hvisited]), List.map_cons, List.map_cons,
              List.sum_cons, List.sum_cons, Nat.add_assoc, ih hnodup hn]
  rw [popsLeft, popsLeft, Nat.add_assoc, hsum nodes hnodup hn]

/-- **The search.** With enough fuel it ends, and what it has found is explored. -/
theorem search_spec (hnodup : nodes.Nodup)
    (hnext : ∀ u ∈ nodes, ∀ w ∈ next u, keep w = true → w ∈ nodes)
    (fuel : ℕ) {visited : α → Bool} {marked stack : List α} (hstack : ∀ v ∈ stack, v ∈ nodes)
    (hfuel : popsLeft next nodes visited stack < fuel)
    (hexploring : Exploring next stop keep before start visited marked stack) :
    ∃ found, search next stop keep fuel visited marked stack = some found ∧
      Explored next stop keep before start found := by
  induction fuel generalizing visited marked stack with
  | zero => exact absurd hfuel (Nat.not_lt_zero _)
  | succ fuel ih =>
      obtain ⟨hvisited, hmarked, hfresh, hstarted, hreached, hclosed⟩ := hexploring
      cases stack with
      | nil =>
          refine ⟨_, rfl, hvisited, hmarked, hfresh, fun v hv => hreached v (.inl hv), by simp,
            fun _ => hstarted.resolve_right (by simp), fun _ u hu w hw => ?_⟩
          exact (hclosed u hu w hw).imp id fun hkept hkeep => (hkept hkeep).resolve_right (by simp)
      | cons n stack =>
          have hn := hstack n List.mem_cons_self
          have hrest : ∀ v ∈ stack, v ∈ nodes := fun v hv => hstack v (List.mem_cons_of_mem n hv)
          rw [search]
          by_cases hold : visited n = true
          · rw [if_pos hold]
            refine ih hrest ?_ ⟨hvisited, hmarked, hfresh, ?_, ?_, ?_⟩
            · simp only [popsLeft, List.length_cons] at hfuel ⊢
              omega
            · obtain hstarted | hstarted := hstarted
              · exact .inl hstarted
              · obtain rfl | hstarted := List.mem_cons.mp hstarted
                · exact .inl hold
                · exact .inr hstarted
            · exact fun v hv => hreached v (hv.imp id (List.mem_cons_of_mem n))
            · refine fun u hu w hw => (hclosed u hu w hw).imp id fun hkept hkeep => ?_
              obtain hmark | hmem := hkept hkeep
              · exact .inl hmark
              · obtain rfl | hmem := List.mem_cons.mp hmem
                · exact .inl hold
                · exact .inr hmem
          · have hnew : visited n = false := Bool.eq_false_iff.mpr hold
            have hnreached := hreached n (.inr List.mem_cons_self)
            have hvisited' : ∀ v, Function.update visited n true v = true ↔
                before v = true ∨ v ∈ marked ++ [n] := by
              intro v
              by_cases hv : v = n
              · subst hv
                simp
              · rw [Function.update_of_ne hv, hvisited v]
                simp [hv]
            have hnotmarked : n ∉ marked := fun hmem =>
              hold ((hvisited n).mpr (.inr hmem))
            have hmarked' : (marked ++ [n]).Nodup := by
              rw [List.nodup_append]
              refine ⟨hmarked, List.nodup_singleton n, ?_⟩
              rintro v hv w hw rfl
              exact hnotmarked (List.mem_singleton.mp hw ▸ hv)
            have hfresh' : ∀ v ∈ marked ++ [n], before v = false := by
              intro v hv
              obtain hv | hv := List.mem_append.mp hv
              · exact hfresh v hv
              · obtain rfl := List.mem_singleton.mp hv
                exact Bool.eq_false_iff.mpr fun hbefore =>
                  hold ((hvisited v).mpr (.inl hbefore))
            have hreached' : ∀ v ∈ marked ++ [n],
                Relation.ReflTransGen (fun u w => w ∈ next u ∧ keep w = true) start v := by
              intro v hv
              obtain hv | hv := List.mem_append.mp hv
              · exact hreached v (.inl hv)
              · obtain rfl := List.mem_singleton.mp hv
                exact hnreached
            rw [if_neg hold]
            obtain ⟨hnone, w, hw, hstops⟩ | ⟨pushed, hpushed, hlength, hgoes, hkeep, hall⟩ :=
              pushAll_spec stop keep (Function.update visited n true) (next n) stack
            · rw [hnone]
              exact ⟨_, rfl, hvisited', hmarked', hfresh', hreached',
                fun _ => ⟨n, by simp, w, hw, hstops⟩, by simp, by simp⟩
            · rw [hpushed]
              refine ih ?_ ?_ ⟨hvisited', hmarked', hfresh', ?_, ?_, ?_⟩
              · intro v hv
                obtain hv | hv := List.mem_append.mp hv
                · exact hnext n hn v (hkeep v hv).1 (hkeep v hv).2
                · exact hrest v hv
              · have hleft : popsLeft next nodes (Function.update visited n true) (n :: stack) +
                    (next n).length = popsLeft next nodes visited (n :: stack) :=
                  popsLeft_update hnodup hn hnew (n :: stack)
                simp only [popsLeft, List.length_cons, List.length_append] at hleft hfuel ⊢
                omega
              · obtain hstarted | hstarted := hstarted
                · exact .inl ((hvisited' start).mpr
                    (((hvisited start).mp hstarted).imp id (List.mem_append_left [n])))
                · obtain rfl | hstarted := List.mem_cons.mp hstarted
                  · exact .inl (Function.update_self _ _ _)
                  · exact .inr (List.mem_append_right pushed hstarted)
              · rintro v (hv | hv)
                · exact hreached' v hv
                · obtain hv | hv := List.mem_append.mp hv
                  · exact hnreached.tail (hkeep v hv)
                  · exact hreached v (.inr (List.mem_cons_of_mem n hv))
              · intro u hu w hw
                obtain hu | hu := List.mem_append.mp hu
                · refine (hclosed u hu w hw).imp id fun hkept hkeep' => ?_
                  obtain hmark | hmem := hkept hkeep'
                  · exact .inl ((hvisited' w).mpr
                      (((hvisited w).mp hmark).imp id (List.mem_append_left [n])))
                  · obtain rfl | hmem := List.mem_cons.mp hmem
                    · exact .inl (Function.update_self _ _ _)
                    · exact .inr (List.mem_append_right pushed hmem)
                · obtain rfl := List.mem_singleton.mp hu
                  exact ⟨hgoes w hw, fun hkept =>
                    (hall w hw hkept).imp id (List.mem_append_left stack)⟩

/-- A search from one node. -/
theorem search_start (next : α → List α) (stop keep before : α → Bool) (start : α)
    (hnodup : nodes.Nodup)
    (hnext : ∀ u ∈ nodes, ∀ w ∈ next u, keep w = true → w ∈ nodes) (hstart : start ∈ nodes)
    {fuel : ℕ} (hfuel : (nodes.map fun v => (next v).length).sum + 1 < fuel) :
    ∃ found, search next stop keep fuel before [] [start] = some found ∧
      Explored next stop keep before start found := by
  refine search_spec hnodup hnext fuel (by simpa using hstart) ?_ ⟨by simp, List.nodup_nil, by simp,
    .inr List.mem_cons_self, ?_, by simp⟩
  · have hle : ((nodes.filter fun v => !before v).map fun v => (next v).length).sum ≤
        (nodes.map fun v => (next v).length).sum :=
      ((List.filter_sublist).map _).sum_le_sum (by simp)
    simp only [popsLeft, List.length_singleton]
    omega
  · rintro v (hv | hv)
    · cases hv
    · obtain rfl := List.mem_singleton.mp hv
      exact .refl

end Search

end ContainerScheduler.Math
