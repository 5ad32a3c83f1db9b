/-
# Ready nodes

The queue of ready nodes behaves as a plain list, first in first out, with one exception:
its size counts the entries that are consumed and still in the vector.

Nodes that become ready are put into that queue or dispatched to other threads, each of
them once. Without a queue, or on a thread that should sleep, all of them are dispatched.
-/

import ContainerScheduler.Executor.Process
import ContainerScheduler.Executor.ReadyQueue

namespace ContainerScheduler.Analysis

open Executor Math

universe u

variable {α : Type u}

/-! ## The queue as a list -/

/-- A plain list with the same calls. -/
def fifo (α : Type u) : Machine (List α) (QueueCall α) where
  init := []
  step
    | stored, .pushBack node => some (stored ++ [node])
    | [], .popFront => none
    | _ :: stored, .popFront => some stored

/-- What a queue shows of itself is the list. -/
structure Agrees (queue : TaggedNodeReadyQueue α) (stored : List α) : Prop where
  front : queue.front = stored.head?
  empty : queue.empty = stored.isEmpty
  size : queue.size = stored.length
  range : queue.range = stored

/-- The entries consumed since the queue was last empty, or since there were too many of
them: by the calls, the number of stored nodes and the entries consumed so far. -/
def consumedEntries : List (QueueCall α) → ℕ → ℕ → ℕ
  | [], _, consumed => consumed
  | .pushBack _ :: calls, count, consumed => consumedEntries calls (count + 1) consumed
  | .popFront :: calls, count, consumed =>
      consumedEntries calls (count - 1)
        (if count = 1 ∨ compactionLimit < consumed + 1 then 0 else consumed + 1)

section Queue

variable {queue : TaggedNodeReadyQueue α} {stored : List α}

/-- The first node, and whether there is one. -/
theorem front_and_empty (hrange : queue.range = stored) :
    queue.front = stored.head? ∧ queue.empty = stored.isEmpty := by
  subst hrange
  constructor
  · rw [TaggedNodeReadyQueue.front, TaggedNodeReadyQueue.range, List.head?_drop]
  · rw [TaggedNodeReadyQueue.empty, TaggedNodeReadyQueue.range]
    rcases queue.front_lt with hlt | ⟨hempty, -⟩
    · apply Bool.eq_iff_iff.mpr
      rw [List.isEmpty_iff, List.isEmpty_iff, List.drop_eq_nil_iff]
      constructor
      · intro hnil
        rw [hnil] at hlt
        exact absurd hlt (Nat.not_lt_zero _)
      · intro hle
        exact absurd hlt (not_lt.mpr hle)
    · rw [hempty, List.drop_nil]

/-- The size is that of the list while no consumed entry is left. -/
theorem agrees_iff (hrange : queue.range = stored) :
    Agrees queue stored ↔ queue.frontIndex = 0 := by
  have hlength : stored.length = queue.ready.length - queue.frontIndex := by
    rw [← hrange, TaggedNodeReadyQueue.range, List.length_drop]
  rcases front_and_empty hrange with ⟨hfront, hempty⟩
  constructor
  · intro hagrees
    have hsize := hagrees.size
    rw [TaggedNodeReadyQueue.size, hlength] at hsize
    rcases queue.front_lt with hlt | ⟨-, hzero⟩
    · omega
    · exact hzero
  · intro hzero
    refine ⟨hfront, hempty, ?_, hrange⟩
    rw [TaggedNodeReadyQueue.size, hlength, hzero, Nat.sub_zero]

theorem range_pushBack (node : α) : (queue.pushBack node).range = queue.range ++ [node] := by
  have hle : queue.frontIndex ≤ queue.ready.length := by
    rcases queue.front_lt with hlt | ⟨-, hzero⟩
    · exact hlt.le
    · exact hzero ▸ Nat.zero_le _
  exact List.drop_append_of_le_length hle

/-- A node is taken off the front, and the consumed entries are counted. -/
theorem popFront_cons {node : α} (hrange : queue.range = node :: stored) :
    ∃ next, queue.popFront = some next ∧ next.range = stored ∧
      next.frontIndex = if (node :: stored).length = 1 ∨
          compactionLimit < queue.frontIndex + 1 then 0 else queue.frontIndex + 1 := by
  have hlength := congrArg List.length hrange
  rw [TaggedNodeReadyQueue.range, List.length_drop, List.length_cons] at hlength
  have hstored : queue.ready.drop (queue.frontIndex + 1) = stored := by
    rw [← List.tail_drop]
    exact congrArg List.tail hrange
  unfold TaggedNodeReadyQueue.popFront
  rw [dif_pos (by omega), List.length_cons]
  by_cases hlast : queue.frontIndex + 1 = queue.ready.length
  · rw [dif_pos hlast, if_pos (by omega)]
    refine ⟨_, rfl, ?_, rfl⟩
    rw [← hstored, hlast, List.drop_length]
    rfl
  · rw [dif_neg hlast]
    by_cases hmany : compactionLimit < queue.frontIndex + 1
    · rw [dif_pos hmany, if_pos (.inr hmany)]
      exact ⟨_, rfl, hstored, rfl⟩
    · rw [dif_neg hmany, if_neg (by omega)]
      exact ⟨_, rfl, hstored, rfl⟩

/-- A run of a queue follows the run of the list: by induction on the calls. -/
theorem run_follows {calls : List (QueueCall α)} {last : List α}
    (hrange : queue.range = stored) (hrun : (fifo α).run calls stored = some last) :
    ∃ next, (readyQueue α).run calls queue = some next ∧ next.range = last ∧
      next.frontIndex = consumedEntries calls stored.length queue.frontIndex := by
  induction calls generalizing queue stored with
  | nil =>
      cases hrun
      exact ⟨queue, rfl, hrange, rfl⟩
  | cons call calls ih =>
      rcases Option.bind_eq_some_iff.mp hrun with ⟨middle, hstep, hrest⟩
      cases call with
      | pushBack node =>
          cases hstep
          rcases ih ((range_pushBack node).trans (congrArg (· ++ [node]) hrange)) hrest with
            ⟨next, hnext, hdone⟩
          rw [List.length_append, List.length_singleton] at hdone
          exact ⟨next, hnext, hdone⟩
      | popFront =>
          cases stored with
          | nil => cases hstep
          | cons node stored =>
              cases hstep
              rcases popFront_cons hrange with ⟨popped, hpop, hpopped, hfront⟩
              rcases ih hpopped hrest with ⟨next, hnext, hdone⟩
              rw [hfront] at hdone
              refine ⟨next, ?_, hdone⟩
              apply Option.bind_eq_some_iff.mpr
              exact ⟨popped, hpop, hnext⟩

end Queue

section ScheduleReady

universe v

variable {ν : Type v} (isExpensive : ν → Bool)

/-- A node that a thread that stays awake puts into its own queue. -/
def isCheap (tagged : TaggedNode ν) : Bool := tagged.isDead || !isExpensive tagged.node

/-- What a thread appends to its queue: nothing when it should sleep. Otherwise it appends
the dead and the inexpensive nodes in order, or the last node when its queue would stay empty,
in which case all nodes are expensive. -/
def appendedNodes (notSleepThread : Bool) (ready stored : List (TaggedNode ν)) :
    List (TaggedNode ν) :=
  if notSleepThread = false then []
  else if stored ++ ready.filter (isCheap isExpensive) = [] then ready.getLast?.toList
  else ready.filter (isCheap isExpensive)

variable {isExpensive}

theorem isCheap_iff {tagged : TaggedNode ν} :
    isCheap isExpensive tagged ↔ tagged.isDead ∨ isExpensive tagged.node = false := by
  rw [isCheap, Bool.or_eq_true, Bool.not_eq_true']

/-- A thread that should sleep dispatches every node. -/
theorem scheduleLoop_asleep (ready inlineReady dispatched : List (TaggedNode ν))
    (current : Option (TaggedNode ν)) :
    scheduleLoop isExpensive false ready inlineReady current dispatched =
      (inlineReady, current, dispatched ++ ready) := by
  induction ready generalizing dispatched with
  | nil => rw [scheduleLoop, List.append_nil]
  | cons tagged ready ih =>
      rw [scheduleLoop, if_neg (fun hcheap => Bool.false_ne_true hcheap.2),
        if_neg Bool.false_ne_true, ih, List.append_assoc, List.singleton_append]

/-- A thread that stays awake keeps the cheap nodes, and carries the last of the others. -/
theorem scheduleLoop_awake (ready inlineReady dispatched : List (TaggedNode ν))
    (current : Option (TaggedNode ν)) :
    let placed := scheduleLoop isExpensive true ready inlineReady current dispatched
    placed.1 = inlineReady ++ ready.filter (isCheap isExpensive) ∧
      placed.2.1 = (ready.filter (!isCheap isExpensive ·)).getLast?.or current := by
  induction ready generalizing inlineReady current dispatched with
  | nil => exact ⟨(List.append_nil _).symm, rfl⟩
  | cons tagged ready ih =>
      rw [scheduleLoop]
      by_cases hcheap : isCheap isExpensive tagged
      · rw [if_pos ⟨isCheap_iff.mp hcheap, rfl⟩]
        rcases ih (inlineReady ++ [tagged]) dispatched current with ⟨hinline, hcurrent⟩
        constructor
        · rw [hinline, List.filter_cons_of_pos hcheap, List.append_assoc,
            List.singleton_append]
        · rw [hcurrent, List.filter_cons_of_neg (by simp [hcheap])]
      · rw [if_neg (fun hboth => hcheap (isCheap_iff.mpr hboth.1)), if_pos rfl]
        rcases ih inlineReady (dispatched ++ current.toList) (some tagged) with
          ⟨hinline, hcurrent⟩
        constructor
        · rw [hinline, List.filter_cons_of_neg hcheap]
        · rw [hcurrent, List.filter_cons_of_pos (by simp [hcheap]), List.getLast?_cons]
          cases (ready.filter (!isCheap isExpensive ·)).getLast? <;> rfl

/-- Where no node is cheap, the last of the others is the last node. -/
theorem filter_not_isCheap {ready : List (TaggedNode ν)}
    (hnone : ready.filter (isCheap isExpensive) = []) :
    ready.filter (!isCheap isExpensive ·) = ready := by
  apply List.filter_eq_self.mpr
  intro tagged hmem
  rw [Bool.not_eq_true']
  exact Bool.eq_false_iff.mpr (List.filter_eq_nil_iff.mp hnone tagged hmem)

/-- The nodes appended to a queue. -/
theorem scheduleReady_appended (notSleepThread : Bool) (ready stored : List (TaggedNode ν)) :
    (scheduleReady isExpensive notSleepThread ready (some stored)).1 =
      some (stored ++ appendedNodes isExpensive notSleepThread ready stored) := by
  cases notSleepThread with
  | false =>
      simp only [scheduleReady, scheduleLoop_asleep, appendedNodes, if_true, List.append_nil]
  | true =>
      have hloop := @scheduleLoop_awake ν isExpensive ready stored [] none
      simp only [scheduleReady, appendedNodes, Bool.true_eq_false, if_false]
      rcases hplaced : scheduleLoop isExpensive true ready stored none [] with
        ⟨inlined, current, dispatched⟩
      rw [hplaced, Option.or_none] at hloop
      rcases hloop with ⟨rfl, hcurrent⟩
      by_cases hempty : stored ++ ready.filter (isCheap isExpensive) = []
      · rcases List.append_eq_nil_iff.mp hempty with ⟨hstored, hnone⟩
        rw [filter_not_isCheap hnone] at hcurrent
        rw [if_pos hempty, ← hcurrent, hstored]
        cases current with
        | none => simp only [hnone, List.append_nil, Option.toList_none]
        | some expensive =>
            simp only [hnone, List.append_nil, and_self, if_true, Option.toList_some,
              List.nil_append]
      · rw [if_neg hempty]
        cases current with
        | none => rfl
        | some expensive => simp only [hempty, and_false, if_false]

/-- **Every ready node is dispatched once or appended once.** Without a queue none is
appended, and with one what is appended depends on the thread and on what is in the queue. -/
theorem ready_nodes_placed_once (notSleepThread : Bool) (ready : List (TaggedNode ν))
    (inlineReady : Option (List (TaggedNode ν))) :
    ∃ appended dispatched, scheduleReady isExpensive notSleepThread ready inlineReady =
        (inlineReady.map (· ++ appended), dispatched) ∧
      (appended ++ dispatched).Perm ready ∧
      appended = inlineReady.elim [] (appendedNodes isExpensive notSleepThread ready) := by
  refine ⟨_, (scheduleReady isExpensive notSleepThread ready inlineReady).2, ?_, ?_, rfl⟩
  · cases inlineReady with
    | none => rfl
    | some stored => exact Prod.ext (scheduleReady_appended notSleepThread ready stored) rfl
  · have hperm := @scheduleReady_perm ν isExpensive notSleepThread ready inlineReady
    cases inlineReady with
    | none => exact hperm
    | some stored =>
        dsimp only at hperm
        rw [scheduleReady_appended, Option.getD_some, Option.getD_some, List.append_assoc]
          at hperm
        exact (List.perm_append_left_iff stored).mp hperm

end ScheduleReady

end ContainerScheduler.Analysis
