/-
# Arrays of FIFO queues

A fixed number of first-in first-out queues, read from the lowest index that
holds something. The array is a list of lists together with its length, so an
array of the wrong length cannot be built, and everything an array holds is read
off in service order by `stored`.

Pushing puts an element at the end of one queue; popping takes the head of the
first queue that has one. Both are described by what they do to `stored`: a push
adds one element, a pop removes exactly the first.
-/

import Mathlib.Data.List.Perm.Basic
import Mathlib.Data.List.FinRange

namespace ContainerScheduler.Math

universe u

variable {α : Type u}

/-! ## Service order over a list of queues -/

/-- Take the head of the first nonempty queue. -/
def popFirst : List (List α) → Option (α × List (List α))
  | [] => none
  | [] :: queues => (popFirst queues).map fun popped => (popped.1, [] :: popped.2)
  | (head :: queue) :: queues => some (head, queue :: queues)

theorem popFirst_eq_none {queues : List (List α)} :
    popFirst queues = none ↔ queues.flatten = [] := by
  induction queues with
  | nil => simp [popFirst]
  | cons queue queues ih => cases queue <;> simp [popFirst, ih]

/-- What is popped is the first stored element, and nothing else moves. -/
theorem flatten_of_popFirst {queues rest : List (List α)} {head : α}
    (hpop : popFirst queues = some (head, rest)) :
    queues.flatten = head :: rest.flatten := by
  induction queues generalizing rest with
  | nil => simp [popFirst] at hpop
  | cons queue queues ih =>
      cases queue with
      | cons first queue =>
          simp only [popFirst, Option.some.injEq, Prod.mk.injEq] at hpop
          obtain ⟨rfl, rfl⟩ := hpop
          rfl
      | nil =>
          simp only [popFirst, Option.map_eq_some_iff] at hpop
          obtain ⟨⟨popped, others⟩, hothers, heq⟩ := hpop
          obtain ⟨rfl, rfl⟩ := Prod.mk.injEq .. ▸ heq
          simpa using ih hothers

theorem length_of_popFirst {queues rest : List (List α)} {head : α}
    (hpop : popFirst queues = some (head, rest)) : rest.length = queues.length := by
  induction queues generalizing rest with
  | nil => simp [popFirst] at hpop
  | cons queue queues ih =>
      cases queue with
      | cons first queue =>
          simp only [popFirst, Option.some.injEq, Prod.mk.injEq] at hpop
          obtain ⟨-, rfl⟩ := hpop
          rfl
      | nil =>
          simp only [popFirst, Option.map_eq_some_iff] at hpop
          obtain ⟨⟨popped, others⟩, hothers, heq⟩ := hpop
          obtain ⟨rfl, rfl⟩ := Prod.mk.injEq .. ▸ heq
          simpa using ih hothers

theorem flatten_modify_push_perm {queues : List (List α)} {index : ℕ}
    (hindex : index < queues.length) (element : α) :
    (queues.modify index (· ++ [element])).flatten.Perm (element :: queues.flatten) := by
  induction queues generalizing index with
  | nil => simp at hindex
  | cons queue queues ih =>
      cases index with
      | zero =>
          simp
      | succ index =>
          have hrest := (ih (Nat.lt_of_succ_lt_succ hindex)).append_left queue
          simpa using hrest.trans List.perm_middle

/-! ## The array -/

/-- An array of exactly `count` FIFO queues. -/
@[ext]
structure QueueArray (α : Type u) (count : ℕ) where
  queues : List (List α)
  length_queues : queues.length = count
  deriving DecidableEq, Repr

namespace QueueArray

variable {count : ℕ}

/-- The array whose queues are all empty. -/
def empty (count : ℕ) : QueueArray α count := ⟨List.replicate count [], by simp⟩

/-- Everything stored, in the order in which it would be popped. -/
def stored (array : QueueArray α count) : List α := array.queues.flatten

/-- The queue at an index. -/
def queue (array : QueueArray α count) (index : Fin count) : List α :=
  array.queues.get ⟨index.val, array.length_queues.symm ▸ index.isLt⟩

/-- Replace the queue at an index. -/
def setQueue (array : QueueArray α count) (index : Fin count) (queue : List α) :
    QueueArray α count :=
  ⟨array.queues.set index queue, by simp [array.length_queues]⟩

/-- Put an element at the end of one queue. -/
def push (array : QueueArray α count) (index : Fin count) (element : α) :
    QueueArray α count :=
  ⟨array.queues.modify index (· ++ [element]), by simp [array.length_queues]⟩

/-- Take the head of the first nonempty queue. -/
def pop (array : QueueArray α count) : Option (α × QueueArray α count) :=
  match hpop : popFirst array.queues with
  | none => none
  | some (element, queues) =>
      some (element, ⟨queues, (length_of_popFirst hpop).trans array.length_queues⟩)

/-- Take the head of one queue. -/
def popFrom (array : QueueArray α count) (index : Fin count) :
    Option (α × QueueArray α count) :=
  match array.queue index with
  | [] => none
  | element :: rest => some (element, array.setQueue index rest)

/-- The index of the first nonempty queue. -/
def firstNonempty (array : QueueArray α count) : Option (Fin count) :=
  (List.finRange count).find? fun index => (array.queue index).isEmpty = false

@[simp]
theorem stored_empty : (empty count : QueueArray α count).stored = [] := by
  simp [stored, empty]

theorem pop_eq_none {array : QueueArray α count} : array.pop = none ↔ array.stored = [] := by
  rw [stored, ← popFirst_eq_none, pop]
  split <;> simp_all

/-- A pop removes exactly the first stored element. -/
theorem stored_of_pop {array rest : QueueArray α count} {element : α}
    (hpop : array.pop = some (element, rest)) : array.stored = element :: rest.stored := by
  unfold pop at hpop
  split at hpop
  · cases hpop
  next first queues hfirst =>
      simp only [Option.some.injEq, Prod.mk.injEq] at hpop
      obtain ⟨rfl, rfl⟩ := hpop
      exact flatten_of_popFirst hfirst

/-- A push adds exactly one stored element. -/
theorem stored_push_perm (array : QueueArray α count) (index : Fin count) (element : α) :
    (array.push index element).stored.Perm (element :: array.stored) :=
  flatten_modify_push_perm (array.length_queues.symm ▸ index.isLt) element

@[simp]
theorem queue_push_self (array : QueueArray α count) (index : Fin count) (element : α) :
    (array.push index element).queue index = array.queue index ++ [element] := by
  simp [queue, push]

theorem queue_push_of_ne (array : QueueArray α count) {index other : Fin count}
    (hne : index ≠ other) (element : α) :
    (array.push index element).queue other = array.queue other := by
  have hval : index.val ≠ other.val := fun heq => hne (Fin.ext heq)
  simp [queue, push, hval]

@[simp]
theorem queue_setQueue_self (array : QueueArray α count) (index : Fin count) (queue : List α) :
    (array.setQueue index queue).queue index = queue := by
  simp [QueueArray.queue, setQueue]

theorem queue_setQueue_of_ne (array : QueueArray α count) {index other : Fin count}
    (hne : index ≠ other) (queue : List α) :
    (array.setQueue index queue).queue other = array.queue other := by
  have hval : index.val ≠ other.val := fun heq => hne (Fin.ext heq)
  simp [QueueArray.queue, setQueue, hval]

/-- The queue at a position, empty beyond the end of the array. -/
def queueAt (array : QueueArray α count) (position : ℕ) : List α := array.queues.getD position []

theorem queue_eq_queueAt (array : QueueArray α count) (index : Fin count) :
    array.queue index = array.queueAt index.val := by
  have hindex : index.val < array.queues.length := array.length_queues.symm ▸ index.isLt
  simp [queue, queueAt, hindex]

theorem queueAt_push (array : QueueArray α count) (index : Fin count) (element : α)
    (position : ℕ) : (array.push index element).queueAt position =
      array.queueAt position ++ if index.val = position then [element] else [] := by
  have hindex : index.val < array.queues.length := array.length_queues.symm ▸ index.isLt
  simp only [queueAt, push, List.getD_eq_getElem?_getD, List.getElem?_modify]
  by_cases hposition : index.val = position
  · subst hposition
    simp [List.getElem?_eq_getElem hindex]
  · simp [hposition]

/-- Each position keeps its own order inside the service order. -/
theorem queueAt_sublist_stored (array : QueueArray α count) (position : ℕ) :
    (array.queueAt position).Sublist array.stored := by
  by_cases hposition : position < array.queues.length
  · have hqueue : array.queueAt position = array.queues.get ⟨position, hposition⟩ := by
      simp [queueAt, hposition]
    rw [hqueue]
    exact List.sublist_flatten_of_mem (List.get_mem _ _)
  · have hqueue : array.queueAt position = [] := by
      simp [queueAt, not_lt.mp hposition]
    rw [hqueue]
    exact List.nil_sublist _

/-- When each queue holds only its own elements, filtering the service order gives
the queue back. -/
theorem filter_flatten_of_home {home : α → Option ℕ} {position : ℕ} :
    ∀ {queues : List (List α)} (offset : ℕ), offset ≤ position →
      (∀ index, ∀ element ∈ queues.getD index [], home element = some (offset + index)) →
      queues.flatten.filter (home · = some position) = queues.getD (position - offset) []
  | [], _, _, _ => by simp
  | queue :: queues, offset, hoffset, hhome => by
      have hrest : ∀ index, ∀ element ∈ queues.getD index [],
          home element = some (offset + 1 + index) := fun index element hmem => by
        rw [hhome (index + 1) element (by simpa using hmem), Nat.add_right_comm, Nat.add_assoc]
      have hqueue : ∀ element ∈ queue, home element = some offset := fun element hmem =>
        hhome 0 element (by simpa using hmem)
      rw [List.flatten_cons, List.filter_append]
      obtain rfl | hlater := hoffset.eq_or_lt
      · have hothers : queues.flatten.filter (home · = some offset) = [] := by
          refine List.filter_eq_nil_iff.mpr fun element hmem => ?_
          obtain ⟨other, hother, helement⟩ := List.mem_flatten.mp hmem
          obtain ⟨index, hindex, rfl⟩ := List.getElem_of_mem hother
          have hplace := hrest index element (by simpa [hindex] using helement)
          simp [hplace]
          omega
        rw [hothers, List.filter_eq_self.mpr (by simpa using hqueue)]
        simp
      · have hnone : queue.filter (home · = some position) = [] := by
          refine List.filter_eq_nil_iff.mpr fun element hmem => ?_
          simp [hqueue element hmem, hlater.ne]
        rw [hnone, filter_flatten_of_home (offset + 1) hlater hrest]
        obtain ⟨distance, rfl⟩ := Nat.exists_eq_add_of_lt hlater
        have hrest : offset + distance + 1 - (offset + 1) = distance := by omega
        have hall : offset + distance + 1 - offset = distance + 1 := by omega
        simp [hrest, hall]

theorem filter_stored_of_home {home : α → Option ℕ} {array : QueueArray α count}
    (hhome : ∀ index, ∀ element ∈ array.queueAt index, home element = some index)
    (position : ℕ) :
    array.stored.filter (home · = some position) = array.queueAt position :=
  filter_flatten_of_home 0 (Nat.zero_le _) (by simpa [queueAt] using hhome)

/-- An array is determined by its queues. -/
theorem ext_queue {first second : QueueArray α count}
    (hqueue : ∀ index, first.queue index = second.queue index) : first = second := by
  refine QueueArray.ext (List.ext_getElem ?_ fun position hleft _ => ?_)
  · rw [length_queues, length_queues]
  · simpa [queue] using hqueue ⟨position, first.length_queues ▸ hleft⟩

theorem mem_stored_of_mem_queue {array : QueueArray α count} {index : Fin count} {element : α}
    (hmem : element ∈ array.queue index) : element ∈ array.stored :=
  List.mem_flatten.mpr ⟨_, List.getElem_mem _, hmem⟩

theorem mem_stored_iff {array : QueueArray α count} {element : α} :
    element ∈ array.stored ↔ ∃ index, element ∈ array.queue index := by
  refine ⟨fun hmem => ?_, fun ⟨index, hmem⟩ => mem_stored_of_mem_queue hmem⟩
  obtain ⟨queue, hqueue, helement⟩ := List.mem_flatten.mp hmem
  obtain ⟨index, hindex, rfl⟩ := List.getElem_of_mem hqueue
  exact ⟨⟨index, array.length_queues ▸ hindex⟩, by simpa [queue] using helement⟩

theorem firstNonempty_eq_none {array : QueueArray α count} :
    array.firstNonempty = none ↔ array.stored = [] := by
  rw [firstNonempty, List.find?_eq_none, List.eq_nil_iff_forall_not_mem]
  constructor
  · intro hempty element hmem
    obtain ⟨index, hindex⟩ := mem_stored_iff.mp hmem
    have hqueue := hempty index (List.mem_finRange index)
    have hnil : array.queue index = [] := by simpa using hqueue
    simp [hnil] at hindex
  · intro hnone index _
    have hnil : array.queue index = [] :=
      List.eq_nil_iff_forall_not_mem.mpr fun element hmem =>
        hnone element (mem_stored_of_mem_queue hmem)
    simp [hnil]

/-- An array of one queue is served like that queue. -/
theorem popFrom_zero_eq_pop (array : QueueArray α 1) : array.popFrom 0 = array.pop := by
  obtain ⟨queues, hlength⟩ := array
  obtain ⟨queue, rfl⟩ := List.length_eq_one_iff.mp hlength
  cases queue <;> rfl

/-- Push elements one after the other, each at its own index. -/
def pushAll (home : α → Fin count) (array : QueueArray α count) (elements : List α) :
    QueueArray α count :=
  elements.foldl (fun array element => array.push (home element) element) array

/-- After pushing a list, each queue ends with the elements that belong there,
in their order. -/
theorem queue_pushAll (home : α → Fin count) (array : QueueArray α count)
    (elements : List α) (index : Fin count) :
    (array.pushAll home elements).queue index =
      array.queue index ++ elements.filter (fun element => home element = index) := by
  induction elements generalizing array with
  | nil => simp [pushAll]
  | cons element elements ih =>
      have hrest := ih (array.push (home element) element)
      rw [pushAll] at hrest ⊢
      rw [List.foldl_cons, hrest]
      by_cases hhome : home element = index
      · subst hhome
        simp
      · simp [queue_push_of_ne array hhome, hhome]

/-- Emptying one queue and pushing its elements back changes nothing. -/
theorem pushAll_setQueue_nil (array : QueueArray α count) (index : Fin count) :
    (array.setQueue index []).pushAll (fun _ => index) (array.queue index) = array := by
  refine ext_queue fun other => ?_
  rw [queue_pushAll]
  by_cases heq : index = other
  · subst heq
    simp
  · simp [queue_setQueue_of_ne array heq, heq]

end QueueArray

end ContainerScheduler.Math
