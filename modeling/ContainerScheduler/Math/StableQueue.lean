/-
# Stable priority queues

What a queue with priorities is for, without an implementation: every entry has a
priority and a time of arrival, and the entry served next is the one that comes
first by priority and, among equals, by arrival.

An array of FIFO queues implements such a queue when each of its queues holds, in
order, the entries of its own index. Pushing and popping keep that relation.
-/

import ContainerScheduler.Math.QueueArray

namespace ContainerScheduler.Math

universe u

variable {α : Type u}

/-! ## Entries and their order -/

/-- An element with its priority and its time of arrival. -/
structure Entry (α : Type u) where
  priority : ℕ
  arrival : ℕ
  element : α
  deriving DecidableEq, Repr

/-- Served no later: a smaller priority, or the same one and no later arrival. -/
def Entry.Precedes (first second : Entry α) : Prop :=
  first.priority < second.priority ∨
    first.priority = second.priority ∧ first.arrival ≤ second.arrival

instance (first second : Entry α) : Decidable (first.Precedes second) :=
  inferInstanceAs (Decidable (_ ∨ _ ∧ _))

/-- Two entries that precede each other arrived together. -/
theorem Entry.arrival_eq_of_precedes {first second : Entry α}
    (hforth : first.Precedes second) (hback : second.Precedes first) :
    first.arrival = second.arrival := by
  unfold Precedes at hforth hback
  omega

/-! ## The queue -/

/-- Entries in the order of their arrival, and the number of arrivals so far. No
two entries arrived at the same time. -/
structure StableQueue (α : Type u) where
  entries : List (Entry α)
  arrivals : ℕ
  ordered : entries.Pairwise fun first second => first.arrival < second.arrival
  bounded : ∀ entry ∈ entries, entry.arrival < arrivals

namespace StableQueue

/-- A queue with nothing in it. -/
def empty : StableQueue α := ⟨[], 0, .nil, by simp⟩

/-- An element arrives. -/
def insert (queue : StableQueue α) (priority : ℕ) (element : α) : StableQueue α where
  entries := queue.entries ++ [⟨priority, queue.arrivals, element⟩]
  arrivals := queue.arrivals + 1
  ordered := List.pairwise_append.mpr ⟨queue.ordered, List.pairwise_singleton _ _,
    fun entry hmem other hother => by
      obtain rfl := List.mem_singleton.mp hother
      exact queue.bounded entry hmem⟩
  bounded := fun entry hmem => by
    obtain hold | hnew := List.mem_append.mp hmem
    · exact Nat.lt_succ_of_lt (queue.bounded entry hold)
    · obtain rfl := List.mem_singleton.mp hnew
      exact Nat.lt_succ_self _

/-- The entry that precedes all others. -/
def next (queue : StableQueue α) : Option (Entry α) :=
  queue.entries.find? fun entry => queue.entries.all fun other => entry.Precedes other

/-- The queue without what arrived at a time. -/
def removeArrival (queue : StableQueue α) (arrival : ℕ) : StableQueue α where
  entries := queue.entries.filter (·.arrival ≠ arrival)
  arrivals := queue.arrivals
  ordered := queue.ordered.filter _
  bounded := fun entry hmem => queue.bounded entry (List.mem_of_mem_filter hmem)

/-- Serve the next entry. -/
def serve (queue : StableQueue α) : Option (Entry α × StableQueue α) :=
  queue.next.map fun entry => (entry, queue.removeArrival entry.arrival)

variable {queue : StableQueue α} {entry : Entry α}

/-- The time of arrival identifies an entry. -/
theorem eq_of_arrival_eq {first second : Entry α} (hfirst : first ∈ queue.entries)
    (hsecond : second ∈ queue.entries) (harrival : first.arrival = second.arrival) :
    first = second := by
  have hnodup : (queue.entries.map Entry.arrival).Nodup :=
    List.pairwise_map.mpr (queue.ordered.imp fun hlt => hlt.ne)
  exact List.inj_on_of_nodup_map hnodup hfirst hsecond harrival

theorem next_eq_some : queue.next = some entry ↔
    entry ∈ queue.entries ∧ ∀ other ∈ queue.entries, entry.Precedes other := by
  constructor
  · intro hnext
    have hprecedes := List.find?_some hnext
    exact ⟨List.mem_of_find?_eq_some hnext, by simpa using hprecedes⟩
  · rintro ⟨hmem, hprecedes⟩
    have hsome : queue.next.isSome := by
      rw [next, List.find?_isSome]
      exact ⟨entry, hmem, by simpa using hprecedes⟩
    obtain ⟨found, hfound⟩ := Option.isSome_iff_exists.mp hsome
    have hfirst : ∀ other ∈ queue.entries, found.Precedes other := by
      simpa using List.find?_some hfound
    have hfoundMem := List.mem_of_find?_eq_some hfound
    have harrival := Entry.arrival_eq_of_precedes (hfirst entry hmem) (hprecedes found hfoundMem)
    rw [hfound, eq_of_arrival_eq hfoundMem hmem harrival]

end StableQueue

/-! ## Taking the head of the first nonempty queue -/

/-- What popping does, queue by queue: some queue loses its head, and all queues
before it are empty. -/
theorem popFirst_getD {queues rest : List (List α)} {head : α}
    (hpop : popFirst queues = some (head, rest)) :
    ∃ position tail, queues.getD position [] = head :: tail ∧ rest.getD position [] = tail ∧
      (∀ earlier < position, queues.getD earlier [] = []) ∧
      ∀ other, other ≠ position → rest.getD other [] = queues.getD other [] := by
  induction queues generalizing rest with
  | nil => simp [popFirst] at hpop
  | cons queue queues ih =>
      cases queue with
      | cons first queue =>
          simp only [popFirst, Option.some.injEq, Prod.mk.injEq] at hpop
          obtain ⟨rfl, rfl⟩ := hpop
          refine ⟨0, queue, rfl, rfl, by simp, fun other hother => ?_⟩
          obtain ⟨later, rfl⟩ := Nat.exists_eq_succ_of_ne_zero hother
          rfl
      | nil =>
          simp only [popFirst, Option.map_eq_some_iff] at hpop
          obtain ⟨⟨popped, others⟩, hothers, heq⟩ := hpop
          obtain ⟨rfl, rfl⟩ := Prod.mk.injEq .. ▸ heq
          obtain ⟨position, tail, hqueue, hrest, hearlier, hsame⟩ := ih hothers
          refine ⟨position + 1, tail, by simpa using hqueue, by simpa using hrest, ?_, ?_⟩
          · intro earlier hlt
            cases earlier with
            | zero => rfl
            | succ earlier => simpa using hearlier earlier (Nat.lt_of_succ_lt_succ hlt)
          · intro other hother
            cases other with
            | zero => rfl
            | succ other => simpa using hsame other fun heq => hother (heq ▸ rfl)

/-- A pop of an array, queue by queue. -/
theorem QueueArray.queueAt_of_pop {count : ℕ} {array rest : QueueArray α count} {element : α}
    (hpop : array.pop = some (element, rest)) :
    ∃ position tail, array.queueAt position = element :: tail ∧ rest.queueAt position = tail ∧
      (∀ earlier < position, array.queueAt earlier = []) ∧
      ∀ other, other ≠ position → rest.queueAt other = array.queueAt other := by
  unfold QueueArray.pop at hpop
  split at hpop
  · cases hpop
  next first queues hfirst =>
      simp only [Option.some.injEq, Prod.mk.injEq] at hpop
      obtain ⟨rfl, rfl⟩ := hpop
      exact popFirst_getD hfirst

/-- What is not empty has a first nonempty queue. -/
theorem QueueArray.exists_queueAt_of_stored {count : ℕ} {array : QueueArray α count}
    (hstored : array.stored ≠ []) :
    ∃ position head tail, array.queueAt position = head :: tail ∧
      ∀ earlier < position, array.queueAt earlier = [] := by
  have hsome := mt QueueArray.pop_eq_none.mp hstored
  obtain ⟨⟨head, rest⟩, hpop⟩ := Option.ne_none_iff_exists'.mp hsome
  obtain ⟨position, tail, hqueue, -, hearlier, -⟩ := queueAt_of_pop hpop
  exact ⟨position, head, tail, hqueue, hearlier⟩

/-! ## Arrays that implement a queue -/

/-- Each queue of the array holds the elements of its index in arrival order. -/
structure Implements {count : ℕ} (array : QueueArray α count) (queue : StableQueue α) :
    Prop where
  inRange : ∀ entry ∈ queue.entries, entry.priority < count
  queueAt : ∀ position, array.queueAt position =
    (queue.entries.filter (·.priority = position)).map Entry.element

namespace Implements

variable {count : ℕ} {array : QueueArray α count} {queue : StableQueue α}

theorem empty (count : ℕ) : Implements (.empty count : QueueArray α count) .empty where
  inRange := by simp [StableQueue.empty]
  queueAt position := by
    simp [QueueArray.queueAt, QueueArray.empty, StableQueue.empty, List.getD_eq_getElem?_getD,
      List.getElem?_replicate]
    split <;> rfl

section

variable (himplements : Implements array queue)

include himplements

/-- Pushing at an index is the arrival of an element with that priority. -/
theorem push (index : Fin count) (element : α) :
    Implements (array.push index element) (queue.insert index element) where
  inRange entry hmem := by
    obtain hold | hnew := List.mem_append.mp hmem
    · exact himplements.inRange entry hold
    · obtain rfl := List.mem_singleton.mp hnew
      exact index.isLt
  queueAt position := by
    rw [QueueArray.queueAt_push, himplements.queueAt, StableQueue.insert, List.filter_append,
      List.map_append]
    by_cases hposition : index.val = position <;> simp [hposition]

/-- What precedes everything is at the head of the first nonempty queue. -/
theorem next_of_queueAt {position : ℕ} {head : α} {tail : List α}
    (hqueue : array.queueAt position = head :: tail)
    (hearlier : ∀ earlier < position, array.queueAt earlier = []) :
    ∃ entry later, queue.next = some entry ∧ entry.priority = position ∧
      entry.element = head ∧ later.map Entry.element = tail ∧
      queue.entries.filter (·.priority = position) = entry :: later := by
  have hmapped := (himplements.queueAt position).symm.trans hqueue
  obtain ⟨entry, later, hentries, rfl, rfl⟩ := List.map_eq_cons_iff.mp hmapped
  have hself : entry ∈ queue.entries ∧ entry.priority = position := by
    have hmem : entry ∈ queue.entries.filter (·.priority = position) :=
      hentries ▸ List.mem_cons_self
    simpa using hmem
  refine ⟨entry, later, StableQueue.next_eq_some.mpr ⟨hself.1, fun other hother => ?_⟩,
    hself.2, rfl, rfl, hentries⟩
  have hlow : ¬ other.priority < position := fun hlt => by
    have hempty := (himplements.queueAt other.priority).symm.trans (hearlier _ hlt)
    have hmem : other ∈ queue.entries.filter (·.priority = other.priority) := by simpa using hother
    rw [List.map_eq_nil_iff.mp hempty] at hmem
    simp at hmem
  obtain hsame | hhigh := (not_lt.mp hlow).eq_or_lt
  · have hmem : other ∈ entry :: later := by
      rw [← hentries]
      simpa using ⟨hother, hsame.symm⟩
    have hordered : (entry :: later).Pairwise fun first second => first.arrival < second.arrival :=
      hentries ▸ queue.ordered.filter _
    obtain rfl | hlater := List.mem_cons.mp hmem
    · exact .inr ⟨rfl, le_rfl⟩
    · exact .inr ⟨hself.2.trans hsame, (List.rel_of_pairwise_cons hordered hlater).le⟩
  · exact .inl (hself.2 ▸ hhigh)

theorem entries_eq_nil : queue.entries = [] ↔ array.stored = [] := by
  constructor
  · intro hentries
    by_contra hstored
    obtain ⟨position, head, tail, hqueue, -⟩ := QueueArray.exists_queueAt_of_stored hstored
    have hempty := himplements.queueAt position
    rw [hentries, List.filter_nil, List.map_nil, hqueue] at hempty
    cases hempty
  · intro hstored
    refine List.eq_nil_iff_forall_not_mem.mpr fun entry hmem => ?_
    have hqueue : array.queueAt entry.priority = [] :=
      List.sublist_nil.mp (hstored ▸ array.queueAt_sublist_stored entry.priority)
    have hnot : entry ∉ queue.entries.filter (·.priority = entry.priority) := by
      rw [List.map_eq_nil_iff.mp ((himplements.queueAt entry.priority).symm.trans hqueue)]
      exact List.not_mem_nil
    simp [hmem] at hnot

theorem next_eq_none : queue.next = none ↔ queue.entries = [] := by
  constructor
  · intro hnone
    by_contra hentries
    obtain ⟨position, head, tail, hqueue, hearlier⟩ :=
      QueueArray.exists_queueAt_of_stored (mt himplements.entries_eq_nil.mpr hentries)
    obtain ⟨entry, -, hnext, -⟩ := himplements.next_of_queueAt hqueue hearlier
    exact Option.some_ne_none _ (hnext.symm.trans hnone)
  · intro hentries
    simp [StableQueue.next, hentries]

/-- The first nonempty queue is that of the next entry. -/
theorem firstNonempty : array.firstNonempty.map Fin.val = queue.next.map Entry.priority := by
  cases hfirst : array.firstNonempty with
  | none =>
      have hstored := QueueArray.firstNonempty_eq_none.mp hfirst
      rw [himplements.next_eq_none.mpr (himplements.entries_eq_nil.mpr hstored)]
      rfl
  | some index =>
      obtain ⟨hnonempty, position, hposition, hindex, hbefore⟩ :=
        List.find?_eq_some_iff_getElem.mp hfirst
      rw [List.getElem_finRange] at hindex
      obtain ⟨head, tail, hqueue⟩ : ∃ head tail, array.queue index = head :: tail :=
        List.exists_cons_of_ne_nil (by simpa using hnonempty)
      have hearlier : ∀ earlier < index.val, array.queueAt earlier = [] := fun earlier hlt => by
        have hempty := hbefore earlier (by simpa [← hindex] using hlt)
        rw [List.getElem_finRange] at hempty
        rw [← array.queue_eq_queueAt ⟨earlier, hlt.trans index.isLt⟩]
        simpa using hempty
      obtain ⟨entry, -, hnext, hpriority, -⟩ :=
        himplements.next_of_queueAt ((array.queue_eq_queueAt index).symm.trans hqueue) hearlier
      rw [hnext, Option.map_some, Option.map_some, hpriority]

/-- Popping serves the next entry. -/
theorem pop {rest : QueueArray α count} {element : α} (hpop : array.pop = some (element, rest)) :
    ∃ entry, queue.next = some entry ∧ entry.element = element ∧
      Implements rest (queue.removeArrival entry.arrival) := by
  obtain ⟨position, tail, hqueue, hrest, hearlier, hsame⟩ := QueueArray.queueAt_of_pop hpop
  obtain ⟨entry, later, hnext, hpriority, helement, hlater, hentries⟩ :=
    himplements.next_of_queueAt hqueue hearlier
  have hmem := (StableQueue.next_eq_some.mp hnext).1
  refine ⟨entry, hnext, helement, fun other hother =>
    himplements.inRange other (List.mem_of_mem_filter hother), fun other => ?_⟩
  have hswap : (queue.removeArrival entry.arrival).entries.filter (·.priority = other) =
      (queue.entries.filter (·.priority = other)).filter (·.arrival ≠ entry.arrival) := by
    simp only [StableQueue.removeArrival, List.filter_filter, Bool.and_comm]
  rw [hswap]
  by_cases hother : other = position
  · subst hother
    have hordered : (entry :: later).Pairwise fun first second => first.arrival < second.arrival :=
      hentries ▸ queue.ordered.filter _
    have hkept : later.filter (·.arrival ≠ entry.arrival) = later :=
      List.filter_eq_self.mpr fun kept hkept => by
        simpa using (List.rel_of_pairwise_cons hordered hkept).ne'
    rw [hrest, hentries, List.filter_cons_of_neg (by simp), hkept, hlater]
  · have hkept : (queue.entries.filter (·.priority = other)).filter
        (·.arrival ≠ entry.arrival) = queue.entries.filter (·.priority = other) :=
      List.filter_eq_self.mpr fun kept hkept => by
        have hkept' : kept ∈ queue.entries ∧ kept.priority = other := by simpa using hkept
        have hne : kept.arrival ≠ entry.arrival := fun harrival => by
          obtain rfl := StableQueue.eq_of_arrival_eq hkept'.1 hmem harrival
          exact hother (hkept'.2.symm.trans hpriority)
        simpa using hne
    rw [hkept, hsame other hother, himplements.queueAt]

end

end Implements

end ContainerScheduler.Math
