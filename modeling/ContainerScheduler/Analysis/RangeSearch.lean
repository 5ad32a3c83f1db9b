/-
# What a search examines

The cursor of a thread is corrected at the upper end of the range only. A cursor
that stands below the range is used as it is, and the search then begins outside
of its range and ends before it has seen all of it.
-/

import ContainerScheduler.Threads.RunHandler
import Mathlib.Data.List.Rotate

namespace ContainerScheduler.Analysis

open Threads

variable {Source Queue Task : Type*}
  {popBack : Queue → Option (Task × Queue)} {call : FindTask Source Queue}
  {s : Search Source Queue Task}

/-! ## One source -/

/-- No task may be taken from the source. -/
structure NothingToTake (popBack : Queue → Option (Task × Queue)) (call : FindTask Source Queue)
    (source : ThreadWorkSource Queue) : Prop where
  nonBlocking : ∀ queue ∈ source.nonBlockingWorkQueues, popBack queue = none
  blocking : call.mayStealBlockingWork = true →
    source.getInflightTaskCount true < call.maxBlockingInflight →
      popBack source.blockingWorkQueue = none

/-- Beginning with the queue of the thread, all queues are tried. -/
theorem exists_offset {start n i : ℕ} (hi : i < n) : ∃ j < n, (start + j) % n = i := by
  refine ⟨(i + (n - start % n)) % n, Nat.mod_lt _ (by omega), ?_⟩
  have hlt : start % n < n := Nat.mod_lt _ (by omega)
  rw [Nat.add_mod, Nat.mod_mod, ← Nat.add_mod]
  have hsum : start + (i + (n - start % n)) = i + n * (start / n + 1) := by
    have := Nat.div_add_mod start n
    rw [Nat.mul_add, Nat.mul_one]
    omega
  rw [hsum, Nat.add_mul_mod_self_left, Nat.mod_eq_of_lt hi]

theorem popNonBlockingTask_eq_none {source : ThreadWorkSource Queue} {start : ℕ}
    (hnone : source.popNonBlockingTask popBack start true = none) :
    ∀ queue ∈ source.nonBlockingWorkQueues, popBack queue = none := by
  intro queue hqueue
  obtain ⟨i, hi, rfl⟩ := List.getElem_of_mem hqueue
  obtain ⟨j, hj, hround⟩ := @exists_offset start _ _ hi
  rw [ThreadWorkSource.popNonBlockingTask, List.findSome?_eq_none_iff] at hnone
  have hpop := hnone j (List.mem_range.mpr hj)
  rw [ThreadWorkSource.nonBlockingWorkShardingFactor, hround, ThreadWorkSource.popFrom,
    List.getElem?_eq_getElem hi] at hpop
  simpa using hpop

theorem takeTask_eq_none {source : ThreadWorkSource Queue}
    (hnone : call.takeTask popBack source = none) : NothingToTake popBack call source := by
  rw [FindTask.takeTask] at hnone
  split at hnone
  · cases hnone
  · rename_i hblocking
    refine ⟨popNonBlockingTask_eq_none (Option.map_eq_none_iff.mp hnone), ?_⟩
    intro hsteal hinflight
    rw [if_pos ⟨hsteal, hinflight⟩] at hblocking
    exact Option.map_eq_none_iff.mp hblocking

/-! ## The rounds -/

/-- What the search of a range should examine. -/
structure SearchesRange (popBack : Queue → Option (Task × Queue)) (call : FindTask Source Queue)
    (s : Search Source Queue Task) : Prop where
  inside : ∀ place ∈ s.examined,
    call.searchingRangeStart ≤ place.1 ∧ place.1 < call.searchingRangeEnd
  /-- Each source once, in cyclic order. -/
  cyclic : s.t = none → ∃ k, s.examined.map Prod.fst =
    (List.range' call.searchingRangeStart
      (call.searchingRangeEnd - call.searchingRangeStart)).rotate k
  nothing : s.t = none → ∀ place ∈ s.examined, NothingToTake popBack call place.2

/-- The range lies within the vector. -/
def WithinSources (call : FindTask Source Queue) : Prop :=
  call.searchingRangeStart ≤ call.searchingRangeEnd ∧
    call.searchingRangeEnd ≤ call.threadWorkSources.length

/-- The place that the next round examines. -/
def nextPlace (call : FindTask Source Queue) (currentIndex : ℕ) : ℕ :=
  if currentIndex ≥ call.searchingRangeEnd then call.searchingRangeStart else currentIndex

/-- The search, which began `k` places behind the start, has found nothing in `n` rounds. -/
structure Searched (popBack : Queue → Option (Task × Queue)) (call : FindTask Source Queue)
    (k n : ℕ) (s : Search Source Queue Task) : Prop where
  t : s.t = none
  place : nextPlace call s.currentIndex = call.searchingRangeStart +
    (n + k) % (call.searchingRangeEnd - call.searchingRangeStart)
  examined : s.examined.map Prod.fst = (List.range n).map fun i =>
    call.searchingRangeStart + (i + k) % (call.searchingRangeEnd - call.searchingRangeStart)
  nothing : ∀ place ∈ s.examined, NothingToTake popBack call place.2

variable {k n : ℕ}

/-- The variables that another thread changes do not matter. -/
theorem Searched.interfere (hs : Searched popBack call k n s)
    (memory : Source → ThreadWorkSource Queue) :
    Searched popBack call k n { s with memory } :=
  ⟨hs.t, hs.place, hs.examined, hs.nothing⟩

variable [DecidableEq Source]

theorem examine_eq {tws : Source}
    (htws : call.threadWorkSources[nextPlace call s.currentIndex]? = some tws) :
    (call.examine popBack s).examined =
        s.examined ++ [(nextPlace call s.currentIndex, s.memory tws)] ∧
      (call.examine popBack s).currentIndex = nextPlace call s.currentIndex + 1 ∧
      (call.takeTask popBack (s.memory tws) = none → (call.examine popBack s).t = s.t) ∧
      ((call.takeTask popBack (s.memory tws)).isSome → (call.examine popBack s).t.isSome) := by
  have hplace : (if s.currentIndex ≥ call.searchingRangeEnd then call.searchingRangeStart
      else s.currentIndex) = nextPlace call s.currentIndex := rfl
  rw [FindTask.examine]
  simp only [hplace, htws]
  cases htake : call.takeTask popBack (s.memory tws) with
  | none => simp
  | some taken => simp

/-- The places of the rounds follow each other in the cyclic order of the range. -/
theorem nextPlace_succ {start size r : ℕ} (hr : r < size) :
    (if start + r + 1 ≥ start + size then start else start + r + 1) = start + (r + 1) % size := by
  split_ifs with hend
  · have hlast : r + 1 = size := by omega
    rw [hlast, Nat.mod_self, Nat.add_zero]
  · rw [Nat.mod_eq_of_lt (by omega), Nat.add_assoc]

/-- One more round. -/
theorem Searched.examine (hwithin : WithinSources call)
    (hn : n < call.searchingRangeEnd - call.searchingRangeStart)
    (hs : Searched popBack call k n s) :
    (call.examine popBack s).examined.map Prod.fst =
        ((List.range (n + 1)).map fun i => call.searchingRangeStart +
          (i + k) % (call.searchingRangeEnd - call.searchingRangeStart)) ∧
      ((call.examine popBack s).t = none →
        Searched popBack call k (n + 1) (call.examine popBack s)) := by
  obtain ⟨hle, hsize⟩ := hwithin
  have hrest : (n + k) % (call.searchingRangeEnd - call.searchingRangeStart) <
      call.searchingRangeEnd - call.searchingRangeStart := Nat.mod_lt _ (by omega)
  have hplace := hs.place
  obtain ⟨tws, htws⟩ : ∃ tws, call.threadWorkSources[nextPlace call s.currentIndex]? = some tws :=
    ⟨_, List.getElem?_eq_getElem (by omega)⟩
  obtain ⟨hexamined, hindex, hnone, hsome⟩ := @examine_eq _ _ _ popBack call s _ tws htws
  have hplaces : (call.examine popBack s).examined.map Prod.fst =
      (List.range (n + 1)).map fun i => call.searchingRangeStart +
        (i + k) % (call.searchingRangeEnd - call.searchingRangeStart) := by
    rw [hexamined, List.map_append, hs.examined, hplace, List.range_succ, List.map_append]
    rfl
  refine ⟨hplaces, fun ht => ?_⟩
  have htake : call.takeTask popBack (s.memory tws) = none := by
    by_contra hne
    have hfound := hsome (Option.isSome_iff_ne_none.mpr hne)
    rw [ht] at hfound
    cases hfound
  refine ⟨ht, ?_, hplaces, ?_⟩
  · have hnext := @nextPlace_succ call.searchingRangeStart _ _ hrest
    rw [Nat.add_sub_cancel' hle, Nat.mod_add_mod, Nat.add_right_comm n k 1] at hnext
    rw [hindex, hplace, nextPlace, hnext]
  · rw [hexamined]
    intro place hmem
    rcases List.mem_append.mp hmem with hold | hlast
    · exact hs.nothing place hold
    · obtain rfl := List.mem_singleton.mp hlast
      exact takeTask_eq_none htake

/-- The search ends after some rounds, and without a task after all of them. -/
theorem Searched.searchRounds (hwithin : WithinSources call) {rounds : ℕ}
    (hrounds : n + rounds = call.searchingRangeEnd - call.searchingRangeStart)
    (hs : Searched popBack call k n s) :
    (∃ m ≤ call.searchingRangeEnd - call.searchingRangeStart,
        (call.searchRounds popBack rounds s).examined.map Prod.fst =
          (List.range m).map fun i => call.searchingRangeStart +
            (i + k) % (call.searchingRangeEnd - call.searchingRangeStart)) ∧
      ((call.searchRounds popBack rounds s).t = none →
        Searched popBack call k (call.searchingRangeEnd - call.searchingRangeStart)
          (call.searchRounds popBack rounds s)) := by
  induction rounds generalizing n s with
  | zero =>
      obtain rfl : n = _ := hrounds
      exact ⟨⟨_, le_rfl, hs.examined⟩, fun _ => hs⟩
  | succ rounds ih =>
      have hn : n < call.searchingRangeEnd - call.searchingRangeStart := by omega
      obtain ⟨hplaces, hnext⟩ :=
        (hs.interfere (call.others rounds s.memory)).examine hwithin hn
      rw [FindTask.searchRounds]
      split_ifs with hfound
      · refine ⟨⟨n + 1, hn, hplaces⟩, fun ht => ?_⟩
        rw [ht] at hfound
        cases hfound
      · exact ih (by omega) (hnext (Option.not_isSome_iff_eq_none.mp hfound))

theorem map_range_rotate (start size k : ℕ) :
    ((List.range size).map fun i => start + (i + k) % size) =
      (List.range' start size).rotate k := by
  apply List.ext_getElem
  · simp
  · intro i hi hi'
    simp [List.getElem_rotate]

theorem mem_examined_examine {place : ℕ × ThreadWorkSource Queue} (hmem : place ∈ s.examined) :
    place ∈ (call.examine popBack s).examined := by
  rw [FindTask.examine]
  dsimp only
  split
  · exact hmem
  · split
    · exact List.mem_append_left _ hmem
    · exact List.mem_append_left _ hmem

theorem mem_examined_searchRounds {place : ℕ × ThreadWorkSource Queue} {rounds : ℕ}
    (hmem : place ∈ s.examined) : place ∈ (call.searchRounds popBack rounds s).examined := by
  induction rounds generalizing s with
  | zero => exact hmem
  | succ rounds ih =>
      have hnext := @mem_examined_examine _ _ _ popBack call
        { s with memory := call.others rounds s.memory } _ _ hmem
      rw [FindTask.searchRounds]
      split_ifs
      · exact hnext
      · exact ih hnext

/-! ## The search -/

theorem searchesRange_of_eq {currentIndex : ℕ}
    (hempty : call.searchingRangeStart = call.searchingRangeEnd) :
    SearchesRange popBack call (call.run popBack currentIndex) := by
  -- there is no round
  have hzero : call.searchingRangeEnd - call.searchingRangeStart = 0 := by omega
  rw [FindTask.run, hzero]
  refine ⟨?_, ?_, ?_⟩
  · exact fun place hmem => absurd hmem List.not_mem_nil
  · exact fun _ => ⟨0, by rw [hzero]; rfl⟩
  · exact fun _ place hmem => absurd hmem List.not_mem_nil

theorem searchesRange_of_le {currentIndex : ℕ} (hwithin : WithinSources call)
    (hle : call.searchingRangeStart ≤ currentIndex) :
    SearchesRange popBack call (call.run popBack currentIndex) := by
  rcases Nat.eq_or_lt_of_le hwithin.1 with hempty | hlt
  · exact searchesRange_of_eq hempty
  · have hfirst : call.searchingRangeStart ≤ nextPlace call currentIndex ∧
        nextPlace call currentIndex < call.searchingRangeEnd := by
      rw [nextPlace]
      split_ifs <;> omega
    have hstart : Searched popBack call (nextPlace call currentIndex - call.searchingRangeStart) 0
        { currentIndex, memory := call.memory } := by
      refine ⟨rfl, ?_, rfl, fun place hmem => absurd hmem List.not_mem_nil⟩
      rw [Nat.zero_add, Nat.mod_eq_of_lt (by omega), Nat.add_sub_cancel' hfirst.1]
    obtain ⟨⟨m, hm, hplaces⟩, hdone⟩ := hstart.searchRounds hwithin (Nat.zero_add _)
    refine ⟨fun place hmem => ?_, fun ht => ?_, fun ht => (hdone ht).nothing⟩
    · have hplace : place.1 ∈ (call.run popBack currentIndex).examined.map Prod.fst :=
        List.mem_map_of_mem hmem
      rw [FindTask.run, hplaces] at hplace
      obtain ⟨i, -, hi⟩ := List.mem_map.mp hplace
      have hrest := Nat.mod_lt (i + (nextPlace call currentIndex - call.searchingRangeStart))
        (Nat.sub_pos_of_lt hlt)
      omega
    · exact ⟨_, (hdone ht).examined.trans (map_range_rotate _ _ _)⟩

/-- From below the range, the first place is outside of it. -/
theorem not_searchesRange_of_lt {currentIndex : ℕ} (hwithin : WithinSources call)
    (hne : call.searchingRangeStart ≠ call.searchingRangeEnd)
    (hlt : currentIndex < call.searchingRangeStart) :
    ¬ SearchesRange popBack call (call.run popBack currentIndex) := by
  intro hsearch
  obtain ⟨hle, hsize⟩ := hwithin
  have hplace : nextPlace call currentIndex = currentIndex := if_neg (by omega)
  obtain ⟨tws, htws⟩ : ∃ tws, call.threadWorkSources[nextPlace call currentIndex]? = some tws :=
    ⟨_, List.getElem?_eq_getElem (by omega)⟩
  obtain ⟨rounds, hrounds⟩ : ∃ rounds,
      call.searchingRangeEnd - call.searchingRangeStart = rounds + 1 :=
    Nat.exists_eq_succ_of_ne_zero (by omega)
  have hmem : ∃ source, (currentIndex, source) ∈ (call.run popBack currentIndex).examined := by
    obtain ⟨hexamined, -⟩ := @examine_eq _ _ _ popBack call
      { currentIndex, memory := call.others rounds call.memory } _ tws htws
    rw [hplace] at hexamined
    refine ⟨call.others rounds call.memory tws, ?_⟩
    rw [FindTask.run, hrounds, FindTask.searchRounds]
    split_ifs
    · rw [hexamined]
      exact List.mem_append_right _ (List.mem_singleton_self _)
    · refine mem_examined_searchRounds ?_
      rw [hexamined]
      exact List.mem_append_right _ (List.mem_singleton_self _)
  obtain ⟨source, hmem⟩ := hmem
  exact absurd (hsearch.inside _ hmem).1 (not_le.mpr hlt)

/-- After any calls, a search keeps to its range and sees all of it if and only if the range is
empty or the cursor does not stand below it. -/
theorem findTask_searches_range_iff (popBack : Queue → Option (Task × Queue))
    (earlier : List (FindTask Source Queue)) (call : FindTask Source Queue)
    (hwithin : WithinSources call) :
    SearchesRange popBack call (call.run popBack (FindTask.cursorAfter popBack earlier)) ↔
      call.searchingRangeStart = call.searchingRangeEnd ∨
        call.searchingRangeStart ≤ FindTask.cursorAfter popBack earlier := by
  constructor
  · intro hsearch
    by_contra hbelow
    obtain ⟨hne, hlt⟩ := not_or.mp hbelow
    exact not_searchesRange_of_lt hwithin hne (not_le.mp hlt) hsearch
  · rintro (hempty | hle)
    · exact searchesRange_of_eq hempty
    · exact searchesRange_of_le hwithin hle

/-- A queue of tasks, the last of which is at the back. -/
def popLast (queue : List ℕ) : Option (ℕ × List ℕ) :=
  queue.getLast?.map fun t => (t, queue.dropLast)

/-- The only task is in the source 2. -/
def taskInLast (source : ℕ) : ThreadWorkSource (List ℕ) where
  blockingWorkQueue := []
  nonBlockingWorkQueues := [if source = 2 then [7] else []]
  blockingInflight := 0
  nonBlockingInflight := 0

/-- A search of these places, during which no other thread does anything. -/
def searchOf (start stop : ℕ) : FindTask ℕ (List ℕ) where
  searchingRangeStart := start
  searchingRangeEnd := stop
  threadId := 0
  maxBlockingInflight := 10
  mayStealBlockingWork := true
  threadWorkSources := [0, 1, 2]
  memory := taskInLast
  others := fun _ memory => memory

theorem second_search_searches_range :
    SearchesRange popLast (searchOf 0 3)
        ((searchOf 0 3).run popLast (FindTask.cursorAfter popLast [searchOf 0 1])) ↔
      0 = 3 ∨ 0 ≤ FindTask.cursorAfter popLast [searchOf 0 1] :=
  findTask_searches_range_iff popLast [searchOf 0 1] (searchOf 0 3) ⟨by decide, by decide⟩

/-- The first search leaves the cursor at 1. The second one looks at the source 1, below its range,
and misses the task in its range. -/
theorem cursor_below_range :
    let second := (searchOf 2 3).run popLast (FindTask.cursorAfter popLast [searchOf 0 1])
    second.t = none ∧ second.examined.map Prod.fst = [1] ∧
      ((taskInLast 2).popNonBlockingTask popLast 0 true).isSome = true ∧
        ¬ SearchesRange popLast (searchOf 2 3) second := by
  refine ⟨rfl, rfl, rfl, fun hsearch => ?_⟩
  have hinside := hsearch.inside (1, taskInLast 1) (List.mem_singleton_self _)
  exact absurd hinside.1 (by decide)

end ContainerScheduler.Analysis
