/-
# The announced capacity

A queue accepts as many tasks of size 1 as its batches have room for. What it
announces is the same number as long as one batch may be enqueued. If none may,
the number of further batches is negative, and the product with the size of a
batch wraps around.
-/

import ContainerScheduler.Analysis.BatchesInOrder

namespace ContainerScheduler.Analysis

open Math
open Batching

variable {τ : Type} {taskSize : τ → ℕ} {options : QueueOptions} {queue : BatchQueue τ}

/-- The statuses of consecutive calls of `Schedule`, each with two readings of the clock. -/
def scheduleAll (taskSize : τ → ℕ) (options : QueueOptions) :
    BatchQueue τ → List (τ × ℕ × ℕ) → List (Option ScheduleError)
  | _, [] => []
  | queue, (task, nowMicros, laterMicros) :: calls =>
      (queue.schedule taskSize options task nowMicros laterMicros).status ::
        scheduleAll taskSize options
          (queue.schedule taskSize options task nowMicros laterMicros).queue calls

/-- All of up to the announced number of tasks of size 1 are accepted. -/
def CapacityHonoured (taskSize : τ → ℕ) (options : QueueOptions) (queue : BatchQueue τ) : Prop :=
  ∀ calls : List (τ × ℕ × ℕ), (∀ call ∈ calls, taskSize call.1 = 1) →
    calls.length ≤ queue.schedulingCapacity options →
      ∀ status ∈ scheduleAll taskSize options queue calls, status = none

/-- The room in the open batch and in the batches that may still be started. -/
def room (options : QueueOptions) (queue : BatchQueue τ) : ℕ :=
  (options.maxEnqueuedBatches - queue.batches.length) * options.maxBatchSize +
    (options.maxBatchSize - queue.back.size)

theorem length_batches (queue : BatchQueue τ) : queue.batches.length = queue.front.length + 1 := by
  simp [BatchQueue.batches]

section

variable (hpos : 0 < options.maxBatchSize) (hsize : options.maxBatchSize + 1 < 2 ^ 64)
  (hback : queue.back.size ≤ options.maxBatchSize)

include hpos hsize hback

theorem schedule_one {task : τ} (htask : taskSize task = 1) (nowMicros laterMicros : ℕ)
    {result : Scheduled τ}
    (hresult : result = queue.schedule taskSize options task nowMicros laterMicros) :
    (result.status = none ∧ room options result.queue + 1 = room options queue ∧
        result.queue.back.size ≤ options.maxBatchSize) ∨
      (result.status ≠ none ∧ room options queue = 0) := by
  have hone : ∀ size ≤ options.maxBatchSize, uint64 (size + 1) = size + 1 :=
    fun size hle => Nat.mod_eq_of_lt (by omega)
  subst hresult
  rw [BatchQueue.schedule, htask, if_neg (by omega), hone _ hback]
  split_ifs with hover hfull
  · refine .inr ⟨Option.some_ne_none _, ?_⟩
    rw [room, Nat.sub_eq_zero_of_le hfull, Nat.zero_mul]
    omega
  · -- the task is the first one of another batch
    have hfits : uint64 (queue.startNewBatch.back.size + taskSize task) ≤ options.maxBatchSize := by
      rw [htask]
      exact (Nat.mod_le _ _).trans hpos
    obtain ⟨hstatus, -, hadded⟩ := addToOpenBatch_spec hfits nowMicros laterMicros
    have hsizeBack : (queue.startNewBatch.addToOpenBatch taskSize options task nowMicros
        laterMicros).queue.back.size = 1 := by
      rw [hadded.back, Batch.addTask, htask]
      exact hone 0 (Nat.zero_le _)
    have hbatches : (queue.startNewBatch.addToOpenBatch taskSize options task nowMicros
        laterMicros).queue.batches.length = queue.batches.length + 1 := by
      rw [length_batches, length_batches, hadded.front, BatchQueue.startNewBatch,
        List.length_append, List.length_singleton]
    obtain ⟨further, hfurther⟩ := Nat.exists_eq_add_of_lt (not_le.mp hfull)
    refine .inl ⟨hstatus, ?_, hsizeBack.trans_le hpos⟩
    have hless : options.maxEnqueuedBatches - (queue.batches.length + 1) = further := by omega
    have hmore : options.maxEnqueuedBatches - queue.batches.length = further + 1 := by omega
    rw [room, room, hsizeBack, hbatches, hless, hmore, Nat.succ_mul]
    omega
  · have hfits : uint64 (queue.back.size + taskSize task) ≤ options.maxBatchSize := by
      rw [htask, hone _ hback]
      omega
    obtain ⟨hstatus, -, hadded⟩ := addToOpenBatch_spec hfits nowMicros laterMicros
    have hsizeBack : (queue.addToOpenBatch taskSize options task nowMicros
        laterMicros).queue.back.size = queue.back.size + 1 := by
      rw [hadded.back, Batch.addTask, htask]
      exact hone _ hback
    have hbatches : (queue.addToOpenBatch taskSize options task nowMicros
        laterMicros).queue.batches.length = queue.batches.length := by
      rw [length_batches, length_batches, hadded.front]
    refine .inl ⟨hstatus, ?_, by omega⟩
    rw [room, room, hsizeBack, hbatches]
    omega

/-- Tasks of size 1 are accepted exactly as long as there is room. -/
theorem scheduleAll_one {calls : List (τ × ℕ × ℕ)} (hcalls : ∀ call ∈ calls, taskSize call.1 = 1) :
    (∀ status ∈ scheduleAll taskSize options queue calls, status = none) ↔
      calls.length ≤ room options queue := by
  induction calls generalizing queue with
  | nil => simp [scheduleAll]
  | cons call calls ih =>
      obtain ⟨htask, hrest⟩ := List.forall_mem_cons.mp hcalls
      rw [scheduleAll, List.forall_mem_cons, List.length_cons]
      rcases schedule_one hpos hsize hback htask call.2.1 call.2.2 rfl with
        ⟨hstatus, hroom, hback'⟩ | ⟨hstatus, hroom⟩
      · rw [ih hback' hrest, ← hroom]
        simp [hstatus]
      · simp [hstatus, hroom]

/-- The announced number decides, because there are that many tasks of size 1. -/
theorem capacityHonoured_iff {task : τ} (htask : taskSize task = 1) :
    CapacityHonoured taskSize options queue ↔
      queue.schedulingCapacity options ≤ room options queue := by
  constructor
  · intro hhonoured
    have hcalls : ∀ call ∈ List.replicate (queue.schedulingCapacity options) (task, 0, 0),
        taskSize call.1 = 1 := by
      intro call hcall
      rw [List.eq_of_mem_replicate hcall]
      exact htask
    have hlength := (scheduleAll_one hpos hsize hback hcalls).mp
      (hhonoured _ hcalls List.length_replicate.le)
    rwa [List.length_replicate] at hlength
  · intro hle calls hcalls hlength
    exact (scheduleAll_one hpos hsize hback hcalls).mpr (hlength.trans hle)

end

/-! ## Reachable states -/

theorem length_schedule_le {bound : ℕ} (hbound : options.maxEnqueuedBatches ≤ bound)
    (hqueue : queue.batches.length ≤ bound) (task : τ) (nowMicros laterMicros : ℕ) :
    (queue.schedule taskSize options task nowMicros laterMicros).queue.batches.length ≤ bound := by
  have hadd : ∀ base : BatchQueue τ, (base.addToOpenBatch taskSize options task nowMicros
      laterMicros).queue.batches.length = base.batches.length := by
    intro base
    rw [length_batches, length_batches, BatchQueue.addToOpenBatch]
    simp only
    split_ifs <;> rfl
  rw [BatchQueue.schedule]
  split_ifs with hlarge hover hfull
  · exact hqueue
  · exact hqueue
  · rw [hadd, length_batches, BatchQueue.startNewBatch, List.length_append, List.length_singleton]
    rw [length_batches] at hfull
    omega
  · rwa [hadd]

/-- A batch that is started to hand out the open one replaces it. -/
theorem length_scheduleBatch_le {bound : ℕ} (hbound : 1 ≤ bound)
    (hqueue : queue.batches.length ≤ bound) (nowMicros : ℕ) :
    (queue.scheduleBatch options nowMicros).2.batches.length ≤ bound := by
  rw [BatchQueue.scheduleBatch]
  by_cases hready : queue.batches.length = 1 ∧
      queue.isOpenBatchSchedulable options nowMicros = true
  · have hempty : queue.front = [] := by
      have hone := hready.1
      rw [length_batches] at hone
      exact List.length_eq_zero_iff.mp (by omega)
    rw [if_pos hready, BatchQueue.startNewBatch, hempty]
    exact hbound
  · rw [if_neg hready]
    cases hfront : queue.front with
    | nil =>
        rw [length_batches, hfront] at hqueue
        rw [length_batches]
        exact hqueue
    | cons batch rest =>
        rw [length_batches, hfront, List.length_cons] at hqueue
        rw [length_batches]
        exact (Nat.le_succ _).trans hqueue

/-- The number of batches is between 1 and the maximum, if there may be one. -/
theorem length_batches_le {state : QueueState τ}
    (hreached : (batchQueue taskSize options).Reaches Machine.Unguarded state) :
    state.queue.batches.length ≤ max 1 options.maxEnqueuedBatches := by
  refine hreached.invariant (P := fun state =>
    state.queue.batches.length ≤ max 1 options.maxEnqueuedBatches) (le_max_left _ _) ?_
  intro source call target _ hsource _ htaken
  cases call with
  | schedule task nowMicros laterMicros =>
      rw [batchQueue] at htaken
      simp only [Option.ite_none_left_eq_some, Option.some.injEq] at htaken
      rw [← htaken.2]
      exact length_schedule_le (le_max_right _ _) hsource task nowMicros laterMicros
  | scheduleBatch nowMicros =>
      obtain rfl := Option.some.inj htaken
      exact length_scheduleBatch_le (le_max_left _ _) hsource nowMicros
  | processBatch index =>
      rw [batchQueue] at htaken
      simp only [Option.ite_none_right_eq_some, Option.some.injEq] at htaken
      rw [← htaken.2]
      exact hsource
  | closeAndWaitUntilEmpty =>
      rw [batchQueue] at htaken
      simp only [Option.ite_none_left_eq_some, Option.some.injEq] at htaken
      rw [← htaken.2, BatchQueue.closeAndWaitUntilEmpty]
      simp only
      split_ifs <;> exact hsource

/-! ## What is announced -/

/-- A sum that wraps around is never too large. -/
theorem capacityHonoured_of_wrap (hsize : options.maxBatchSize = 2 ^ 64 - 1) :
    CapacityHonoured taskSize options queue := by
  have hsmall : ∀ value, uint64 value ≤ options.maxBatchSize := by
    intro value
    have := Nat.mod_lt value (show 0 < 2 ^ 64 by decide)
    rw [uint64, hsize]
    omega
  have hall : ∀ (calls : List (τ × ℕ × ℕ)) (queue : BatchQueue τ),
      (∀ call ∈ calls, taskSize call.1 = 1) →
        ∀ status ∈ scheduleAll taskSize options queue calls, status = none := by
    intro calls
    induction calls with
    | nil => simp [scheduleAll]
    | cons call calls ih =>
        intro queue hcalls
        obtain ⟨htask, hrest⟩ := List.forall_mem_cons.mp hcalls
        rw [scheduleAll, List.forall_mem_cons]
        refine ⟨?_, ih _ hrest⟩
        rw [BatchQueue.schedule, htask, if_neg (by omega), if_neg (not_lt.mpr (hsmall _))]
        exact (addToOpenBatch_spec (hsmall _) _ _).1
  exact fun calls hcalls _ => hall calls queue hcalls

/-- The announced capacity may be relied on: a batch may be enqueued, or the wrapped product does
not exceed the room in the open batch. -/
def CapacityFits (options : QueueOptions) (size : ℕ) : Prop :=
  0 < options.maxEnqueuedBatches ∨ options.maxBatchSize = 2 ^ 64 - 1 ∨
    (size = 0 ∧ options.maxBatchSize < 2 ^ 31) ∨
    ((options.maxBatchSize : ℤ) ≤ 2 ^ 64 + toInt ((options.maxBatchSize : ℤ) - size) ∧
      2 ^ 64 + toInt ((options.maxBatchSize : ℤ) - size) ≤
        options.maxBatchSize + ((options.maxBatchSize : ℤ) - size))

theorem schedulingCapacity_eq_room (hmany : 0 < options.maxEnqueuedBatches)
    (hproduct : options.maxEnqueuedBatches * options.maxBatchSize < 2 ^ 31)
    (hpos : 0 < options.maxBatchSize)
    (hlength : queue.batches.length ≤ options.maxEnqueuedBatches)
    (hback : queue.back.size ≤ options.maxBatchSize) :
    queue.schedulingCapacity options = room options queue := by
  obtain ⟨further, hfurther⟩ := Nat.exists_eq_add_of_le hlength
  have hbatches : options.maxEnqueuedBatches < 2 ^ 31 :=
    (Nat.le_mul_of_pos_right _ hpos).trans_lt hproduct
  have hsize : options.maxBatchSize < 2 ^ 31 :=
    (Nat.le_mul_of_pos_left _ hmany).trans_lt hproduct
  have hnew : toInt ((options.maxEnqueuedBatches : ℤ) - queue.batches.length) = further := by
    rw [toInt, Int.bmod_eq_of_le] <;> omega
  have hopen : toInt ((options.maxBatchSize : ℤ) - queue.back.size) =
      (options.maxBatchSize - queue.back.size : ℕ) := by
    rw [toInt, Int.bmod_eq_of_le] <;> omega
  have hfurtherSize : further * options.maxBatchSize < 2 ^ 31 :=
    (Nat.mul_le_mul_right _ (by omega)).trans_lt hproduct
  have hless : options.maxEnqueuedBatches - queue.batches.length = further := by omega
  rw [BatchQueue.schedulingCapacity, hnew, hopen, room, hless, ← Nat.cast_mul, ← Nat.cast_add]
  omega

/-- Without any, -1 batches can still be started. -/
theorem schedulingCapacity_le_iff (hnone : options.maxEnqueuedBatches = 0)
    (hlength : queue.batches.length = 1) (hsize : options.maxBatchSize < 2 ^ 64 - 1)
    (hback : queue.back.size ≤ options.maxBatchSize) :
    queue.schedulingCapacity options ≤ room options queue ↔
      CapacityFits options queue.back.size := by
  have hnew : toInt ((0 : ℕ) - (1 : ℕ)) = -1 := by decide
  have hlow := Int.bmod_add_bdiv ((options.maxBatchSize : ℤ) - queue.back.size) (2 ^ 32)
  have hlowLt : toInt ((options.maxBatchSize : ℤ) - queue.back.size) < 2 ^ 31 :=
    Int.bmod_lt (by decide)
  have hlowLe : -2 ^ 31 ≤ toInt ((options.maxBatchSize : ℤ) - queue.back.size) :=
    Int.le_bmod (by decide)
  rw [BatchQueue.schedulingCapacity, room, CapacityFits, hnone, hlength, hnew]
  rw [← toInt] at hlow
  omega

/-- In every reachable state the announced capacity is honoured if and only if this holds of the
limits and the open batch. -/
theorem announced_capacity_honoured_iff {state : QueueState τ} {task : τ}
    (hreached : (batchQueue taskSize options).Reaches Machine.Unguarded state)
    (haccepted : options.acceptedByAddQueue = true) (hsize : options.maxBatchSize < 2 ^ 64)
    (hproduct : options.maxEnqueuedBatches * options.maxBatchSize < 2 ^ 31)
    (htask : taskSize task = 1) :
    CapacityHonoured taskSize options state.queue ↔
      CapacityFits options state.queue.back.size := by
  have hpos : 0 < options.maxBatchSize := by
    rw [QueueOptions.acceptedByAddQueue, bne_iff_ne] at haccepted
    exact Nat.pos_of_ne_zero haccepted
  have hback := ((QueueInv.of_reaches hreached).queued_size _
    (QueueInv.mem_batches.mpr (.inr rfl))).size_le
  have hlength := length_batches_le hreached
  rcases Nat.eq_or_lt_of_le (Nat.le_sub_one_of_lt hsize) with hwrap | hlt
  · exact ⟨fun _ => .inr (.inl hwrap), fun _ => capacityHonoured_of_wrap hwrap⟩
  · rw [capacityHonoured_iff hpos (by omega) hback htask]
    rcases Nat.eq_zero_or_pos options.maxEnqueuedBatches with hnone | hmany
    · refine schedulingCapacity_le_iff hnone ?_ hlt hback
      rw [length_batches] at hlength ⊢
      omega
    · rw [schedulingCapacity_eq_room hmany hproduct hpos (by omega) hback]
      exact ⟨fun _ => .inl hmany, fun _ => le_rfl⟩

theorem announced_capacity_honoured_iff_new :
    CapacityHonoured id ⟨4, 0, 3⟩ (batchQueue (id : ℕ → ℕ) ⟨4, 0, 3⟩).init.queue ↔
      CapacityFits ⟨4, 0, 3⟩ 0 :=
  @announced_capacity_honoured_iff ℕ id ⟨4, 0, 3⟩ _ 1 .init rfl (by decide) (by decide) rfl

/-- No batch may be enqueued, and the open one holds one task and has room for another: all but one
of 2 ^ 64 tasks are announced, and the second one is refused. -/
theorem capacity_of_no_batches :
    ∃ state, (batchQueue (id : ℕ → ℕ) ⟨2, 0, 0⟩).Reaches Machine.Unguarded state ∧
      state.queue.schedulingCapacity ⟨2, 0, 0⟩ = 2 ^ 64 - 1 ∧
        ¬ CapacityHonoured id ⟨2, 0, 0⟩ state.queue := by
  obtain ⟨state, hreached, hstate⟩ :=
    Machine.exists_reaches_unguarded (M := batchQueue (id : ℕ → ℕ) ⟨2, 0, 0⟩) [.schedule 1 0 0]
      (Q := fun state => state.queue.schedulingCapacity ⟨2, 0, 0⟩ = 2 ^ 64 - 1 ∧
        scheduleAll id ⟨2, 0, 0⟩ state.queue [(1, 0, 0), (1, 0, 0)] = [none, some .queueFull])
      (by decide)
  obtain ⟨hcapacity, hstatuses⟩ := of_decide_eq_true hstate
  refine ⟨state, hreached, hcapacity, fun hhonoured => ?_⟩
  have hall := hhonoured [(1, 0, 0), (1, 0, 0)] (by decide) (by rw [hcapacity]; decide)
  rw [hstatuses] at hall
  exact absurd (hall (some .queueFull) (by decide)) (Option.some_ne_none _)

end ContainerScheduler.Analysis
