/-
# Batches keep their tasks in order

Tasks move from the open batch to the back of the closed ones and leave at the front, so that what
was returned and what is queued is always what was accepted. A queue that is closed gives every
batch that has a task, and its waiter is notified by the last batch, or at once if there is none.
-/

import ContainerScheduler.Batching.BatchQueue

namespace ContainerScheduler.Analysis

open Math
open Batching

variable {τ : Type} {taskSize : τ → ℕ} {options : QueueOptions}

/-! ## What an operation does -/

/-- The size of a batch is the 64-bit sum of the sizes of its tasks and at most the maximum; it is
their sum if the maximum is less than half of the range. -/
structure SizeOk (taskSize : τ → ℕ) (options : QueueOptions) (batch : Batch τ) : Prop where
  size_eq : batch.size = uint64 (batch.tasks.map taskSize).sum
  size_le : batch.size ≤ options.maxBatchSize
  sum_le : 2 * options.maxBatchSize < 2 ^ 64 →
    (batch.tasks.map taskSize).sum ≤ options.maxBatchSize

theorem sizeOk_new : SizeOk taskSize options .new :=
  ⟨rfl, Nat.zero_le _, fun _ => Nat.zero_le _⟩

theorem SizeOk.addTask {batch : Batch τ} (hsize : SizeOk taskSize options batch) {task : τ}
    (htask : taskSize task ≤ options.maxBatchSize)
    (hfits : uint64 (batch.size + taskSize task) ≤ options.maxBatchSize) :
    SizeOk taskSize options (batch.addTask taskSize task) := by
  have hsum : ((batch.tasks ++ [task]).map taskSize).sum =
      (batch.tasks.map taskSize).sum + taskSize task := by
    rw [List.map_append, List.sum_append, List.map_singleton, List.sum_singleton]
  refine ⟨?_, hfits, fun hhalf => ?_⟩
  · simp only [Batch.addTask, hsum]
    rw [hsize.size_eq, uint64, uint64, uint64, Nat.mod_add_mod]
  · simp only [Batch.addTask, hsum]
    have hle := hsize.sum_le hhalf
    have hsame := hsize.size_eq
    rw [uint64, Nat.mod_eq_of_lt (by omega)] at hsame
    rw [uint64, Nat.mod_eq_of_lt (by omega)] at hfits
    omega

/-- A task was added to the open batch of `base`. -/
structure AddedTo (taskSize : τ → ℕ) (options : QueueOptions) (task : τ)
    (base next : BatchQueue τ) :
    Prop where
  fits : uint64 (base.back.size + taskSize task) ≤ options.maxBatchSize
  front : next.front = base.front
  back : next.back = base.back.addTask taskSize task
  closed : next.closed = base.closed
  processed : next.numBatchesBeingProcessed = base.numBatchesBeingProcessed
  notification : next.emptyNotification = base.emptyNotification

theorem addToOpenBatch_spec {queue : BatchQueue τ} {task : τ}
    (hfits : uint64 (queue.back.size + taskSize task) ≤ options.maxBatchSize)
    (nowMicros laterMicros : ℕ) :
    (queue.addToOpenBatch taskSize options task nowMicros laterMicros).status = none ∧
      (queue.addToOpenBatch taskSize options task nowMicros laterMicros).task = none ∧
      AddedTo taskSize options task queue
        (queue.addToOpenBatch taskSize options task nowMicros laterMicros).queue := by
  unfold BatchQueue.addToOpenBatch
  simp only
  split_ifs <;> exact ⟨rfl, rfl, hfits, rfl, rfl, rfl, rfl, rfl⟩

/-- What `Schedule` does: it refuses the task and changes nothing, or adds it to the open batch, for
which it may start a new one. -/
theorem schedule_cases (queue : BatchQueue τ) (task : τ) (nowMicros laterMicros : ℕ)
    {result : Scheduled τ}
    (hresult : result = queue.schedule taskSize options task nowMicros laterMicros) :
    (result.status ≠ none ∧ result.queue = queue ∧ result.task = some task) ∨
      (result.status = none ∧ result.task = none ∧ taskSize task ≤ options.maxBatchSize ∧
        (AddedTo taskSize options task queue result.queue ∨
          options.maxBatchSize < uint64 (queue.back.size + taskSize task) ∧
            AddedTo taskSize options task queue.startNewBatch result.queue)) := by
  subst hresult
  rw [BatchQueue.schedule]
  split_ifs with hlarge hover hfull
  · exact .inl ⟨nofun, rfl, rfl⟩
  · exact .inl ⟨nofun, rfl, rfl⟩
  · have hle := Nat.le_of_not_lt hlarge
    have hfits : uint64 (queue.startNewBatch.back.size + taskSize task) ≤ options.maxBatchSize :=
      (Nat.mod_le _ _).trans (le_of_eq_of_le (Nat.zero_add _) hle)
    rcases addToOpenBatch_spec hfits nowMicros laterMicros with ⟨hstatus, htask, hadded⟩
    exact .inr ⟨hstatus, htask, hle, .inr ⟨hover, hadded⟩⟩
  · rcases addToOpenBatch_spec (Nat.le_of_not_lt hover) nowMicros laterMicros with
      ⟨hstatus, htask, hadded⟩
    exact .inr ⟨hstatus, htask, Nat.le_of_not_lt hlarge, .inl hadded⟩

/-! ## The invariant -/

/-- The tasks of some batches, in order. -/
def tasksOf (batches : List (Batch τ)) : List τ := batches.flatMap Batch.tasks

/-- Between two operations. -/
structure QueueInv (taskSize : τ → ℕ) (options : QueueOptions) (state : QueueState τ) : Prop where
  inOrder : tasksOf state.returned ++ tasksOf state.queue.batches = state.accepted
  back_open : state.queue.back.closed = false
  front_closed : ∀ batch ∈ state.queue.front, batch.closed = true ∧ batch.tasks ≠ []
  returned_closed : ∀ batch ∈ state.returned, batch.closed = true ∧ batch.tasks ≠ []
  queued_size : ∀ batch ∈ state.queue.batches, SizeOk taskSize options batch
  returned_size : ∀ batch ∈ state.returned, SizeOk taskSize options batch
  processed : state.queue.numBatchesBeingProcessed = state.inProcess.length
  notified : state.notified = if state.queue.closed ∧ state.queue.isEmptyInternal then 1 else 0
  notification : state.queue.emptyNotification = true → state.queue.closed = true
  waiting : state.queue.closed = true → state.queue.isEmptyInternal = false →
    state.queue.emptyNotification = true

namespace QueueInv

variable {state : QueueState τ}

theorem init : QueueInv taskSize options (batchQueue taskSize options).init := by
  constructor
  · rfl
  · rfl
  · exact nofun
  · exact nofun
  · intro batch hbatch
    rcases List.mem_singleton.mp hbatch with rfl
    exact sizeOk_new
  · exact nofun
  · rfl
  · rfl
  · exact nofun
  · exact nofun

theorem mem_batches {queue : BatchQueue τ} {batch : Batch τ} :
    batch ∈ queue.batches ↔ batch ∈ queue.front ∨ batch = queue.back := by
  rw [BatchQueue.batches, List.mem_append, List.mem_singleton]

section

variable (inv : QueueInv taskSize options state)

include inv

/-- The open batch is closed, because it has a task. -/
theorem startNewBatch (hne : state.queue.back.tasks ≠ []) :
    QueueInv taskSize options { state with queue := state.queue.startNewBatch } := by
  have hempty : state.queue.isEmptyInternal = false := by
    simp [BatchQueue.isEmptyInternal, hne]
  have hempty' : state.queue.startNewBatch.isEmptyInternal = false := by
    simp [BatchQueue.isEmptyInternal, BatchQueue.startNewBatch]
  have hback : SizeOk taskSize options state.queue.back.close := by
    have hsize := inv.queued_size _ (mem_batches.mpr (.inr rfl))
    exact ⟨hsize.size_eq, hsize.size_le, hsize.sum_le⟩
  refine { inv with
    inOrder := ?_
    back_open := rfl
    front_closed := ?_
    queued_size := ?_
    notified := ?_
    waiting := ?_ }
  · rw [← inv.inOrder]
    simp [tasksOf, BatchQueue.batches, BatchQueue.startNewBatch, Batch.close, Batch.new]
  · intro batch hbatch
    rcases List.mem_append.mp hbatch with hbatch | hbatch
    · exact inv.front_closed batch hbatch
    · rcases List.mem_singleton.mp hbatch with rfl
      exact ⟨rfl, hne⟩
  · intro batch hbatch
    rcases mem_batches.mp hbatch with hbatch | rfl
    · rcases List.mem_append.mp hbatch with hbatch | hbatch
      · exact inv.queued_size batch (mem_batches.mpr (.inl hbatch))
      · rcases List.mem_singleton.mp hbatch with rfl
        exact hback
    · exact sizeOk_new
  · have hzero := inv.notified
    rw [if_neg (by simp [hempty])] at hzero
    rw [if_neg (by simp [hempty'])]
    exact hzero
  · intro hclosed _
    exact inv.waiting hclosed hempty

/-- A task is added to the open batch of a queue that is not closed. -/
theorem added (hclosed : state.queue.closed = false) {task : τ}
    (htask : taskSize task ≤ options.maxBatchSize) {next : BatchQueue τ}
    (hadded : AddedTo taskSize options task state.queue next) :
    QueueInv taskSize options
      { state with queue := next, accepted := state.accepted ++ [task] } := by
  have hclosed' : next.closed = false := hadded.closed.trans hclosed
  refine { inv with
    inOrder := ?_
    back_open := ?_
    front_closed := ?_
    queued_size := ?_
    processed := hadded.processed.trans inv.processed
    notified := ?_
    notification := ?_
    waiting := ?_ }
  · rw [← inv.inOrder, BatchQueue.batches, BatchQueue.batches, hadded.front, hadded.back]
    simp [tasksOf, Batch.addTask]
  · rw [hadded.back]
    exact inv.back_open
  · rw [hadded.front]
    exact inv.front_closed
  · intro batch hbatch
    rcases mem_batches.mp hbatch with hbatch | rfl
    · rw [hadded.front] at hbatch
      exact inv.queued_size batch (mem_batches.mpr (.inl hbatch))
    · rw [hadded.back]
      exact (inv.queued_size _ (mem_batches.mpr (.inr rfl))).addTask htask hadded.fits
  · have hzero := inv.notified
    rw [if_neg (by simp [hclosed])] at hzero
    rw [if_neg (by simp [hclosed'])]
    exact hzero
  · intro hnotification
    rw [hadded.notification] at hnotification
    rw [hadded.closed]
    exact inv.notification hnotification
  · intro hnow
    exact absurd (hnow.symm.trans hclosed') nofun

/-- An empty batch has room for every task. -/
theorem back_ne_nil {task : τ} (htask : taskSize task ≤ options.maxBatchSize)
    (hover : options.maxBatchSize < uint64 (state.queue.back.size + taskSize task)) :
    state.queue.back.tasks ≠ [] := by
  intro hempty
  have hsize := (inv.queued_size _ (mem_batches.mpr (.inr rfl))).size_eq
  rw [hempty, List.map_nil, List.sum_nil] at hsize
  have hle : uint64 (state.queue.back.size + taskSize task) ≤ taskSize task := by
    rw [hsize, uint64, uint64, Nat.zero_mod, Nat.zero_add]
    exact Nat.mod_le _ _
  omega

theorem schedule (hclosed : state.queue.closed = false) (task : τ) (nowMicros laterMicros : ℕ)
    {result : Scheduled τ}
    (hresult : result = state.queue.schedule taskSize options task nowMicros laterMicros) :
    QueueInv taskSize options { state with
      queue := result.queue
      accepted := if result.status = none then state.accepted ++ [task] else state.accepted } := by
  rcases schedule_cases state.queue task nowMicros laterMicros hresult with
    ⟨hstatus, hqueue, -⟩ | ⟨hstatus, -, htask, hadded | ⟨hover, hadded⟩⟩
  · rw [if_neg hstatus, hqueue]
    exact inv
  · rw [if_pos hstatus]
    exact inv.added hclosed htask hadded
  · rw [if_pos hstatus]
    exact (inv.startNewBatch (inv.back_ne_nil htask hover)).added hclosed htask hadded

/-- The batch at the front is handed out. -/
theorem pop {batch : Batch τ} {rest : List (Batch τ)} (hfront : state.queue.front = batch :: rest) :
    QueueInv taskSize options { state with
      queue := { state.queue with
        front := rest
        numBatchesBeingProcessed := state.queue.numBatchesBeingProcessed + 1 }
      returned := state.returned ++ [batch]
      inProcess := state.inProcess ++ [batch] } := by
  have hbatch : batch ∈ state.queue.front := hfront ▸ List.mem_cons_self
  have hrest : ∀ {other}, other ∈ rest → other ∈ state.queue.front := fun hmem =>
    hfront ▸ List.mem_cons_of_mem _ hmem
  have hempty : state.queue.isEmptyInternal = false := by
    simp [BatchQueue.isEmptyInternal, hfront]
  refine
    { inOrder := ?_
      back_open := inv.back_open
      front_closed := fun other hother => inv.front_closed other (hrest hother)
      returned_closed := ?_
      queued_size := ?_
      returned_size := ?_
      processed := ?_
      notified := ?_
      notification := inv.notification
      waiting := fun hclosed _ => inv.waiting hclosed hempty }
  · rw [← inv.inOrder, BatchQueue.batches, BatchQueue.batches, hfront]
    simp [tasksOf]
  · intro other hother
    rcases List.mem_append.mp hother with hother | hother
    · exact inv.returned_closed other hother
    · rcases List.mem_singleton.mp hother with rfl
      exact inv.front_closed other hbatch
  · intro other hother
    rcases mem_batches.mp hother with hother | rfl
    · exact inv.queued_size other (mem_batches.mpr (.inl (hrest hother)))
    · exact inv.queued_size _ (mem_batches.mpr (.inr rfl))
  · intro other hother
    rcases List.mem_append.mp hother with hother | hother
    · exact inv.returned_size other hother
    · rcases List.mem_singleton.mp hother with rfl
      exact inv.queued_size other (mem_batches.mpr (.inl hbatch))
  · rw [List.length_append, List.length_singleton, inv.processed]
  · have hzero := inv.notified
    rw [if_neg (by simp [hempty])] at hzero
    rw [if_neg (by simp [BatchQueue.isEmptyInternal])]
    exact hzero

theorem setSchedulableBatch (schedulableBatch : Bool) :
    QueueInv taskSize options
      { state with queue := { state.queue with schedulableBatch := schedulableBatch } } := by
  constructor
  · exact inv.inOrder
  · exact inv.back_open
  · exact inv.front_closed
  · exact inv.returned_closed
  · exact inv.queued_size
  · exact inv.returned_size
  · exact inv.processed
  · exact inv.notified
  · exact inv.notification
  · exact inv.waiting

/-- The part of `ScheduleBatch` after it considered to close the open batch. -/
theorem takeFront {result : Option (Batch τ) × BatchQueue τ}
    (hresult : result = match state.queue.front with
      | batch :: rest =>
          (some batch, { state.queue with
            front := rest
            numBatchesBeingProcessed := state.queue.numBatchesBeingProcessed + 1 })
      | [] => (none, { state.queue with schedulableBatch := false })) :
    QueueInv taskSize options { state with
      queue := result.2
      returned := state.returned ++ result.1.toList
      inProcess := state.inProcess ++ result.1.toList } := by
  rcases hfront : state.queue.front with _ | ⟨batch, rest⟩
  · rw [hfront] at hresult
    subst hresult
    simp only [Option.toList_none, List.append_nil]
    exact inv.setSchedulableBatch false
  · rw [hfront] at hresult
    subst hresult
    exact inv.pop hfront

theorem scheduleBatch (nowMicros : ℕ) {result : Option (Batch τ) × BatchQueue τ}
    (hresult : result = state.queue.scheduleBatch options nowMicros) :
    QueueInv taskSize options { state with
      queue := result.2
      returned := state.returned ++ result.1.toList
      inProcess := state.inProcess ++ result.1.toList } := by
  rw [BatchQueue.scheduleBatch] at hresult
  by_cases hready : state.queue.batches.length = 1 ∧
      state.queue.isOpenBatchSchedulable options nowMicros = true
  · rw [if_pos hready] at hresult
    apply (inv.startNewBatch ?_).takeFront hresult
    -- An empty open batch cannot be scheduled.
    intro hempty
    rw [BatchQueue.isOpenBatchSchedulable, if_pos hempty] at hready
    exact absurd hready.2 nofun
  · rw [if_neg hready] at hresult
    exact inv.takeFront hresult

theorem processBatch {index : ℕ} (hindex : index < state.inProcess.length)
    {result : BatchQueue τ × Bool} (hresult : result = state.queue.processBatch) :
    QueueInv taskSize options { state with
      queue := result.1
      inProcess := state.inProcess.eraseIdx index
      notified := state.notified + result.2.toNat } := by
  subst hresult
  have hpositive : 0 < state.queue.numBatchesBeingProcessed := by
    rw [inv.processed]
    exact Nat.zero_lt_of_lt hindex
  have hempty : state.queue.isEmptyInternal = false := by
    simp [BatchQueue.isEmptyInternal, hpositive.ne']
  have hzero : state.notified = 0 := by
    rw [inv.notified, if_neg (by simp [hempty])]
  constructor
  · exact inv.inOrder
  · exact inv.back_open
  · exact inv.front_closed
  · exact inv.returned_closed
  · exact inv.queued_size
  · exact inv.returned_size
  · change state.queue.numBatchesBeingProcessed - 1 = (state.inProcess.eraseIdx index).length
    rw [List.length_eraseIdx_of_lt hindex, inv.processed]
  · rw [hzero, Nat.zero_add]
    change ((state.queue.processBatch).2).toNat = if state.queue.closed = true ∧
      (state.queue.processBatch).1.isEmptyInternal = true then 1 else 0
    simp only [BatchQueue.processBatch]
    rcases hclosed : state.queue.closed with _ | _
    · have hnone : state.queue.emptyNotification = false := by
        rw [← Bool.not_eq_true]
        intro hsome
        exact absurd (hclosed.symm.trans (inv.notification hsome)) nofun
      simp [hnone]
    · rw [inv.waiting hclosed hempty, Bool.true_and]
      simp only [true_and]
      have htoNat : ∀ empty : Bool, empty.toNat = if empty = true then 1 else 0 := by decide
      apply htoNat
  · exact inv.notification
  · intro hclosed _
    exact inv.waiting hclosed hempty

theorem closeAndWaitUntilEmpty (hopen : state.queue.closed = false) {result : BatchQueue τ × Bool}
    (hresult : result = state.queue.closeAndWaitUntilEmpty) :
    QueueInv taskSize options
      { state with queue := result.1, notified := state.notified + result.2.toNat } := by
  subst hresult
  have hzero : state.notified = 0 := by
    rw [inv.notified, if_neg (by simp [hopen])]
  have hsame : ∀ notification, ({ state.queue with
      closed := true, emptyNotification := notification } : BatchQueue τ).isEmptyInternal =
        state.queue.isEmptyInternal := fun _ => rfl
  rw [hzero, Nat.zero_add, BatchQueue.closeAndWaitUntilEmpty]
  rcases hempty : state.queue.isEmptyInternal with _ | _
  · rw [if_neg (by simp [hsame, hempty])]
    refine { inv with notified := ?_, notification := fun _ => rfl, waiting := fun _ _ => rfl }
    rw [if_neg (by simp [hsame, hempty])]
    rfl
  · rw [if_pos (by simp [hsame, hempty])]
    refine { inv with notified := ?_, notification := fun _ => rfl, waiting := ?_ }
    · rw [if_pos ⟨rfl, by rw [hsame, hempty]⟩]
      rfl
    · intro _ hnonempty
      rw [hsame, hempty] at hnonempty
      exact absurd hnonempty nofun

/-- Nothing is queued or in process, as the queue sees it. -/
theorem isEmptyInternal_iff :
    state.queue.isEmptyInternal = true ↔
      state.inProcess = [] ∧ state.queue.batches.flatMap Batch.tasks = [] := by
  rw [BatchQueue.isEmptyInternal, decide_eq_true_iff, inv.processed, List.length_eq_zero_iff]
  apply and_congr_right
  intro _
  constructor
  · rintro ⟨hfront, hback⟩
    simp [BatchQueue.batches, hfront, hback]
  · intro htasks
    rw [BatchQueue.batches, List.flatMap_append, List.append_eq_nil_iff, List.flatMap_singleton]
      at htasks
    refine ⟨?_, htasks.2⟩
    -- A closed batch has a task.
    rw [List.eq_nil_iff_forall_not_mem]
    intro batch hbatch
    exact (inv.front_closed batch hbatch).2 (List.flatMap_eq_nil_iff.mp htasks.1 batch hbatch)

end

theorem of_reaches (hreached : (batchQueue taskSize options).Reaches Unguarded state) :
    QueueInv taskSize options state := by
  induction hreached with
  | init => exact init
  | @step source target label hreached hallowed htaken ih =>
      rcases label with ⟨task, nowMicros, laterMicros⟩ | nowMicros | index | _
      · by_cases hclosed : source.queue.closed = true
        · simp [batchQueue, hclosed] at htaken
        · simp only [batchQueue, if_neg hclosed] at htaken
          rcases Option.some.inj htaken with rfl
          exact ih.schedule (Bool.not_eq_true _ ▸ hclosed) task nowMicros laterMicros rfl
      · rcases Option.some.inj htaken with rfl
        exact ih.scheduleBatch nowMicros rfl
      · by_cases hindex : index < source.inProcess.length
        · simp only [batchQueue, if_pos hindex] at htaken
          rcases Option.some.inj htaken with rfl
          exact ih.processBatch hindex rfl
        · simp [batchQueue, hindex] at htaken
      · by_cases hclosed : source.queue.closed = true
        · simp [batchQueue, hclosed] at htaken
        · simp only [batchQueue, if_neg hclosed] at htaken
          rcases Option.some.inj htaken with rfl
          exact ih.closeAndWaitUntilEmpty (Bool.not_eq_true _ ▸ hclosed) rfl

end QueueInv

/-- A closed queue that has a task gives a batch, whatever the clock says. -/
theorem scheduleBatch_isSome {queue : BatchQueue τ} (hclosed : queue.closed = true)
    (htasks : tasksOf queue.batches ≠ []) (nowMicros : ℕ) :
    (queue.scheduleBatch options nowMicros).1.isSome = true := by
  rcases hfront : queue.front with _ | ⟨batch, rest⟩
  · have hback : queue.back.tasks ≠ [] := by
      intro hempty
      apply htasks
      simp [tasksOf, BatchQueue.batches, hfront, hempty]
    have hready : queue.batches.length = 1 ∧
        queue.isOpenBatchSchedulable options nowMicros = true := by
      simp [BatchQueue.batches, hfront, BatchQueue.isOpenBatchSchedulable, hback, hclosed]
    rw [BatchQueue.scheduleBatch, if_pos hready]
    simp [BatchQueue.startNewBatch, hfront]
  · have hlong : ¬(queue.batches.length = 1 ∧
        queue.isOpenBatchSchedulable options nowMicros = true) := by
      simp [BatchQueue.batches, hfront]
    rw [BatchQueue.scheduleBatch, if_neg hlong]
    simp [hfront]

/-! ## Every run -/

/-- **Batches keep their tasks in order.** In every reached state the tasks of the returned batches
and those queued are the accepted ones in order; each returned batch is closed, has a task and is
not too large; the queued batches are closed but for the last; a closed queue with a task gives a
batch; the waiter was notified once if the queue is closed and nothing is queued or in process, and
not otherwise; and a task that `Schedule` refuses stays with its caller and changes nothing. -/
theorem batches_in_order (taskSize : τ → ℕ) (options : QueueOptions) {state : QueueState τ}
    (hreached : (batchQueue taskSize options).Reaches Unguarded state) :
    state.returned.flatMap Batch.tasks ++ state.queue.batches.flatMap Batch.tasks =
        state.accepted ∧
      (∀ batch ∈ state.returned, batch.closed = true ∧ batch.tasks ≠ [] ∧
        batch.size ≤ options.maxBatchSize ∧
        batch.size = uint64 (batch.tasks.map taskSize).sum ∧
        (2 * options.maxBatchSize < 2 ^ 64 →
          (batch.tasks.map taskSize).sum ≤ options.maxBatchSize)) ∧
      (∀ task nowMicros laterMicros,
        (state.queue.schedule taskSize options task nowMicros laterMicros).status ≠ none →
        (state.queue.schedule taskSize options task nowMicros laterMicros).queue = state.queue ∧
          (state.queue.schedule taskSize options task nowMicros laterMicros).task = some task) ∧
      (∀ batch ∈ state.queue.batches.dropLast, batch.closed = true) ∧
      (∀ batch ∈ state.queue.batches.getLast?, batch.closed = false) ∧
      (state.queue.closed = true → state.queue.batches.flatMap Batch.tasks ≠ [] →
        ∀ nowMicros, (state.queue.scheduleBatch options nowMicros).1.isSome = true) ∧
      state.notified = (if state.queue.closed = true ∧
        state.queue.batches.flatMap Batch.tasks = [] ∧ state.inProcess = [] then 1 else 0) := by
  have inv := QueueInv.of_reaches hreached
  refine ⟨inv.inOrder, ?_, ?_, ?_, ?_, scheduleBatch_isSome, ?_⟩
  · intro batch hbatch
    rcases inv.returned_closed batch hbatch with ⟨hclosed, htasks⟩
    rcases inv.returned_size batch hbatch with ⟨hsize, hle, hsum⟩
    exact ⟨hclosed, htasks, hle, hsize, hsum⟩
  · intro task nowMicros laterMicros hstatus
    rcases schedule_cases state.queue task nowMicros laterMicros rfl with
      ⟨-, hqueue, htask⟩ | ⟨hnone, -⟩
    · exact ⟨hqueue, htask⟩
    · exact absurd hnone hstatus
  · intro batch hbatch
    rw [BatchQueue.batches, List.dropLast_concat] at hbatch
    exact (inv.front_closed batch hbatch).1
  · intro batch hbatch
    rw [BatchQueue.batches, List.getLast?_concat, Option.mem_some] at hbatch
    exact hbatch ▸ inv.back_open
  · rw [inv.notified]
    apply if_congr _ rfl rfl
    rw [inv.isEmptyInternal_iff, and_comm (a := state.inProcess = [])]

/-- Three tasks of which the last two share a batch; the queue is closed and its batches processed.
-/
theorem batches_in_order_closed :
    ∃ state : QueueState ℕ,
      state.returned.flatMap Batch.tasks ++ state.queue.batches.flatMap Batch.tasks = [3, 1, 2] ∧
        (∀ batch ∈ state.returned, batch.size ≤ 3) ∧ state.notified = 1 := by
  rcases Machine.exists_reaches_unguarded (M := batchQueue id ⟨3, 10, 2⟩)
    (Q := fun state => state.accepted = [3, 1, 2] ∧ state.queue.closed = true ∧
      state.queue.batches.flatMap Batch.tasks = [] ∧ state.inProcess = [])
    [.schedule 3 5 5, .schedule 1 6 6, .scheduleBatch 7, .schedule 2 7 7, .closeAndWaitUntilEmpty,
      .scheduleBatch 8, .processBatch 1, .scheduleBatch 8, .processBatch 0] (by decide +kernel) with
    ⟨state, hreached, hstate⟩
  rcases of_decide_eq_true hstate with ⟨haccepted, hdone⟩
  rcases batches_in_order id ⟨3, 10, 2⟩ hreached with ⟨horder, hreturned, -, -, -, -, hnotified⟩
  exact ⟨state, horder.trans haccepted, fun batch hbatch => (hreturned batch hbatch).2.2.1,
    hnotified.trans (if_pos hdone)⟩

end ContainerScheduler.Analysis
