/-
# Queued work never waits behind running work

The idle counter of the queue counts the threads that wait and those that are
awake, also the notified ones that have not locked the queue yet; it misses the
threads that were started and those that returned from a function. The queue is
never longer than the number of threads that are going to lock it, whatever the
counter says: a function that wakes a thread adds one of them, and otherwise no
thread waits, so that the counter counts awake threads only.
-/

import ContainerScheduler.Threads.UnboundedWorkQueue

namespace ContainerScheduler.Analysis

open Math Threads

universe u

variable {α : Type u}

/-- A thread that runs no function and waits for no notification: it is going to
lock the queue. -/
def goingToLock : PooledThread α → Bool
  | .starting | .awake | .returned => true
  | _ => false

/-- A thread that was woken up. -/
def isAwake : PooledThread α → Bool
  | .awake => true
  | _ => false

/-- What holds in every state of a queue that is not destroyed. -/
structure WorkInv (history : WorkHistory α) : Prop where
  cancelled : history.queue.cancelled = false
  /-- The counter counts the threads that wait or are awake. -/
  idle : history.queue.numIdleThreads =
    history.queue.threadPool.countP PooledThread.isWaiting +
      history.queue.threadPool.countP isAwake
  /-- Every queued function has a thread that is going to lock the queue. -/
  enough : history.queue.workQueue.length ≤ history.queue.threadPool.countP goingToLock
  /-- Functions are taken in the order in which they were scheduled. -/
  order : history.taken ++ history.queue.workQueue = history.scheduled

/-- What a change of one thread does to a count. -/
theorem countP_set_add {threads : List (PooledThread α)} {thread : ℕ} {old : PooledThread α}
    (hold : threads[thread]? = some old) (p : PooledThread α → Bool) (new : PooledThread α) :
    (threads.set thread new).countP p + (p old).toNat = threads.countP p + (p new).toNat := by
  rcases List.getElem?_eq_some_iff.mp hold with ⟨hlt, rfl⟩
  have hcounted : p threads[thread] = true → 0 < threads.countP p := fun hp =>
    List.countP_pos_iff.mpr ⟨_, List.getElem_mem hlt, hp⟩
  rw [List.countP_set hlt]
  cases hp : p threads[thread] with
  | true =>
      have hpos := hcounted hp
      cases p new <;> simp <;> omega
  | false => cases p new <;> simp

/-! ## One step -/

section Steps

variable {history : WorkHistory α} {queue next : UnboundedWorkQueue α} {thread : ℕ}

/-- A notification adds a thread that is going to lock the queue, or nobody waits;
in both cases the waiting and the awake threads are as many as before. -/
theorem notifyOne_spec {woken : ℕ} {threads others : List (PooledThread α)}
    (hnotify : UnboundedWorkQueue.notifyOne woken threads = some others) :
    others.countP PooledThread.isWaiting + others.countP isAwake =
        threads.countP PooledThread.isWaiting + threads.countP isAwake ∧
      (others.countP goingToLock = threads.countP goingToLock + 1 ∨
        others = threads ∧ threads.countP PooledThread.isWaiting = 0) := by
  unfold UnboundedWorkQueue.notifyOne at hnotify
  split at hnotify
  next =>
      split at hnotify
      next hwoken =>
          obtain rfl := Option.some.inj hnotify
          rcases (Option.any_eq_true _ _).mp hwoken with ⟨old, hold, hwaiting⟩
          cases old with
          | waiting =>
              have hwaits := countP_set_add hold PooledThread.isWaiting .awake
              have hawake := countP_set_add hold isAwake .awake
              have hready := countP_set_add hold goingToLock .awake
              simp only [PooledThread.isWaiting, isAwake, goingToLock, Bool.toNat_true,
                Bool.toNat_false] at hwaits hawake hready
              exact ⟨by omega, .inl (by omega)⟩
          | _ => cases hwaiting
      next => cases hnotify
  next hnone =>
      obtain rfl := Option.some.inj hnotify
      refine ⟨rfl, .inr ⟨rfl, ?_⟩⟩
      rw [List.countP_eq_zero]
      intro thread hmem hwaiting
      exact hnone (List.any_eq_true.mpr ⟨thread, hmem, hwaiting⟩)

/-- Every awake thread is going to lock the queue. -/
theorem countP_isAwake_le (threads : List (PooledThread α)) :
    threads.countP isAwake ≤ threads.countP goingToLock := by
  apply List.countP_mono_left
  intro thread _ hthread
  cases thread <;> first | rfl | cases hthread

theorem WorkInv.schedule (inv : WorkInv history) {fn : α} {woken : ℕ}
    (hschedule : history.queue.schedule fn woken = some next) :
    WorkInv { history with queue := next, scheduled := history.scheduled ++ [fn] } := by
  rcases Option.map_eq_some_iff.mp hschedule with ⟨others, hnotify, rfl⟩
  rcases notifyOne_spec hnotify with ⟨hidle, hready⟩
  have hcounter := inv.idle
  have henough := inv.enough
  constructor
  · exact inv.cancelled
  · dsimp only
    split
    · rw [List.countP_append, List.countP_append]
      simp only [List.countP_singleton, PooledThread.isWaiting, isAwake, Bool.false_eq_true,
        if_false]
      omega
    · omega
  · simp only [List.length_append, List.length_singleton]
    split
    next =>
        rw [List.countP_append]
        simp only [List.countP_singleton, goingToLock, if_true]
        rcases hready with hmore | ⟨hsame, -⟩
        · omega
        · rw [hsame]
          omega
    next hfew =>
        rcases hready with hmore | ⟨hsame, hnone⟩
        · omega
        · -- nobody waits: the counter counts threads that are awake
          have hawake := countP_isAwake_le others
          rw [hsame] at hawake hidle ⊢
          omega
  · simp only [← List.append_assoc, inv.order]

/-- The loop of a thread that counts as idle keeps the invariant. -/
theorem WorkInv.workLoop {scheduled taken : List α} {old : PooledThread α}
    (hcancelled : queue.cancelled = false)
    (hold : queue.threadPool[thread]? = some old) (hready : goingToLock old = true)
    (hidle : queue.numIdleThreads + (isAwake old).toNat =
      queue.threadPool.countP PooledThread.isWaiting + queue.threadPool.countP isAwake + 1)
    (henough : queue.workQueue.length ≤ queue.threadPool.countP goingToLock)
    (horder : taken ++ queue.workQueue = scheduled) :
    WorkInv ⟨(queue.workLoop thread).2, scheduled, taken ++ (queue.workLoop thread).1.toList⟩ := by
  have hwaiting : PooledThread.isWaiting old = false := by
    cases old <;> first | rfl | cases hready
  unfold UnboundedWorkQueue.workLoop
  split
  next hcancel => exact absurd (hcancel.symm.trans hcancelled) (by decide)
  next _ hwork =>
      have hwaits := countP_set_add hold PooledThread.isWaiting .waiting
      have hawake := countP_set_add hold isAwake .waiting
      rw [hwaiting] at hwaits
      change _ + 0 = _ + 1 at hwaits
      change _ = _ + 0 at hawake
      constructor
      · exact hcancelled
      · dsimp only [UnboundedWorkQueue.setThread]
        omega
      · simp [UnboundedWorkQueue.setThread, hwork]
      · simpa [UnboundedWorkQueue.setThread] using horder
  next fn rest _ hwork =>
      have hwaits := countP_set_add hold PooledThread.isWaiting (.running fn)
      have hawake := countP_set_add hold isAwake (.running fn)
      have hlocks := countP_set_add hold goingToLock (.running fn)
      rw [hwaiting] at hwaits
      rw [hready] at hlocks
      change _ + 0 = _ + 0 at hwaits
      change _ = _ + 0 at hawake
      change _ + 1 = _ + 0 at hlocks
      rw [hwork, List.length_cons] at henough
      rw [hwork] at horder
      constructor
      · exact hcancelled
      · dsimp only
        omega
      · dsimp only
        omega
      · simpa using horder

/-- A thread that is going to lock the queue can do so, and keeps the invariant. -/
theorem WorkInv.lock (inv : WorkInv history) {old : PooledThread α}
    (hold : history.queue.threadPool[thread]? = some old) (hready : goingToLock old = true) :
    ∃ locked, history.queue.pooledThreadFunc thread = some locked ∧
      WorkInv { history with queue := locked.2, taken := history.taken ++ locked.1.toList } := by
  have hcounter := inv.idle
  cases old with
  | starting | returned =>
      unfold UnboundedWorkQueue.pooledThreadFunc
      rw [hold]
      refine ⟨_, rfl, WorkInv.workLoop inv.cancelled hold rfl ?_ inv.enough inv.order⟩
      exact congrArg (· + 1) hcounter
  | awake =>
      unfold UnboundedWorkQueue.pooledThreadFunc
      rw [hold]
      refine ⟨_, rfl, WorkInv.workLoop inv.cancelled hold rfl ?_ inv.enough inv.order⟩
      exact congrArg (· + 1) hcounter
  | waiting | running | exited => cases hready

/-- A change of one thread that moves it from one idle state to another, or from no
idle state to no other, and does not keep it from the lock. -/
theorem WorkInv.setThread (inv : WorkInv history) {old new : PooledThread α}
    (hold : history.queue.threadPool[thread]? = some old)
    (hidle : (PooledThread.isWaiting old || isAwake old) =
      (PooledThread.isWaiting new || isAwake new))
    (hready : goingToLock old = true → goingToLock new = true) :
    WorkInv { history with queue := history.queue.setThread thread new } := by
  have hwaits := countP_set_add hold PooledThread.isWaiting new
  have hawake := countP_set_add hold isAwake new
  have hlocks := countP_set_add hold goingToLock new
  have hcounter := inv.idle
  have henough := inv.enough
  constructor
  · exact inv.cancelled
  · dsimp only [UnboundedWorkQueue.setThread]
    have hboth : ∀ state : PooledThread α, state.isWaiting.toNat + (isAwake state).toNat =
        (state.isWaiting || isAwake state).toNat := by
      intro state
      cases state <;> rfl
    have hbefore := hboth old
    have hafter := hboth new
    rw [hidle] at hbefore
    omega
  · dsimp only [UnboundedWorkQueue.setThread]
    have hstays : (goingToLock old).toNat ≤ (goingToLock new).toNat :=
      Bool.toNat_le_toNat hready
    omega
  · exact inv.order

end Steps

/-! ## Whole runs -/

theorem goingToLock_of_pooledThreadFunc {queue : UnboundedWorkQueue α} {thread : ℕ}
    {locked : Option α × UnboundedWorkQueue α}
    (hlock : queue.pooledThreadFunc thread = some locked) :
    ∃ old, queue.threadPool[thread]? = some old ∧ goingToLock old = true := by
  unfold UnboundedWorkQueue.pooledThreadFunc at hlock
  split at hlock
  next hold => exact ⟨_, hold, rfl⟩
  next hold => exact ⟨_, hold, rfl⟩
  next hold => exact ⟨_, hold, rfl⟩
  next => cases hlock

/-- The thread that locks a queue which is not empty takes one function. -/
theorem length_of_pooledThreadFunc {queue : UnboundedWorkQueue α} {thread n : ℕ}
    {locked : Option α × UnboundedWorkQueue α} (hcancelled : queue.cancelled = false)
    (hlock : queue.pooledThreadFunc thread = some locked)
    (hlength : queue.workQueue.length = n + 1) : locked.2.workQueue.length = n := by
  have hloop : ∀ other : UnboundedWorkQueue α, other.cancelled = false →
      other.workQueue.length = n + 1 → (other.workLoop thread).2.workQueue.length = n := by
    intro other hother hmany
    unfold UnboundedWorkQueue.workLoop
    split
    next hcancel => exact absurd (hcancel.symm.trans hother) (by decide)
    next _ hwork => simp [hwork] at hmany
    next fn rest _ hwork => simpa [hwork] using hmany
  unfold UnboundedWorkQueue.pooledThreadFunc at hlock
  split at hlock
  next =>
      obtain rfl := Option.some.inj hlock
      exact hloop _ hcancelled hlength
  next =>
      obtain rfl := Option.some.inj hlock
      exact hloop _ hcancelled hlength
  next =>
      obtain rfl := Option.some.inj hlock
      exact hloop _ hcancelled hlength
  next => cases hlock

theorem WorkInv.step {history next : WorkHistory α} {label : WorkStep α} (inv : WorkInv history)
    (hstep : (workQueue α).step history label = some next) : WorkInv next := by
  cases label with
  | schedule fn woken =>
      rcases Option.map_eq_some_iff.mp hstep with ⟨queue, hschedule, rfl⟩
      exact inv.schedule hschedule
  | lock thread =>
      rcases Option.map_eq_some_iff.mp hstep with ⟨locked, hlock, rfl⟩
      rcases goingToLock_of_pooledThreadFunc hlock with ⟨old, hold, hready⟩
      rcases inv.lock hold hready with ⟨locked', hlock', hkept⟩
      obtain rfl := Option.some.inj (hlock.symm.trans hlock')
      exact hkept
  | wakeUp thread =>
      rcases Option.map_eq_some_iff.mp hstep with ⟨queue, hwake, rfl⟩
      unfold UnboundedWorkQueue.wakeUp at hwake
      split at hwake
      next hold =>
          obtain rfl := Option.some.inj hwake
          exact inv.setThread hold rfl nofun
      next => cases hwake
  | finish thread =>
      rcases Option.map_eq_some_iff.mp hstep with ⟨queue, hfinish, rfl⟩
      unfold UnboundedWorkQueue.finish at hfinish
      split at hfinish
      next hold =>
          obtain rfl := Option.some.inj hfinish
          exact inv.setThread hold rfl nofun
      next => cases hfinish

theorem workInv_of_reaches {history : WorkHistory α}
    (hreached : (workQueue α).Reaches Machine.Unguarded history) : WorkInv history := by
  apply hreached.invariant (P := WorkInv)
  · exact ⟨rfl, rfl, Nat.le_refl _, rfl⟩
  · intro _ _ _ _ inv _ hstep
    exact inv.step hstep

/-- A thread locks the queue: no function is scheduled, none returns and nobody is
woken up. -/
def IsLock (_ : WorkHistory α) : WorkStep α → Prop
  | .lock _ => True
  | _ => False

/-- Threads that are going to lock the queue take everything that is queued: by
induction on its length, since each of them takes the first function. -/
theorem leads_to_empty (n : ℕ) : ∀ history : WorkHistory α, WorkInv history →
    history.queue.workQueue.length = n →
      ∃ target, (workQueue α).Leads IsLock history target ∧
        target.queue.workQueue = [] ∧ target.taken = history.scheduled := by
  induction n with
  | zero =>
      intro history inv hlength
      have hempty := List.length_eq_zero_iff.mp hlength
      refine ⟨history, .refl history, hempty, ?_⟩
      rw [← inv.order, hempty, List.append_nil]
  | succ n ih =>
      intro history inv hlength
      have hpos : 0 < history.queue.threadPool.countP goingToLock := by
        have henough := inv.enough
        omega
      rcases List.countP_pos_iff.mp hpos with ⟨old, hmem, hready⟩
      rcases List.getElem?_of_mem hmem with ⟨thread, hold⟩
      rcases inv.lock hold hready with ⟨locked, hlock, hkept⟩
      have hshorter : locked.2.workQueue.length = n :=
        length_of_pooledThreadFunc inv.cancelled hlock hlength
      rcases ih _ hkept hshorter with ⟨target, hleads, hdone⟩
      have hstep : (workQueue α).step history (.lock thread) = some _ :=
        Option.map_eq_some_iff.mpr ⟨locked, hlock, rfl⟩
      have hallowed : IsLock history (.lock thread) := trivial
      exact ⟨target, .step hallowed hstep hleads, hdone⟩

/-- **Queued work never waits behind running work.** In every reached state the queue
is at most as long as the threads are many that run no function and wait for no
notification; these take the whole queue with no function returning; and the
functions that were taken are the first ones scheduled, each once and in order. -/
theorem work_never_waits {history : WorkHistory α}
    (hreached : (workQueue α).Reaches Machine.Unguarded history) :
    history.queue.workQueue.length ≤ history.queue.threadPool.countP goingToLock ∧
      (∃ target, (workQueue α).Leads IsLock history target ∧
        target.queue.workQueue = [] ∧ target.taken = history.scheduled) ∧
      history.taken ++ history.queue.workQueue = history.scheduled := by
  have inv := workInv_of_reaches hreached
  exact ⟨inv.enough, leads_to_empty _ history inv rfl, inv.order⟩

/-- A notified thread still counts as idle when the next function comes, so that one
starts another thread: two functions are queued for an awake and a starting thread. -/
theorem work_never_waits_after_notification : ∃ history : WorkHistory ℕ,
    (history.queue.workQueue = [2, 3] ∧ history.queue.numIdleThreads = 1 ∧
      history.queue.threadPool = [.awake, .starting]) ∧
    history.queue.workQueue.length ≤ history.queue.threadPool.countP goingToLock ∧
      (∃ target, (workQueue ℕ).Leads IsLock history target ∧
        target.queue.workQueue = [] ∧ target.taken = history.scheduled) ∧
      history.taken ++ history.queue.workQueue = history.scheduled := by
  rcases Machine.exists_reaches_unguarded (M := workQueue ℕ)
    [.schedule 1 0, .lock 0, .finish 0, .lock 0, .schedule 2 0, .schedule 3 0]
    (Q := fun history => decide (history.queue.workQueue = [2, 3] ∧
      history.queue.numIdleThreads = 1 ∧ history.queue.threadPool = [.awake, .starting]))
    (by decide +kernel) with ⟨history, hreached, hstate⟩
  exact ⟨history, of_decide_eq_true hstate, work_never_waits hreached⟩

end ContainerScheduler.Analysis
