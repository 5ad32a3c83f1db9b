/-
# What the proportion factor measures

`calculate_factor_prop` takes the requests of one class out of its two queues, adds up what
they ask for and puts them back. The class is the larger of the first nonempty indices of the
two arrays, while requests are served from the smallest index.

Two kinds of requests spoil the measurement. An `Update` or a `Pause` is compared with the
containers by an identifier that their records do not have, and a `Resume` counts as minus two
threads.
-/

import ContainerScheduler.Host.Policy

namespace ContainerScheduler.Analysis

open Host Math

/-! ## First nonempty queues -/

section FirstIndex

variable {count : ℕ} {array : QueueArray Request count}

theorem queueAt_eq_nil_of_stored (hnil : array.stored = []) (position : ℕ) :
    array.queueAt position = [] :=
  List.sublist_nil.mp (hnil ▸ array.queueAt_sublist_stored position)

/-- The first index is the least position of a nonempty queue, and there is none for an empty
array. -/
theorem firstIndex_cases (array : QueueArray Request count) :
    (SchedulingPolicy.firstIndex array = -1 ∧ ∀ position, array.queueAt position = []) ∨
      ∃ index : Fin count, SchedulingPolicy.firstIndex array = (index.val : ℤ) ∧
        IsLeast {position | array.queueAt position ≠ []} index.val := by
  cases hfirst : array.firstNonempty with
  | none =>
      left
      constructor
      · rw [SchedulingPolicy.firstIndex, hfirst]
      · exact queueAt_eq_nil_of_stored (QueueArray.firstNonempty_eq_none.mp hfirst)
  | some index =>
      right
      rcases List.find?_eq_some_iff_getElem.mp hfirst with
        ⟨hsome, position, hposition, hindex, hbefore⟩
      rw [decide_eq_true_iff, List.isEmpty_eq_false_iff, QueueArray.queue_eq_queueAt] at hsome
      refine ⟨index, by rw [SchedulingPolicy.firstIndex, hfirst], hsome, ?_⟩
      intro smaller hsmaller
      by_contra hlt
      rw [← hindex, List.getElem_finRange, Fin.val_cast] at hlt
      have hempty := hbefore smaller (not_le.mp hlt)
      rw [List.getElem_finRange, Bool.not_eq_true', decide_eq_false_iff_not, Bool.not_eq_false,
        List.isEmpty_iff, QueueArray.queue_eq_queueAt] at hempty
      exact hsmaller hempty

/-- Two first indices, of which the larger is taken. -/
theorem max_firstIndex_cases (first second : QueueArray Request count) :
    let larger := max (SchedulingPolicy.firstIndex first) (SchedulingPolicy.firstIndex second)
    (larger = -1 ∧ ∀ position, first.queueAt position = [] ∧ second.queueAt position = []) ∨
      ∃ index : Fin count, larger = (index.val : ℤ) := by
  intro larger
  rcases firstIndex_cases first with ⟨hfirst, hnil⟩ | ⟨index, hfirst, -⟩
  · rcases firstIndex_cases second with ⟨hsecond, hnone⟩ | ⟨other, hsecond, -⟩
    · left
      exact ⟨by omega, fun position => ⟨hnil position, hnone position⟩⟩
    · right
      exact ⟨other, by omega⟩
  · right
    rcases firstIndex_cases second with ⟨hsecond, -⟩ | ⟨other, hsecond, -⟩
    · exact ⟨index, by omega⟩
    · rcases le_total index other with hle | hle
      · exact ⟨other, by omega⟩
      · exact ⟨index, by omega⟩

end FirstIndex

/-! ## The measured class -/

/-- The requests of one class, in the order in which they are measured. -/
def classRequests (policy : SchedulingPolicy) (position : ℕ) : List Request :=
  policy.queuePendingArray.queueAt position ++ policy.queueArray.queueAt position

/-- The larger of the first nonempty indices. -/
def largerClass (policy : SchedulingPolicy) : ℕ :=
  (max policy.queueEmpty policy.pendingQueueEmpty).toNat

/-- What a list of requests asks for, where measuring it does not raise. -/
def demand (infos : List ExecutionInfo) (requests : List Request) : Option ℤ :=
  SchedulingPolicy.measureQueue infos requests 0

section Measured

variable {policy : SchedulingPolicy} {infos : List ExecutionInfo}

theorem pyIndex_val {count : ℕ} (index : Fin count) :
    pyIndex count (index.val : ℤ) = some index := by
  have hpositive : ¬ (index.val : ℤ) < 0 := not_lt.mpr (Int.natCast_nonneg _)
  simp only [pyIndex, hpositive, if_false, Int.natCast_nonneg, Int.toNat_natCast, index.isLt,
    and_self, dite_true]

/-- With one queue the index is zero, and otherwise it is the larger one. -/
theorem measuredPriority_eq (policy : SchedulingPolicy) :
    (policy.policyClass.numberQueues = 1 ∧ policy.measuredPriority = 0) ∨
      policy.measuredPriority = max policy.queueEmpty policy.pendingQueueEmpty := by
  unfold SchedulingPolicy.measuredPriority
  cases policy.policyClass with
  | fcfs => exact .inl ⟨rfl, rfl⟩
  | priority priorities =>
      right
      dsimp only
      split
      · omega
      · split <;> omega

theorem measuredPriority_cases (policy : SchedulingPolicy) :
    (policy.measuredPriority = -1 ∧ classRequests policy (largerClass policy) = []) ∨
      policy.measuredPriority ≠ -1 ∧ ∃ index,
        pyIndex policy.policyClass.numberQueues policy.measuredPriority = some index ∧
          index.val = largerClass policy := by
  have hmax := max_firstIndex_cases policy.queueArray policy.queuePendingArray
  change (max policy.queueEmpty policy.pendingQueueEmpty = -1 ∧ _) ∨
    ∃ index : Fin policy.policyClass.numberQueues,
      max policy.queueEmpty policy.pendingQueueEmpty = (index.val : ℤ) at hmax
  rcases measuredPriority_eq policy with ⟨hone, hmeasured⟩ | hmeasured
  · right
    refine ⟨by omega, ⟨0, by omega⟩, ?_, ?_⟩
    · rw [hmeasured]
      exact pyIndex_val ⟨0, _⟩
    · rw [largerClass]
      rcases hmax with ⟨hlarger, -⟩ | ⟨index, hlarger⟩
      · rw [hlarger]
        rfl
      · have hlt := index.isLt
        dsimp only
        omega
  · rw [hmeasured]
    rcases hmax with ⟨hlarger, hnil⟩ | ⟨index, hlarger⟩
    · left
      refine ⟨hlarger, ?_⟩
      rw [classRequests, (hnil _).1, (hnil _).2]
      rfl
    · right
      refine ⟨by omega, index, ?_, ?_⟩
      · rw [hlarger]
        exact pyIndex_val index
      · rw [largerClass, hlarger, Int.toNat_natCast]

theorem measureQueue_append (first second : List Request) (totalResources : ℤ) :
    SchedulingPolicy.measureQueue infos (first ++ second) totalResources =
      (SchedulingPolicy.measureQueue infos first totalResources).bind
        (SchedulingPolicy.measureQueue infos second) := by
  induction first generalizing totalResources with
  | nil => rfl
  | cons request first ih =>
      rw [List.cons_append, SchedulingPolicy.measureQueue, SchedulingPolicy.measureQueue,
        Option.bind_assoc]
      congr 1
      funext demanded
      exact ih _

/-- The total is the demand of the class of the larger index, and no request is moved. -/
theorem measureQueues_eq (policy : SchedulingPolicy) :
    policy.measureQueues infos =
      (demand infos (classRequests policy (largerClass policy))).map (·, policy) := by
  unfold SchedulingPolicy.measureQueues
  rcases measuredPriority_cases policy with ⟨hnone, hnil⟩ | ⟨hsome, index, hindex, hval⟩
  · rw [if_pos hnone, hnil]
    rfl
  · rw [if_neg hsome, hindex, Option.bind_some, demand, classRequests, measureQueue_append,
      Option.map_bind, ← hval, QueueArray.queue_eq_queueAt, QueueArray.queue_eq_queueAt]
    congr 1
    funext pendingTotal
    rw [SchedulingPolicy.refill_eq_self, SchedulingPolicy.refill_eq_self]
    rfl

theorem classRequests_ne_nil {position : ℕ} : classRequests policy position ≠ [] ↔
    policy.queuePendingArray.queueAt position ≠ [] ∨ policy.queueArray.queueAt position ≠ [] := by
  rw [classRequests, Ne, List.append_eq_nil_iff, not_and_or]

/-- The larger index is the class that is served next when there is one array to serve, or
when both give the same index. -/
theorem largerClass_eq {position : ℕ}
    (hleast : IsLeast {position | classRequests policy position ≠ []} position)
    (hagree : policy.newRequests = [] ∨ policy.pendingRequests = [] ∨
      policy.queueEmpty = policy.pendingQueueEmpty) :
    largerClass policy = position := by
  have hnext : ∀ index : ℕ, classRequests policy index ≠ [] →
      (∀ smaller, classRequests policy smaller ≠ [] → index ≤ smaller) → index = position :=
    fun index hmem hlower => IsLeast.unique ⟨hmem, fun _ => hlower _⟩ hleast
  simp only [classRequests_ne_nil] at hnext
  have hlarger : largerClass policy = (max (SchedulingPolicy.firstIndex policy.queueArray)
      (SchedulingPolicy.firstIndex policy.queuePendingArray)).toNat := rfl
  rcases firstIndex_cases policy.queueArray with ⟨hnew, hnil⟩ | ⟨index, hnew, hfirst, hlower⟩
  · rcases firstIndex_cases policy.queuePendingArray with
      ⟨-, hnone⟩ | ⟨other, hpending, hfirst, hlower⟩
    · rcases classRequests_ne_nil.mp hleast.1 with hmem | hmem
      · exact absurd (hnone position) hmem
      · exact absurd (hnil position) hmem
    · rw [hlarger, hnew, hpending, max_eq_right (by omega), Int.toNat_natCast]
      apply hnext other (.inl hfirst)
      rintro smaller (hmem | hmem)
      · exact hlower hmem
      · exact absurd (hnil smaller) hmem
  · rcases firstIndex_cases policy.queuePendingArray with
      ⟨hpending, hnone⟩ | ⟨other, hpending, hother, hsmaller⟩
    · rw [hlarger, hnew, hpending, max_eq_left (by omega), Int.toNat_natCast]
      apply hnext index (.inr hfirst)
      rintro smaller (hmem | hmem)
      · exact absurd (hnone smaller) hmem
      · exact hlower hmem
    · rcases hagree with hempty | hempty | hsame
      · exact absurd (queueAt_eq_nil_of_stored hempty _) hfirst
      · exact absurd (queueAt_eq_nil_of_stored hempty _) hother
      · change SchedulingPolicy.firstIndex policy.queueArray =
          SchedulingPolicy.firstIndex policy.queuePendingArray at hsame
        have heq : index.val = other.val := by omega
        rw [hlarger, ← hsame, max_self, hnew, Int.toNat_natCast]
        apply hnext index (.inr hfirst)
        rintro smaller (hmem | hmem)
        · exact heq ▸ hsmaller hmem
        · exact hlower hmem

/-- **The measured total is the demand of the class served next** if and only if one of the
two arrays is empty, or both have the same first class, or the larger and the smaller class
ask for the same. -/
theorem factor_of_next_class_iff {position : ℕ}
    (hleast : IsLeast {position | classRequests policy position ≠ []} position) :
    (policy.measureQueues infos).map Prod.fst = demand infos (classRequests policy position) ↔
      (policy.newRequests = [] ∨ policy.pendingRequests = [] ∨
        policy.queueEmpty = policy.pendingQueueEmpty) ∨
      demand infos (classRequests policy (largerClass policy)) =
        demand infos (classRequests policy position) := by
  have htotal : (policy.measureQueues infos).map Prod.fst =
      demand infos (classRequests policy (largerClass policy)) := by
    rw [measureQueues_eq, Option.map_map]
    exact Option.map_id'
  rw [htotal]
  constructor
  · exact .inr
  · rintro (hagree | hsame)
    · rw [largerClass_eq hleast hagree]
    · exact hsame

/-- New requests of priority zero and pending ones of priority one. -/
def twoClasses (new pending : List Request) : SchedulingPolicy :=
  ⟨.priority 2, .maxProp, 1, ⟨[new, []], rfl⟩, ⟨[[], pending], rfl⟩⟩

theorem isLeast_twoClasses {new pending : List Request} (hnew : new ≠ []) :
    IsLeast {position | classRequests (twoClasses new pending) position ≠ []} 0 :=
  ⟨hnew, fun _ _ => Nat.zero_le _⟩

/-- With one request in all, it is the one that is measured. -/
theorem factor_of_next_class_of_one :
    ((twoClasses [.start "1" "tf" 2 2 0] []).measureQueues []).map Prod.fst =
      demand [] (classRequests (twoClasses [.start "1" "tf" 2 2 0] []) 0) :=
  (factor_of_next_class_iff (isLeast_twoClasses (List.cons_ne_nil _ _))).mpr
    (.inl (.inr (.inl rfl)))

/-- **The pending request of priority one is measured**, and the new one of priority zero is
served next. -/
theorem factor_of_later_class :
    let policy := twoClasses [.start "1" "tf" 2 2 0] [.start "2" "tf" 4 4 1]
    IsLeast {position | classRequests policy position ≠ []} 0 ∧
      demand [] (classRequests policy 0) = some 4 ∧
      (policy.measureQueues []).map Prod.fst = some 8 :=
  ⟨isLeast_twoClasses (List.cons_ne_nil _ _), rfl, rfl⟩

end Measured

/-! ## The factor -/

section Factor

variable {policy : SchedulingPolicy} {infos : List ExecutionInfo}

/-- A request for the start of a container, which is measured by its own amounts. -/
def isPlacement : Request → Bool
  | .start .. | .resume .. | .restart .. => true
  | .update .. | .pause .. => false

/-- What the requests for starts ask for. -/
def placedThreads (requests : List Request) : ℤ :=
  ((requests.filter isPlacement).map Request.totalParallelism).sum

/-- A measurement does not raise if and only if there is no container to compare with, or no
request that is compared. -/
theorem measureQueue_eq_some_iff {requests : List Request} {totalResources total : ℤ} :
    SchedulingPolicy.measureQueue infos requests totalResources = some total ↔
      (infos = [] ∨ ∀ request ∈ requests, isPlacement request) ∧
        total = totalResources + placedThreads requests := by
  induction requests generalizing totalResources with
  | nil =>
      rw [SchedulingPolicy.measureQueue, Option.some_inj, placedThreads, List.filter_nil,
        List.map_nil, List.sum_nil, add_zero, eq_comm]
      simp only [List.not_mem_nil, false_imp_iff, implies_true, or_true, true_and]
  | cons request requests ih =>
      have hrest : placedThreads (request :: requests) =
          (if isPlacement request then request.totalParallelism else 0) +
            placedThreads requests := by
        unfold placedThreads
        cases hplacement : isPlacement request with
        | true => rw [List.filter_cons_of_pos hplacement, List.map_cons, List.sum_cons, if_pos rfl]
        | false =>
            rw [List.filter_cons_of_neg (by rw [hplacement]; exact Bool.false_ne_true),
              if_neg Bool.false_ne_true, zero_add]
      rw [SchedulingPolicy.measureQueue, hrest, List.forall_mem_cons, ← add_assoc]
      cases hplacement : isPlacement request with
      | true =>
          have hdemand : SchedulingPolicy.requestDemand infos request =
              some request.totalParallelism := by
            cases request <;> first | rfl | cases hplacement
          rw [hdemand, Option.bind_some, ih, if_pos rfl]
          simp only [true_and]
      | false =>
          have hdemand : SchedulingPolicy.requestDemand infos request =
              if infos = [] then some 0 else none := by
            cases request <;> first | rfl | cases hplacement
          rw [hdemand, if_neg Bool.false_ne_true]
          by_cases hnone : infos = []
          · rw [if_pos hnone, Option.bind_some, ih]
            simp only [hnone, true_or]
          · rw [if_neg hnone, Option.bind_none]
            simp only [hnone, Bool.false_eq_true, false_and, or_self]
            exact iff_of_false (Option.some_ne_none _).symm id

/-- **The measurement does not raise, moves no request and leaves a positive factor** if and
only if the measured class holds no `Update` and no `Pause` while containers run, and its
other requests do not ask for less than nothing. -/
theorem factor_positive_iff {resourcesAvailables : ℤ} (hpositive : 0 < resourcesAvailables) :
    (∃ factor, 0 < factor ∧ policy.calculateFactorProp resourcesAvailables infos =
        some { policy with factorProp := factor }) ↔
      (infos = [] ∨ ∀ request ∈ classRequests policy (largerClass policy),
        isPlacement request) ∧
      0 ≤ placedThreads (classRequests policy (largerClass policy)) := by
  have hpositiveRat : (0 : ℚ) < resourcesAvailables := Int.cast_pos.mpr hpositive
  unfold SchedulingPolicy.calculateFactorProp
  rw [measureQueues_eq, Option.map_map]
  constructor
  · intro hmeasured
    rcases hmeasured with ⟨factor, hfactor, hsome⟩
    rcases Option.map_eq_some_iff.mp hsome with ⟨total, htotal, hpolicy⟩
    rcases measureQueue_eq_some_iff.mp htotal with ⟨hcompared, htotal⟩
    rw [zero_add] at htotal
    have hvalue : (if (total / resourcesAvailables : ℚ) = 0 then 1
        else (total / resourcesAvailables : ℚ)) = factor :=
      congrArg SchedulingPolicy.factorProp hpolicy
    refine ⟨hcompared, ?_⟩
    rw [← htotal]
    by_contra hnegative
    have hquotient : (total / resourcesAvailables : ℚ) < 0 :=
      div_neg_of_neg_of_pos (Int.cast_lt_zero.mpr (not_le.mp hnegative)) hpositiveRat
    rw [if_neg hquotient.ne] at hvalue
    exact absurd hfactor (not_lt.mpr (hvalue ▸ hquotient.le))
  · intro hcondition
    rcases hcondition with ⟨hcompared, hnonneg⟩
    have htotal := measureQueue_eq_some_iff.mpr ⟨hcompared, (zero_add _).symm⟩
    rw [demand, htotal]
    refine ⟨_, ?_, rfl⟩
    have hquotient : (0 : ℚ) ≤
        placedThreads (classRequests policy (largerClass policy)) / resourcesAvailables :=
      div_nonneg (Int.cast_nonneg hnonneg) hpositiveRat.le
    dsimp only
    split
    · exact one_pos
    · exact lt_of_le_of_ne hquotient (Ne.symm ‹_›)

/-- A policy with one queue, of new requests. -/
def oneQueue (new : List Request) : SchedulingPolicy :=
  ⟨.fcfs, .maxProp, 1, ⟨[new], rfl⟩, .empty 1⟩

/-- A request for the start of a container. -/
theorem factor_positive_of_start :
    ∃ factor, 0 < factor ∧ (oneQueue [.start "1" "tf" 2 2 0]).calculateFactorProp 4 [] =
      some { oneQueue [.start "1" "tf" 2 2 0] with factorProp := factor } :=
  (factor_positive_iff four_pos).mpr ⟨.inl rfl, by decide⟩

/-- **A container that waits to be resumed makes the factor negative**, and a request for an
update raises when a container runs. -/
theorem factor_not_positive :
    (¬ ∃ factor, 0 < factor ∧ (oneQueue [.resume "1"]).calculateFactorProp 4 [] =
      some { oneQueue [.resume "1"] with factorProp := factor }) ∧
    (oneQueue [.update "1" 2 2 0]).calculateFactorProp 4
      [⟨"instance1", "1", 8787, 1, 1, 1, 1, ⟨"instance1", false⟩, "tf", 0, .start⟩] = none := by
  constructor
  · intro hfactor
    rcases hfactor with ⟨factor, hpositive, hmeasured⟩
    have hvalue : (if ((-2 : ℤ) / (4 : ℤ) : ℚ) = 0 then 1 else ((-2 : ℤ) / (4 : ℤ) : ℚ)) =
        factor :=
      Option.some.inj (congrArg (Option.map SchedulingPolicy.factorProp) hmeasured)
    rw [← hvalue] at hpositive
    norm_num at hpositive
  · rfl

end Factor

end ContainerScheduler.Analysis
