/-
# Iterations never share a slot

The live iterations are an interval that ends at the last one and is no longer than the
limit on parallel iterations, so that the ring has one slot more than it ever needs.
Iterations are created at the end of the interval only while it is shorter than the
limit, at once or when a deletion makes room for deferred ones, and deleted at its
beginning only, since an iteration waits for the one before it. Iteration 0 waits for
all inputs of the frame, so that a constant that enters finds every iteration live.
-/

import ContainerScheduler.Executor.Iterations
import Mathlib.Order.Nat

namespace ContainerScheduler.Analysis

open Math
open Executor

variable {ι : Type} {max : ℕ} (ready : ℕ → ι → ℕ) {frame : FrameState ι}

/-- What holds of a frame between its events. -/
structure Ring (max : ℕ) (frame : FrameState ι) : Prop where
  live_eq : frame.live = List.range'
    (frame.iterationCount + 1 - frame.numOutstandingIterations) frame.numOutstandingIterations
  num_le : frame.numOutstandingIterations ≤ max
  num_le_count : frame.numOutstandingIterations ≤ frame.iterationCount + 1
  slot : ∀ i ∈ frame.live, frame.iterations (i % (max + 1)) = some i
  empty : ∀ index, (∀ i ∈ frame.live, i % (max + 1) ≠ index) → frame.iterations index = none
  first : frame.iterationsFirst = frame.iterations 0
  pending : frame.numPendingInputs = frame.enters.length
  entering : frame.enters ≠ [] → 0 ∈ frame.live
  ops_count : ∀ i ∈ frame.live, frame.outstandingOps i = frame.ops.count i
  children_count : ∀ i ∈ frame.live, frame.outstandingFrameCount i = frame.children.count i
  ops_live : ∀ i ∈ frame.ops, i ∈ frame.live
  children_live : ∀ i ∈ frame.children, i ∈ frame.live

/-- An iteration is deferred only while as many as may run at once are live. -/
def Deferred (max : ℕ) (frame : FrameState ι) : Prop :=
  frame.nextIterRoots ≠ [] → frame.numOutstandingIterations = max

namespace Ring

theorem mem_live (hring : Ring max frame) {i : ℕ} :
    i ∈ frame.live ↔
      frame.iterationCount + 1 ≤ i + frame.numOutstandingIterations ∧ i ≤ frame.iterationCount := by
  have hle := hring.num_le_count
  rw [hring.live_eq, List.mem_range'_1]
  omega

/-- `GetIteration` finds the state that has been created for a live iteration. -/
theorem getIteration_live (hring : Ring max frame) {i : ℕ} (hi : i ∈ frame.live) :
    frame.getIteration max i = some i := by
  rw [FrameState.getIteration]
  split_ifs with hzero
  · subst hzero
    rw [hring.first, ← Nat.zero_mod (max + 1)]
    exact hring.slot 0 hi
  · exact hring.slot i hi

theorem access_live (hring : Ring max frame) {i : ℕ} (hi : i ∈ frame.live) :
    frame.access max i = .ok i := by
  rw [FrameState.access, hring.getIteration_live hi]
  exact if_pos hi

end Ring

/-! ## Activation -/

/-- What an activation leaves as it is. -/
structure ActivatedIn (frame frame' : FrameState ι) : Prop where
  live : frame'.live = frame.live
  iterationCount : frame'.iterationCount = frame.iterationCount
  numOutstandingIterations : frame'.numOutstandingIterations = frame.numOutstandingIterations
  nextIterRoots : frame'.nextIterRoots = frame.nextIterRoots
  invValues : frame'.invValues = frame.invValues
  numPendingInputs : frame'.numPendingInputs = frame.numPendingInputs
  enters : frame'.enters = frame.enters

theorem ActivatedIn.refl (frame : FrameState ι) : ActivatedIn frame frame :=
  ⟨rfl, rfl, rfl, rfl, rfl, rfl, rfl⟩

theorem ActivatedIn.trans {first second third : FrameState ι} (hfirst : ActivatedIn first second)
    (hsecond : ActivatedIn second third) : ActivatedIn first third :=
  ⟨hsecond.live.trans hfirst.live, hsecond.iterationCount.trans hfirst.iterationCount,
    hsecond.numOutstandingIterations.trans hfirst.numOutstandingIterations,
    hsecond.nextIterRoots.trans hfirst.nextIterRoots, hsecond.invValues.trans hfirst.invValues,
    hsecond.numPendingInputs.trans hfirst.numPendingInputs, hsecond.enters.trans hfirst.enters⟩

/-- An activation in a live iteration. -/
theorem activateNodes_spec (hring : Ring max frame) (item : ι) {iter : ℕ}
    (hiter : iter ∈ frame.live) :
    ∃ frame', frame.activateNodes max ready item iter = .ok frame' ∧ Ring max frame' ∧
      ActivatedIn frame frame' := by
  have hresult : frame.activateNodes max ready item iter = .ok { frame with
      outstandingOps := Function.update frame.outstandingOps iter
        (frame.outstandingOps iter + ready iter item)
      ops := List.replicate (ready iter item) iter ++ frame.ops } := by
    rw [FrameState.activateNodes, hring.access_live hiter]
    rfl
  refine ⟨_, hresult, { hring with ops_count := fun i hi => ?_, ops_live := fun i hi => ?_ },
    ⟨rfl, rfl, rfl, rfl, rfl, rfl, rfl⟩⟩
  · simp only [List.count_append, List.count_replicate]
    by_cases heq : i = iter
    · subst heq
      simp only [Function.update_self, beq_self_eq_true, if_true, hring.ops_count i hi]
      exact Nat.add_comm _ _
    · rw [Function.update_of_ne heq, hring.ops_count i hi, if_neg (by simpa using Ne.symm heq),
        Nat.zero_add]
  · obtain hi | hi := List.mem_append.mp hi
    · exact List.eq_of_mem_replicate hi ▸ hiter
    · exact hring.ops_live i hi

theorem activateAll_spec (pairs : List (ι × ℕ)) (hring : Ring max frame)
    (hpairs : ∀ pair ∈ pairs, pair.2 ∈ frame.live) :
    ∃ frame', FrameState.activateAll max ready pairs frame = .ok frame' ∧ Ring max frame' ∧
      ActivatedIn frame frame' := by
  induction pairs generalizing frame with
  | nil => exact ⟨frame, rfl, hring, .refl frame⟩
  | cons pair pairs ih =>
      obtain ⟨hhead, htail⟩ := List.forall_mem_cons.mp hpairs
      obtain ⟨middle, hfirst, hmiddle, hkept⟩ :=
        activateNodes_spec ready hring pair.1 hhead
      obtain ⟨frame', hrest, hring', hkept'⟩ := ih hmiddle fun other hother =>
        hkept.live ▸ htail other hother
      refine ⟨frame', ?_, hring', hkept.trans hkept'⟩
      rw [FrameState.activateAll, hfirst]
      exact hrest

theorem activateItems_spec (hring : Ring max frame) (items : List ι) {iter : ℕ}
    (hiter : iter ∈ frame.live) :
    ∃ frame', FrameState.activateAll max ready (items.map fun item => (item, iter)) frame =
        .ok frame' ∧ Ring max frame' ∧ ActivatedIn frame frame' := by
  refine activateAll_spec ready _ hring fun pair hpair => ?_
  obtain ⟨item, -, rfl⟩ := List.mem_map.mp hpair
  exact hiter

/-! ## Creating and deleting iterations -/

/-- Iterations that are less than a ring apart have different slots. -/
theorem slot_ne {i j : ℕ} (hlt : i < j) (hclose : j ≤ i + max) :
    i % (max + 1) ≠ j % (max + 1) := by
  intro heq
  have hzero : (j - i) % (max + 1) = 0 := Nat.sub_mod_eq_zero_of_mod_eq heq.symm
  rw [Nat.mod_eq_of_lt (by omega)] at hzero
  omega

/-- The frame with a new iteration, before anything is activated in it. -/
def grown (max : ℕ) (frame : FrameState ι) : FrameState ι :=
  let next := frame.iterationCount + 1
  { frame with
    iterationCount := next
    numOutstandingIterations := frame.numOutstandingIterations + 1
    iterations := Function.update frame.iterations (next % (max + 1)) (some next)
    iterationsFirst := if next % (max + 1) = 0 then some next else frame.iterationsFirst
    outstandingOps := Function.update frame.outstandingOps next 0
    outstandingFrameCount := Function.update frame.outstandingFrameCount next 0
    deadExits := []
    live := frame.live ++ [next] }

section

variable (hring : Ring max frame) (hroom : frame.numOutstandingIterations < max)

include hring hroom

theorem next_slot_empty : frame.iterations ((frame.iterationCount + 1) % (max + 1)) = none := by
  refine hring.empty _ fun i hi => ?_
  obtain ⟨hlow, hhigh⟩ := hring.mem_live.mp hi
  exact slot_ne (by omega) (by omega)

theorem ring_grown : Ring max (grown max frame) := by
  have hnext : frame.iterationCount + 1 ∉ frame.live := fun hmem => by
    have := (hring.mem_live.mp hmem).2
    omega
  have hne : ∀ i ∈ frame.live, i ≠ frame.iterationCount + 1 := fun i hi heq => hnext (heq ▸ hi)
  have hopsNext : frame.ops.count (frame.iterationCount + 1) = 0 :=
    List.count_eq_zero.mpr fun hmem => hnext (hring.ops_live _ hmem)
  have hchildrenNext : frame.children.count (frame.iterationCount + 1) = 0 :=
    List.count_eq_zero.mpr fun hmem => hnext (hring.children_live _ hmem)
  have hle := hring.num_le_count
  have hcases : ∀ {i}, i ∈ (grown max frame).live →
      i ∈ frame.live ∨ i = frame.iterationCount + 1 := fun hi =>
    (List.mem_append.mp hi).imp id List.mem_singleton.mp
  refine ⟨?_, hroom, Nat.succ_le_succ hle, fun i hi => ?_, fun index hindex => ?_, ?_,
    hring.pending, fun hne => List.mem_append_left _ (hring.entering hne), fun i hi => ?_,
    fun i hi => ?_, fun i hi => List.mem_append_left _ (hring.ops_live i hi),
    fun i hi => List.mem_append_left _ (hring.children_live i hi)⟩
  · simp only [grown]
    rw [hring.live_eq, List.range'_concat]
    have hstart : frame.iterationCount + 1 + 1 - (frame.numOutstandingIterations + 1) =
        frame.iterationCount + 1 - frame.numOutstandingIterations := by omega
    rw [hstart]
    congr 2
    omega
  · simp only [grown]
    obtain hi | rfl := hcases hi
    · obtain ⟨hlow, hhigh⟩ := hring.mem_live.mp hi
      rw [Function.update_of_ne (slot_ne (by omega) (by omega))]
      exact hring.slot i hi
    · exact Function.update_self _ _ _
  · simp only [grown]
    have hother := hindex _ (List.mem_append_right _ List.mem_cons_self)
    rw [Function.update_of_ne (Ne.symm hother)]
    exact hring.empty index fun i hi => hindex i (List.mem_append_left _ hi)
  · simp only [grown]
    split_ifs with hzero
    · rw [hzero, Function.update_self]
    · rw [Function.update_of_ne (Ne.symm hzero), hring.first]
  · simp only [grown]
    obtain hi | rfl := hcases hi
    · rw [Function.update_of_ne (hne i hi), hring.ops_count i hi]
    · rw [Function.update_self, hopsNext]
  · simp only [grown]
    obtain hi | rfl := hcases hi
    · rw [Function.update_of_ne (hne i hi), hring.children_count i hi]
    · rw [Function.update_self, hchildrenNext]

/-- What `IncrementIteration` leaves. -/
theorem incrementIteration_spec :
    ∃ frame', frame.incrementIteration max ready = .ok frame' ∧ Ring max frame' ∧
      frame'.iterationCount = frame.iterationCount + 1 ∧ frame'.nextIterRoots = [] ∧
      frame'.numOutstandingIterations = frame.numOutstandingIterations + 1 ∧
      frame'.enters = frame.enters := by
  have hgrown := ring_grown hring hroom
  have hnext : frame.iterationCount + 1 ∈ (grown max frame).live :=
    List.mem_append_right _ List.mem_cons_self
  obtain ⟨activated, hroots, hactivated, hkept⟩ :=
    activateItems_spec ready hgrown frame.nextIterRoots hnext
  have hcleared : Ring max { activated with nextIterRoots := [] } := { hactivated with }
  have hnext' : frame.iterationCount + 1 ∈ activated.live := hkept.live ▸ hnext
  obtain ⟨frame', hinvs, hring', hkept'⟩ :=
    activateItems_spec ready hcleared activated.invValues hnext'
  have hset : FrameState.setIteration max { frame with
      iterationCount := frame.iterationCount + 1
      outstandingOps := Function.update frame.outstandingOps (frame.iterationCount + 1) 0
      outstandingFrameCount :=
        Function.update frame.outstandingFrameCount (frame.iterationCount + 1) 0 }
      (frame.iterationCount + 1) (some (frame.iterationCount + 1)) = .ok { frame with
        iterationCount := frame.iterationCount + 1
        outstandingOps := (grown max frame).outstandingOps
        outstandingFrameCount := (grown max frame).outstandingFrameCount
        iterations := (grown max frame).iterations
        iterationsFirst := (grown max frame).iterationsFirst } := by
    rw [FrameState.setIteration]
    exact if_neg fun h => h.2 (next_slot_empty hring hroom)
  refine ⟨frame', ?_, hring', hkept'.iterationCount.trans hkept.iterationCount,
    hkept'.nextIterRoots, hkept'.numOutstandingIterations.trans hkept.numOutstandingIterations,
    hkept'.enters.trans hkept.enters⟩
  rw [FrameState.incrementIteration, hset]
  refine Eq.trans ?_ hinvs
  exact congrArg (· >>= fun frame' => FrameState.activateAll max ready
    (frame'.invValues.map fun item => (item, frame.iterationCount + 1))
    { frame' with nextIterRoots := [] }) hroots

end

/-- A slot can always be cleared. -/
theorem setIteration_none (frame : FrameState ι) (iter : ℕ) :
    frame.setIteration max iter none = .ok { frame with
      iterations := Function.update frame.iterations (iter % (max + 1)) none
      iterationsFirst := if iter % (max + 1) = 0 then none else frame.iterationsFirst } := by
  rw [FrameState.setIteration]
  exact if_neg fun h => h.1 rfl

theorem deleteIteration_spec (hring : Ring max frame) {iter : ℕ} (hiter : iter ∈ frame.live)
    (hops : frame.outstandingOps iter = 0) (hframes : frame.outstandingFrameCount iter = 0)
    (hinputs : iter = 0 → frame.numPendingInputs = 0)
    (hprevious : iter ≠ 0 → iter - 1 ∉ frame.live) :
    ∃ frame', frame.deleteIteration max iter = .ok frame' ∧ Ring max frame' ∧
      frame'.iterationCount = frame.iterationCount ∧
      frame'.numOutstandingIterations + 1 = frame.numOutstandingIterations ∧
      frame'.nextIterRoots = frame.nextIterRoots := by
  have hlow : iter + frame.numOutstandingIterations = frame.iterationCount + 1 := by
    obtain ⟨hlow, hhigh⟩ := hring.mem_live.mp hiter
    by_contra hne
    obtain rfl | hpos := Nat.eq_zero_or_pos iter
    · have := hring.num_le_count
      omega
    · refine hprevious (by omega) (hring.mem_live.mpr ⟨?_, ?_⟩) <;> omega
  obtain ⟨rest, hnum⟩ : ∃ rest, frame.numOutstandingIterations = rest + 1 := by
    obtain ⟨-, hhigh⟩ := hring.mem_live.mp hiter
    exact ⟨frame.numOutstandingIterations - 1, by omega⟩
  have hlive : frame.live = iter :: List.range' (iter + 1) rest := by
    rw [hring.live_eq, hnum, List.range'_succ]
    have hstart : frame.iterationCount + 1 - (rest + 1) = iter := by omega
    rw [hstart]
  have herase : frame.live.erase iter = List.range' (iter + 1) rest := by
    rw [hlive, List.erase_cons_head]
  have hkept : ∀ {i}, i ∈ frame.live → i ≠ iter → i ∈ frame.live.erase iter := fun hi hne =>
    (List.mem_erase_of_ne hne).mpr hi
  have hold : ∀ {i}, i ∈ frame.live.erase iter → i ∈ frame.live := List.mem_of_mem_erase
  have hnone : ∀ {i}, i ∈ frame.live.erase iter → i ≠ iter := by
    rintro i hi rfl
    rw [herase, List.mem_range'_1] at hi
    omega
  have hresult : frame.deleteIteration max iter = .ok { frame with
      live := frame.live.erase iter
      numOutstandingIterations := frame.numOutstandingIterations - 1
      iterations := Function.update frame.iterations (iter % (max + 1)) none
      iterationsFirst := if iter % (max + 1) = 0 then none else frame.iterationsFirst } := by
    rw [FrameState.deleteIteration, hring.access_live hiter]
    exact setIteration_none _ iter
  refine ⟨_, hresult, ⟨?_, ?_, ?_, fun i hi => ?_, fun index hindex => ?_, ?_, hring.pending,
    fun hne => ?_, fun i hi => hring.ops_count i (hold hi),
    fun i hi => hring.children_count i (hold hi), fun i hi => ?_, fun i hi => ?_⟩,
    rfl, by simp only [hnum, Nat.add_sub_cancel], rfl⟩
  · simp only [hnum, Nat.add_sub_cancel]
    rw [herase]
    congr 1
    omega
  · exact Nat.le_trans (Nat.sub_le _ _) hring.num_le
  · exact Nat.le_trans (Nat.sub_le _ _) hring.num_le_count
  · have hrange := hi
    rw [herase, List.mem_range'_1] at hrange
    have hslot : i % (max + 1) ≠ iter % (max + 1) :=
      (slot_ne (by omega) (by have := hring.num_le; omega)).symm
    simp only [Function.update_of_ne hslot]
    exact hring.slot i (hold hi)
  · by_cases hslot : index = iter % (max + 1)
    · simp only [hslot, Function.update_self]
    · simp only [Function.update_of_ne hslot]
      refine hring.empty index fun i hi => ?_
      by_cases heq : i = iter
      · exact fun h => hslot (heq ▸ h.symm)
      · exact hindex i (hkept hi heq)
  · simp only
    split_ifs with hzero
    · rw [hzero, Function.update_self]
    · rw [Function.update_of_ne (Ne.symm hzero), hring.first]
  · refine hkept (hring.entering hne) fun heq => hne ?_
    have hinputs' := hinputs heq.symm
    rw [hring.pending] at hinputs'
    exact List.length_eq_zero_iff.mp hinputs'
  · refine hkept (hring.ops_live i hi) ?_
    rintro rfl
    have hcount := hring.ops_count i hiter
    rw [hops] at hcount
    exact List.count_eq_zero.mp hcount.symm hi
  · refine hkept (hring.children_live i hi) ?_
    rintro rfl
    have hcount := hring.children_count i hiter
    rw [hframes] at hcount
    exact List.count_eq_zero.mp hcount.symm hi

/-- What `IsIterationDone` finds of a live iteration. -/
theorem isIterationDone_spec (hring : Ring max frame) {iter : ℕ} (hiter : iter ∈ frame.live) :
    ∃ done, frame.isIterationDone max iter = .ok done ∧ (done = true →
      frame.outstandingOps iter = 0 ∧ frame.outstandingFrameCount iter = 0 ∧
        (iter = 0 → frame.numPendingInputs = 0) ∧ (iter ≠ 0 → iter - 1 ∉ frame.live)) := by
  rw [FrameState.isIterationDone, hring.access_live hiter]
  by_cases hidle : frame.outstandingOps iter = 0 ∧ frame.outstandingFrameCount iter = 0
  · by_cases hzero : iter = 0
    · refine ⟨decide (frame.numPendingInputs = 0), ?_, fun hdone => ?_⟩
      · exact (if_pos hidle).trans (if_pos hzero)
      · exact ⟨hidle.1, hidle.2, fun _ => of_decide_eq_true hdone, fun h => absurd hzero h⟩
    · refine ⟨(frame.getIteration max (iter - 1)).isNone, ?_, fun hdone => ?_⟩
      · exact (if_pos hidle).trans (if_neg hzero)
      · refine ⟨hidle.1, hidle.2, fun h => absurd h hzero, fun _ hmem => ?_⟩
        rw [hring.getIteration_live hmem] at hdone
        exact absurd hdone (by simp)
  · exact ⟨false, if_neg hidle, by simp⟩

/-- The loop of `CleanupIterations` ends, and keeps the ring. -/
theorem cleanupLoop_spec (fuel : ℕ) {iter : ℕ} (hring : Ring max frame)
    (hdeferred : Deferred max frame) (hiter : iter ≤ frame.iterationCount → iter ∈ frame.live)
    (hfuel : frame.iterationCount + 1 - iter + (if frame.nextIterRoots = [] then 0 else 1) < fuel) :
    ∃ frame', FrameState.cleanupLoop max ready fuel iter frame = .ok frame' ∧ Ring max frame' ∧
      Deferred max frame' := by
  induction fuel generalizing iter frame with
  | zero => exact absurd hfuel (Nat.not_lt_zero _)
  | succ fuel ih =>
      rw [FrameState.cleanupLoop]
      by_cases hbeyond : frame.iterationCount < iter
      · exact ⟨frame, if_pos hbeyond, hring, hdeferred⟩
      rw [if_neg hbeyond]
      have hlive := hiter (not_lt.mp hbeyond)
      obtain ⟨done, hdone, hspec⟩ := isIterationDone_spec hring hlive
      rw [hdone]
      cases done with
      | false => exact ⟨frame, rfl, hring, hdeferred⟩
      | true =>
          obtain ⟨hops, hframes, hinputs, hprevious⟩ := hspec rfl
          obtain ⟨deleted, hdelete, hdeleted, hcount, hnum, hroots⟩ :=
            deleteIteration_spec hring hlive hops hframes hinputs hprevious
          have hlow := (hring.mem_live.mp hlive).1
          have hle := hring.num_le
          by_cases hnil : frame.nextIterRoots = []
          · rw [if_pos hnil] at hfuel
            rw [hnil] at hroots
            obtain ⟨frame', hloop, hkept⟩ := ih hdeleted
              (fun hne => absurd hroots hne)
              (fun hlast : iter + 1 ≤ deleted.iterationCount => hdeleted.mem_live.mpr (by omega))
              (by rw [if_pos hroots]; omega)
            refine ⟨frame', ?_, hkept⟩
            rw [← hloop]
            simp [hdelete, FrameState.startDeferred, hroots, bind, Except.bind]
          · -- the deletion has made room for the deferred iteration
            rw [if_neg hnil] at hfuel
            have hfull := hdeferred hnil
            obtain ⟨grown, hgrow, hgrown, hcount', hroots', hnum', -⟩ :=
              incrementIteration_spec ready hdeleted (by omega)
            obtain ⟨frame', hloop, hkept⟩ := ih hgrown
              (fun hne => absurd hroots' hne)
              (fun hlast : iter + 1 ≤ grown.iterationCount => hgrown.mem_live.mpr (by omega))
              (by rw [if_pos hroots']; omega)
            refine ⟨frame', ?_, hkept⟩
            rw [← hloop]
            simp [hdelete, FrameState.startDeferred, hroots, hnil, hgrow, bind, Except.bind]

/-- `CleanupIterations` from a live iteration on. -/
theorem cleanupIterations_spec {iter : ℕ} (hring : Ring max frame) (hdeferred : Deferred max frame)
    (hiter : iter ∈ frame.live) :
    ∃ frame', frame.cleanupIterations max ready iter = .ok frame' ∧ Ring max frame' ∧
      Deferred max frame' := by
  obtain ⟨frame', hloop, hring', hdeferred'⟩ := cleanupLoop_spec ready
    (frame.iterationCount + 3) hring hdeferred (fun _ => hiter) (by split_ifs <;> omega)
  have hresult : frame.cleanupIterations max ready iter = .ok { frame' with
      deleted := frame'.numPendingInputs = 0 ∧ frame'.numOutstandingIterations = 0 } := by
    rw [FrameState.cleanupIterations, hloop]
    rfl
  exact ⟨_, hresult, { hring' with }, hdeferred'⟩

/-- `DecrementOutstandingOps` in a live iteration. -/
theorem decrementOutstandingOps_spec {iter : ℕ} (hring : Ring max frame)
    (hdeferred : Deferred max frame) (hiter : iter ∈ frame.live) :
    ∃ frame', frame.decrementOutstandingOps max ready iter = .ok frame' ∧ Ring max frame' ∧
      Deferred max frame' := by
  have hcompleted : Ring max { frame with
      outstandingOps := Function.update frame.outstandingOps iter (frame.outstandingOps iter - 1)
      ops := frame.ops.erase iter } := by
    refine { hring with ops_count := fun i hi => ?_, ops_live := fun i hi => ?_ }
    · by_cases heq : i = iter
      · subst heq
        simp only [Function.update_self, List.count_erase_self, hring.ops_count i hi]
      · simp only [Function.update_of_ne heq, List.count_erase_of_ne heq, hring.ops_count i hi]
    · exact hring.ops_live i (List.mem_of_mem_erase hi)
  rw [FrameState.decrementOutstandingOps, hring.access_live hiter]
  by_cases hleft :
      Function.update frame.outstandingOps iter (frame.outstandingOps iter - 1) iter ≠ 0
  · exact ⟨_, if_pos hleft, hcompleted, hdeferred⟩
  · obtain ⟨frame', hcleanup, hkept⟩ :=
      cleanupIterations_spec ready hcompleted hdeferred hiter
    exact ⟨frame', (if_neg hleft).trans hcleanup, hkept⟩

/-- `AddLoopInv` while an input is missing: all iterations are live. -/
theorem addLoopInv_spec (hring : Ring max frame) (hentering : frame.enters ≠ []) (item : ι) :
    ∃ frame', frame.addLoopInv max ready item = .ok frame' ∧ Ring max frame' ∧
      frame'.enters = frame.enters ∧ frame'.nextIterRoots = frame.nextIterRoots ∧
      frame'.numOutstandingIterations = frame.numOutstandingIterations := by
  have hstored : Ring max { frame with invValues := frame.invValues ++ [item] } := { hring with }
  have hzero := hring.mem_live.mp (hring.entering hentering)
  obtain ⟨frame', hall, hring', hkept⟩ := activateAll_spec ready
    ((List.range (frame.iterationCount + 1)).map fun iter => (item, iter)) hstored (by
      rintro pair hpair
      obtain ⟨iter, hiter, rfl⟩ := List.mem_map.mp hpair
      have := List.mem_range.mp hiter
      exact hring.mem_live.mpr (by omega))
  exact ⟨frame', hall, hring', hkept.enters, hkept.nextIterRoots, hkept.numOutstandingIterations⟩

/-! ## Every event -/

theorem ring_initial (hmax : 1 ≤ max) (enters : List (ι × Bool)) (ops : ℕ) :
    Ring max (.initial enters ops) := by
  refine ⟨rfl, hmax, le_rfl, fun i hi => ?_, fun index hindex => ?_, rfl, rfl,
    fun _ => List.mem_cons_self, fun i hi => ?_, fun i _ => rfl, fun i hi => ?_,
    by simp [FrameState.initial]⟩
  · obtain rfl := List.mem_singleton.mp hi
    simp [FrameState.initial]
  · have hne := hindex 0 List.mem_cons_self
    rw [Nat.zero_mod] at hne
    simp [FrameState.initial, Ne.symm hne]
  · obtain rfl := List.mem_singleton.mp hi
    simp [FrameState.initial]
  · exact List.mem_singleton.mpr (List.eq_of_mem_replicate hi)

variable [DecidableEq ι]

/-- **One event.** Nothing that the executor can do leads to a fault. -/
theorem event_spec {event : FrameEvent ι} (hring : Ring max frame) (hdeferred : Deferred max frame)
    (henabled : event.Enabled frame) :
    ∃ frame', event.exec max ready frame = .ok frame' ∧ Ring max frame' ∧ Deferred max frame' := by
  cases event with
  | opDone item iter =>
      have hiter := hring.ops_live iter henabled
      obtain ⟨activated, hactivate, hactivated, hkept⟩ :=
        activateNodes_spec ready hring item hiter
      obtain ⟨frame', hdone, hspec⟩ := decrementOutstandingOps_spec ready hactivated
        (by rwa [Deferred, hkept.nextIterRoots, hkept.numOutstandingIterations])
        (hkept.live ▸ hiter)
      refine ⟨frame', ?_, hspec⟩
      rw [FrameEvent.exec, hactivate]
      exact hdone
  | leave iter =>
      exact decrementOutstandingOps_spec ready hring hdeferred (hring.ops_live iter henabled)
  | deadExit item iter =>
      have hstored : Ring max { frame with
          deadExits := if iter = frame.iterationCount then frame.deadExits ++ [item]
            else frame.deadExits } := { hring with }
      exact decrementOutstandingOps_spec ready hstored hdeferred (hring.ops_live iter henabled)
  | nextIteration item iter isDead =>
      have hiter := hring.ops_live iter henabled
      have hrange := hring.mem_live.mp hiter
      rw [FrameEvent.exec]
      cases isDead with
      | true => exact decrementOutstandingOps_spec ready hring hdeferred hiter
      | false =>
          rw [if_neg Bool.false_ne_true]
          by_cases hfull : iter = frame.iterationCount ∧ frame.numOutstandingIterations = max
          · rw [if_pos hfull]
            have hstored : Ring max { frame with
                nextIterRoots := frame.nextIterRoots ++ [item] } := { hring with }
            exact decrementOutstandingOps_spec ready hstored (fun _ => hfull.2) hiter
          rw [if_neg hfull]
          -- the next iteration is live by now
          have hstarted : ∃ started, frame.startNext max ready iter = .ok started ∧
              Ring max started ∧ Deferred max started ∧
              iter ∈ started.live ∧ iter + 1 ∈ started.live := by
            rw [FrameState.startNext]
            by_cases hlast : iter = frame.iterationCount
            · have hroom := lt_of_le_of_ne hring.num_le fun heq => hfull ⟨hlast, heq⟩
              obtain ⟨started, hgrow, hgrown, hcount, hroots, hnum, -⟩ :=
                incrementIteration_spec ready hring hroom
              exact ⟨started, (if_pos hlast).trans hgrow, hgrown, fun hne => absurd hroots hne,
                hgrown.mem_live.mpr (by omega), hgrown.mem_live.mpr (by omega)⟩
            · exact ⟨frame, if_neg hlast, hring, hdeferred, hiter, hring.mem_live.mpr (by omega)⟩
          obtain ⟨started, hstart, hring', hdeferred', hlive, hnext⟩ := hstarted
          obtain ⟨activated, hactivate, hactivated, hkept⟩ :=
            activateNodes_spec ready hring' item hnext
          obtain ⟨frame', hdone, hspec⟩ := decrementOutstandingOps_spec ready hactivated
            (by rwa [Deferred, hkept.nextIterRoots, hkept.numOutstandingIterations])
            (hkept.live ▸ hlive)
          refine ⟨frame', ?_, hspec⟩
          rw [hstart]
          refine Eq.trans ?_ hdone
          exact congrArg (· >>= fun frame' => frame'.decrementOutstandingOps max ready iter)
            hactivate
  | createChild iter =>
      have hiter := hring.ops_live iter henabled
      have hresult : (FrameEvent.createChild iter).exec max ready frame = .ok { frame with
          outstandingFrameCount := Function.update frame.outstandingFrameCount iter
            (frame.outstandingFrameCount iter + 1)
          children := iter :: frame.children } := by
        rw [FrameEvent.exec, hring.access_live hiter]
        rfl
      refine ⟨_, hresult, { hring with
        children_count := fun i hi => ?_, children_live := fun i hi => ?_ }, hdeferred⟩
      · by_cases heq : i = iter
        · subst heq
          simp only [Function.update_self, List.count_cons_self, hring.children_count i hi]
        · simp only [Function.update_of_ne heq, List.count_cons_of_ne (Ne.symm heq),
            hring.children_count i hi]
      · obtain rfl | hi := List.mem_cons.mp hi
        · exact hiter
        · exact hring.children_live i hi
  | childActivates item iter =>
      obtain ⟨frame', hactivate, hring', hkept⟩ := activateNodes_spec ready hring
        item (hring.children_live iter henabled)
      refine ⟨frame', hactivate, hring', ?_⟩
      rwa [Deferred, hkept.nextIterRoots, hkept.numOutstandingIterations]
  | childDone iter =>
      have hiter := hring.children_live iter henabled
      have hcompleted : Ring max { frame with
          outstandingFrameCount := Function.update frame.outstandingFrameCount iter
            (frame.outstandingFrameCount iter - 1)
          children := frame.children.erase iter } := by
        refine { hring with children_count := fun i hi => ?_, children_live := fun i hi => ?_ }
        · by_cases heq : i = iter
          · subst heq
            simp only [Function.update_self, List.count_erase_self, hring.children_count i hi]
          · simp only [Function.update_of_ne heq, List.count_erase_of_ne heq,
              hring.children_count i hi]
        · exact hring.children_live i (List.mem_of_mem_erase hi)
      obtain ⟨frame', hcleanup, hspec⟩ :=
        cleanupIterations_spec ready hcompleted hdeferred hiter
      refine ⟨frame', ?_, hspec⟩
      rw [FrameEvent.exec, hring.access_live hiter]
      exact hcleanup
  | enter item isConstant =>
      have hentering : frame.enters ≠ [] := List.ne_nil_of_mem henabled
      have hentered : ∃ entered, frame.addInput max ready item isConstant = .ok entered ∧
          Ring max entered ∧ entered.enters = frame.enters ∧ Deferred max entered := by
        cases isConstant with
        | true =>
            obtain ⟨entered, hadd, hring', henters, hroots, hnum⟩ :=
              addLoopInv_spec ready hring hentering item
            exact ⟨entered, hadd, hring', henters, by rwa [Deferred, hroots, hnum]⟩
        | false =>
            obtain ⟨entered, hactivate, hring', hkept⟩ := activateNodes_spec ready hring
              item (hring.entering hentering)
            refine ⟨entered, hactivate, hring', hkept.enters, ?_⟩
            rwa [Deferred, hkept.nextIterRoots, hkept.numOutstandingIterations]
      obtain ⟨entered, hresult, hring', henters, hdeferred'⟩ := hentered
      refine ⟨{ entered with
          numPendingInputs := entered.numPendingInputs - 1
          enters := entered.enters.erase (item, isConstant) }, ?_, { hring' with
          pending := ?_, entering := fun hne => hring'.entering ?_ }, hdeferred'⟩
      · rw [FrameEvent.exec, hresult]
        rfl
      · rw [henters, List.length_erase_of_mem henabled, ← henters, hring'.pending]
      · rintro hnil
        exact hne (by simp [hnil])

/-- Every reached state is a frame without a fault. -/
theorem reaches_ring (hmax : 1 ≤ max) {enters : List (ι × Bool)} {ops : ℕ}
    {state : Except RingFault (FrameState ι)}
    (hreached : (frameMachine max enters ops).Reaches Machine.Unguarded state) :
    ∃ frame, state = .ok frame ∧ Ring max frame ∧ Deferred max frame := by
  induction hreached with
  | init => exact ⟨_, rfl, ring_initial hmax enters ops, fun h => absurd rfl h⟩
  | @step source target label _ _ htaken ih =>
      obtain ⟨frame, rfl, hring, hdeferred⟩ := ih
      obtain ⟨event, ready⟩ := label
      obtain ⟨hready, hexec⟩ := Option.ite_none_right_eq_some.mp htaken
      obtain ⟨-, henabled⟩ := Bool.and_eq_true_iff.mp hready
      obtain ⟨frame', hresult, hspec⟩ :=
        event_spec ready hring hdeferred (of_decide_eq_true henabled)
      exact ⟨frame', (Option.some.inj hexec).symm.trans hresult, hspec⟩

/-- **Iterations never alias.** In every reached state the live iterations are as many as
are outstanding, no more than the limit, and end at the last one; the ring finds the state
created for each of them; and no event overwrites a state or works on an iteration that is
not live. -/
theorem iterations_never_alias (hmax : 1 ≤ max) (enters : List (ι × Bool)) (ops : ℕ)
    (state : Except RingFault (FrameState ι))
    (hreached : (frameMachine max enters ops).Reaches Machine.Unguarded state) :
    ∃ frame, state = .ok frame ∧
      (∀ i, i ∈ frame.live ↔
        frame.iterationCount < i + frame.numOutstandingIterations ∧ i ≤ frame.iterationCount) ∧
      frame.live.length = frame.numOutstandingIterations ∧ frame.live.Nodup ∧
      frame.numOutstandingIterations ≤ max ∧
      (∀ i ∈ frame.live, frame.getIteration max i = some i) ∧
      ∀ event ready, FrameEvent.Enabled frame event →
        ∃ frame', event.exec max ready frame = .ok frame' := by
  obtain ⟨frame, rfl, hring, hdeferred⟩ := reaches_ring hmax hreached
  refine ⟨frame, rfl, fun i => ?_, ?_, ?_, hring.num_le, fun i => hring.getIteration_live,
    fun event ready henabled => ?_⟩
  · rw [hring.mem_live, Nat.succ_le_iff]
  · rw [hring.live_eq, List.length_range']
  · rw [hring.live_eq]
    exact List.nodup_range'
  · obtain ⟨frame', hresult, -⟩ := event_spec ready hring hdeferred henabled
    exact ⟨frame', hresult⟩

/-- A loop that runs one iteration at a time, at its third one: the slot of the first one
is used again. -/
theorem third_iteration_alone :
    ∃ state, (frameMachine 1 [(0, false)] 0).Reaches Machine.Unguarded state ∧
      ∃ frame, state = .ok frame ∧ frame.iterationCount = 2 ∧
        frame.getIteration 1 2 = some 2 := by
  obtain ⟨state, hreached, hlate⟩ := (frameMachine 1 [(0, false)] 0).exists_reaches_unguarded
    [(.enter 0 false, fun _ _ => 1), (.nextIteration 1 0 false, fun _ _ => 1),
      (.nextIteration 1 1 false, fun _ _ => 1)]
    (Q := fun state => state.toOption.any fun (frame : FrameState ℕ) =>
      decide (frame.iterationCount = 2 ∧ frame.numOutstandingIterations = 1))
    (by decide +kernel)
  obtain ⟨frame, rfl, hlive, -, -, -, hget, -⟩ :=
    iterations_never_alias le_rfl [(0, false)] 0 state hreached
  obtain ⟨hcount, hnum⟩ := of_decide_eq_true hlate
  exact ⟨_, hreached, frame, rfl, hcount, hget 2 ((hlive 2).mpr (by omega))⟩

end ContainerScheduler.Analysis
