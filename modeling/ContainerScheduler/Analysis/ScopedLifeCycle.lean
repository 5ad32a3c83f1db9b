/-
# The life of scoped allocators

The instances leave the table one after the other while the thread with the last allocation holds
the mutex. An instance is deleted once, after both its deallocation and its drop, and the allocator
once, after the last deallocation.
-/

import ContainerScheduler.Analysis.ScopedFields
import ContainerScheduler.Math.Tally

namespace ContainerScheduler.Analysis

open Math
open Memory
open Memory.ScopedAllocator

namespace ScopedLife

/-! ## Stages -/

/-- How far the instances have left the table: the loop of thread `h` is at the `k`-th field. -/
inductive Stage
  | before
  | dropping (h k : ℕ)
  | erasing (h k : ℕ) (del : Bool)
  | unreffing (h : ℕ)
  | after

namespace Stage

def holder : Stage → Option ℕ
  | before => none
  | dropping h _ => some h
  | erasing h _ _ => some h
  | unreffing h => some h
  | after => none

/-- The number of instances that are dropped, of `n`. -/
def dropped (n : ℕ) : Stage → ℕ
  | before => 0
  | dropping _ k => k
  | erasing _ k _ => k + 1
  | _ => n

/-- The number of scope ids that are erased. -/
def erased (n : ℕ) : Stage → ℕ
  | before => 0
  | dropping _ k => k
  | erasing _ k _ => k
  | _ => n

def started : Stage → Bool
  | before => false
  | _ => true

def ownGone : Stage → Bool
  | unreffing _ => true
  | after => true
  | _ => false

def released : Stage → Bool
  | after => true
  | _ => false

/-- Whether the loop is going to delete an instance. -/
def pending (j : ℕ) : Stage → Bool
  | erasing _ k del => del && k == j
  | _ => false

/-- The phase of the thread in the loop. -/
def Matches (n : ℕ) : Stage → Phase → Prop
  | dropping _ k, .drop j _ => j = k ∧ k ≤ n
  | erasing _ k del, .erase j fieldIndex d _ => j = k ∧ fieldIndex = k ∧ d = del ∧ k < n
  | unreffing _, .unref _ => True
  | _, _ => False

end Stage

/-! ## Phases -/

def called : Phase → Bool
  | .allocate => false
  | _ => true

/-- The allocation counts as live. -/
def isLive : Phase → Bool
  | .drop .. | .erase .. | .unref _ | .annotate _ | .mark _ | .returned _ | .release => true
  | _ => false

/-- The thread is in the loop over the fields. -/
def inLoop : Phase → Bool
  | .drop .. | .erase .. | .unref _ => true
  | _ => false

def deletesAllocator : Phase → Bool
  | .deleteAllocator => true
  | _ => false

def deletesInstance : Phase → Bool
  | .deleteInstance => true
  | _ => false

/-- Behind the section of `AllocateRaw` of the instance. -/
def isMarked : Phase → Bool
  | .returned _ | .release | .deleteAllocator | .finish | .deleteInstance | .done => true
  | _ => false

/-- Behind the section of `DeallocateRaw` of the instance. -/
def isFinished : Phase → Bool
  | .deleteInstance | .done => true
  | _ => false

theorem Stage.Matches.inLoop {n : ℕ} {stage : Stage} {phase : Phase}
    (hmatches : stage.Matches n phase) : inLoop phase = true := by
  cases stage with
  | before | after => exact hmatches.elim
  | dropping h k => cases phase with
    | drop => rfl
    | _ => exact hmatches.elim
  | erasing h k del => cases phase with
    | erase => rfl
    | _ => exact hmatches.elim
  | unreffing h => cases phase with
    | unref => rfl
    | _ => exact hmatches.elim

/-- The address that a thread carries. -/
def Carries (address : ℕ) : Phase → Prop
  | .drop _ ptr => ptr = address
  | .erase _ _ _ ptr => ptr = address
  | .unref ptr => ptr = address
  | .annotate ptr => ptr = address
  | .mark ptr => ptr = some address
  | .returned ptr => ptr = some address
  | _ => True

/-! ## The invariant -/

/-- A thread with its instance and the entry of its scope id. -/
structure ThreadInv (setup : Setup) (stage : Stage) (j : ℕ) (field : Field) (phase : Phase)
    (inst : Instance) (entry : Option SAField) : Prop where
  carries : Carries (setup.base + field.offset) phase
  allocated : inst.allocated = isMarked phase
  deallocated : inst.deallocated = isFinished phase
  inTable : inst.inTable = decide (stage.dropped setup.fields.length ≤ j)
  entry : entry = if j < stage.erased setup.fields.length then none else some (.aliasing j)
  -- one deletion for an instance that is dropped and deallocated
  deletes : inst.deletes + (deletesInstance phase).toNat + (stage.pending j).toNat =
    (isFinished phase && !inst.inTable).toNat

/-- The counters of the allocator. -/
structure Counts (setup : Setup) (s : State) : Prop where
  expected : s.expectedCallCount + tally setup.fields.length called s.phase = setup.fields.length
  live : s.liveAllocCount = tally setup.fields.length isLive s.phase
  deletes : s.deletes + tally setup.fields.length deletesAllocator s.phase =
    if s.expectedCallCount = 0 ∧ s.liveAllocCount = 0 then 1 else 0

structure Inv (setup : Setup) (others : ℕ) (s : State) (stage : Stage) : Prop where
  counts : Counts setup s
  started : stage.started = true ↔ s.expectedCallCount = 0
  mu : s.mu = stage.holder
  holder : ∀ h, stage.holder = some h →
    h < setup.fields.length ∧ stage.Matches setup.fields.length (s.phase h)
  ownEntry : s.allocators setup.id = if stage.ownGone then none else some .scopedAllocator
  hasContainer : s.hasContainer = !stage.released
  refs : s.refs = others + (!stage.released).toNat
  loop : ∀ j, inLoop (s.phase j) = true → stage.holder = some j
  threads : ∀ j field, setup.fields[j]? = some field →
    ThreadInv setup stage j field (s.phase j) (s.instances j) (s.allocators field.scopeId)
  rest : ∀ j, setup.fields.length ≤ j → s.phase j = .done

section Steps

variable {setup : Setup} {others : ℕ} {s t : State} {stage : Stage} {i : ℕ} {field : Field}

theorem Inv.lt (hi : setup.fields[i]? = some field) : i < setup.fields.length :=
  (List.getElem?_eq_some_iff.mp hi).1

/-- While an allocation is live or expected, the allocator is there. -/
theorem Counts.alive (hcounts : Counts setup s) (hi : i < setup.fields.length)
    (hphase : isLive (s.phase i) = true ∨ called (s.phase i) = false) : s.deletes = 0 := by
  have hdeletes := hcounts.deletes
  have hexpected := hcounts.expected
  have hlive := hcounts.live
  rcases hphase with hphase | hphase
  · have hpos := tally_pos hi hphase
    rw [if_neg (by omega)] at hdeletes
    omega
  · have hlt := tally_lt hi hphase
    rw [if_neg (by omega)] at hdeletes
    omega

theorem useAllocator_eq {β : Type} {next : Except Fault β} (halive : s.deletes = 0) :
    s.useAllocator next = next := if_pos halive

theorem useInstance_eq {β : Type} {next : Except Fault β} (halive : (s.instances i).deletes = 0) :
    s.useInstance i next = next := if_pos halive

/-- An instance that has not been deallocated is there. -/
theorem ThreadInv.alive {phase : Phase} {inst : Instance} {entry : Option SAField}
    (hthread : ThreadInv setup stage i field phase inst entry)
    (hphase : (isFinished phase && !inst.inTable) = false) : inst.deletes = 0 := by
  have hdeletes := hthread.deletes
  rw [hphase, Bool.toNat_false] at hdeletes
  omega

/-- A step of a thread outside of the loop changes its phase and its instance. -/
theorem Inv.of_thread (hinv : Inv setup others s stage) (hi : setup.fields[i]? = some field)
    {phase : Phase} {inst : Instance} (hcounts : Counts setup t)
    (hexpected : s.expectedCallCount = 0 ↔ t.expectedCallCount = 0)
    (hold : inLoop (s.phase i) = false) (hnew : inLoop phase = false)
    (hphase : t.phase = Function.update s.phase i phase)
    (hinst : t.instances = Function.update s.instances i inst)
    (hsame : t.mu = s.mu ∧ t.hasContainer = s.hasContainer ∧ t.refs = s.refs ∧
      t.allocators = s.allocators)
    (hthread : ThreadInv setup stage i field phase inst (s.allocators field.scopeId)) :
    Inv setup others t stage := by
  obtain ⟨hmu, hcontainer, hrefs, htable⟩ := hsame
  refine ⟨hcounts, hinv.started.trans hexpected, hmu.trans hinv.mu, fun h hh => ?_,
    htable ▸ hinv.ownEntry, hcontainer.trans hinv.hasContainer, hrefs.trans hinv.refs,
    fun j hj => ?_, fun j other hj => ?_, fun j hj => ?_⟩
  · obtain ⟨hlt, hmatches⟩ := hinv.holder h hh
    have hne : h ≠ i := by
      rintro rfl
      exact Bool.false_ne_true (hold.symm.trans hmatches.inLoop)
    rw [hphase, Function.update_of_ne hne]
    exact ⟨hlt, hmatches⟩
  · rw [hphase] at hj
    by_cases hji : j = i
    · rw [hji, Function.update_self, hnew] at hj
      cases hj
    · rw [Function.update_of_ne hji] at hj
      exact hinv.loop j hj
  · rw [htable, hphase, hinst]
    by_cases hji : j = i
    · subst hji
      obtain rfl := Option.some.inj (hi.symm.trans hj)
      rw [Function.update_self, Function.update_self]
      exact hthread
    · rw [Function.update_of_ne hji, Function.update_of_ne hji]
      exact hinv.threads j other hj
  · have hne : j ≠ i := (Nat.lt_of_lt_of_le (Inv.lt hi) hj).ne'
    rw [hphase, Function.update_of_ne hne]
    exact hinv.rest j hj

theorem update_instances_self (s : State) (i : ℕ) :
    s.instances = Function.update s.instances i (s.instances i) :=
  (Function.update_eq_self i s.instances).symm

/-- One deletion is due when no allocation is live or expected. -/
def isOver (s : State) : ℕ := if s.expectedCallCount = 0 ∧ s.liveAllocCount = 0 then 1 else 0

/-- The counters change as the phase of a thread does. -/
theorem Counts.step (hcounts : Counts setup s) (hi : i < setup.fields.length) {phase : Phase}
    (hphase : t.phase = Function.update s.phase i phase)
    (hexpected : t.expectedCallCount + (called phase).toNat =
      s.expectedCallCount + (called (s.phase i)).toNat)
    (hlive : t.liveAllocCount + (isLive (s.phase i)).toNat =
      s.liveAllocCount + (isLive phase).toNat)
    (hdeletes : t.deletes + (deletesAllocator phase).toNat + isOver s =
      s.deletes + (deletesAllocator (s.phase i)).toNat + isOver t) : Counts setup t := by
  have hcalls := tally_update (P := called) (f := s.phase) hi phase
  have hlives := tally_update (P := isLive) (f := s.phase) hi phase
  have hdeleted := tally_update (P := deletesAllocator) (f := s.phase) hi phase
  have hbefore := hcounts.expected
  have hlivebefore := hcounts.live
  have hdeletesbefore : s.deletes + tally setup.fields.length deletesAllocator s.phase =
    isOver s := hcounts.deletes
  rw [← hphase] at hcalls hlives hdeleted
  refine ⟨by omega, by omega, ?_⟩
  change t.deletes + _ = isOver t
  omega

/-- The counters when a thread goes on without a section of the allocator. -/
theorem Counts.goto (hcounts : Counts setup s) (hi : i < setup.fields.length) {phase : Phase}
    (hflags : called phase = called (s.phase i) ∧ isLive phase = isLive (s.phase i) ∧
      deletesAllocator phase = deletesAllocator (s.phase i))
    (hphase : t.phase = Function.update s.phase i phase)
    (hsame : t.expectedCallCount = s.expectedCallCount ∧ t.liveAllocCount = s.liveAllocCount ∧
      t.deletes = s.deletes) : Counts setup t := by
  obtain ⟨hexpected, hlives, hdeleted⟩ := hsame
  obtain ⟨hcalled, hlive, hdeletes⟩ := hflags
  have hover : isOver t = isOver s := by rw [isOver, isOver, hexpected, hlives]
  refine hcounts.step hi hphase ?_ ?_ ?_
  · rw [hexpected, hcalled]
  · rw [hlives, hlive]
  · rw [hdeleted, hdeletes, hover]

/-- The steps that a thread has in front of it. -/
def stepsLeft (n : ℕ) : Phase → ℕ
  | .allocate => 2 * n + 10
  | .drop j _ => 2 * (n - j) + 9
  | .erase j .. => 2 * (n - j) + 8
  | .unref _ => 8
  | .annotate _ => 7
  | .mark _ => 6
  | .returned _ => 5
  | .release => 4
  | .deleteAllocator => 3
  | .finish => 2
  | .deleteInstance => 1
  | .done => 0

/-- What a step of a thread does when it does not wait. -/
def StepsWell (setup : Setup) (others : ℕ) (s : State) (i : ℕ) : Prop :=
  ∃ t stage, s.act setup i = some (.ok t) ∧ Inv setup others t stage ∧
    ∃ phase, t.phase = Function.update s.phase i phase ∧
      stepsLeft setup.fields.length phase < stepsLeft setup.fields.length (s.phase i)

/-! ### Steps outside of the loop -/

section

variable (hinv : Inv setup others s stage) (hi : setup.fields[i]? = some field)

include hinv hi

theorem step_annotate {ptr : ℕ} (hphase : s.phase i = .annotate ptr) :
    StepsWell setup others s i := by
  have hthread := hphase ▸ hinv.threads i field hi
  have halive := hinv.counts.alive (Inv.lt hi) (.inl (by rw [hphase]; rfl))
  refine ⟨s.goto i (.mark (some ptr)), stage, ?_, ?_, _, rfl, by rw [hphase]; exact (by decide : 6 < 7)⟩
  · rw [State.act, hphase]
    exact congrArg some (useAllocator_eq halive)
  · have hcounts : Counts setup (s.goto i (.mark (some ptr))) :=
      hinv.counts.goto (Inv.lt hi) (by rw [hphase]; exact ⟨rfl, rfl, rfl⟩) rfl ⟨rfl, rfl, rfl⟩
    exact hinv.of_thread hi hcounts Iff.rfl (by rw [hphase]; rfl) rfl rfl (update_instances_self s i)
      ⟨rfl, rfl, rfl, rfl⟩ ⟨congrArg some hthread.carries, hthread.allocated,
        hthread.deallocated, hthread.inTable, hthread.entry, hthread.deletes⟩

theorem step_mark {ptr : Option ℕ} (hphase : s.phase i = .mark ptr) :
    StepsWell setup others s i := by
  have hthread := hphase ▸ hinv.threads i field hi
  obtain rfl : ptr = some (setup.base + field.offset) := hthread.carries
  refine ⟨(s.setInstance i { s.instances i with allocated := true }).goto i
    (.returned (some (setup.base + field.offset))), stage, ?_, ?_, _, rfl, by rw [hphase]; exact (by decide : 5 < 6)⟩
  · rw [State.act, hphase]
    exact congrArg some (useInstance_eq (hthread.alive rfl))
  · have hcounts : Counts setup ((s.setInstance i { s.instances i with allocated := true }).goto i
        (.returned (some (setup.base + field.offset)))) :=
      hinv.counts.goto (Inv.lt hi) (by rw [hphase]; exact ⟨rfl, rfl, rfl⟩) rfl ⟨rfl, rfl, rfl⟩
    exact hinv.of_thread hi hcounts Iff.rfl (by rw [hphase]; rfl) rfl rfl rfl ⟨rfl, rfl, rfl, rfl⟩
      ⟨rfl, rfl, hthread.deallocated, hthread.inTable, hthread.entry, hthread.deletes⟩

theorem step_verify {p : ℕ} (hphase : s.phase i = .returned (some p)) :
    StepsWell setup others s i := by
  have hthread := hphase ▸ hinv.threads i field hi
  obtain rfl : p = setup.base + field.offset := Option.some.inj hthread.carries
  have halive := hinv.counts.alive (Inv.lt hi) (.inl (by rw [hphase]; rfl))
  have hpointer : setup.base ≤ setup.base + field.offset ∧
      ∃ other ∈ setup.fields, setup.base + other.offset = setup.base + field.offset :=
    ⟨Nat.le_add_right _ _, field, List.mem_of_getElem? hi, rfl⟩
  refine ⟨s.goto i .release, stage, ?_, ?_, _, rfl, by rw [hphase]; exact (by decide : 4 < 5)⟩
  · rw [State.act, hphase]
    simp only [State.verifyPointer]
    rw [useInstance_eq (hthread.alive rfl), useAllocator_eq halive, if_pos hpointer]
  · have hcounts : Counts setup (s.goto i .release) :=
      hinv.counts.goto (Inv.lt hi) (by rw [hphase]; exact ⟨rfl, rfl, rfl⟩) rfl ⟨rfl, rfl, rfl⟩
    exact hinv.of_thread hi hcounts Iff.rfl (by rw [hphase]; rfl) rfl rfl (update_instances_self s i)
      ⟨rfl, rfl, rfl, rfl⟩ ⟨trivial, hthread.allocated, hthread.deallocated,
        hthread.inTable, hthread.entry, hthread.deletes⟩

/-- The last deallocation, and no other, is going to delete the allocator. -/
theorem step_release (hphase : s.phase i = .release) (hmu : s.mu = none) :
    StepsWell setup others s i := by
  have hthread := hphase ▸ hinv.threads i field hi
  have hlt := Inv.lt hi
  have halive := hinv.counts.alive hlt (.inl (by rw [hphase]; rfl))
  have hpos : 0 < s.liveAllocCount := by
    have htally := tally_pos (P := isLive) (f := s.phase) hlt (by rw [hphase]; rfl)
    have hlive := hinv.counts.live
    omega
  have hover : isOver s = 0 := if_neg fun hzero => by omega
  by_cases hlast : s.liveAllocCount - 1 = 0 ∧ s.expectedCallCount = 0
  · refine ⟨{ s with liveAllocCount := s.liveAllocCount - 1 }.goto i .deleteAllocator, stage, ?_, ?_, _, rfl, by rw [hphase]; exact (by decide : 3 < 4)⟩
    · rw [State.act, hphase]
      simp only [hmu, if_true, State.release]
      rw [useAllocator_eq halive, if_neg (by omega), if_pos hlast]
    · refine hinv.of_thread hi (hinv.counts.step hlt rfl ?_ ?_ ?_) Iff.rfl (by rw [hphase]; rfl) rfl rfl
        (update_instances_self s i) ⟨rfl, rfl, rfl, rfl⟩ ⟨trivial, hthread.allocated,
          hthread.deallocated, hthread.inTable, hthread.entry, hthread.deletes⟩
      · rw [hphase]
        rfl
      · rw [hphase]
        change s.liveAllocCount - 1 + 1 = s.liveAllocCount + 0
        omega
      · rw [hphase, hover, isOver, if_pos ⟨hlast.2, hlast.1⟩]
        rfl
  · refine ⟨{ s with liveAllocCount := s.liveAllocCount - 1 }.goto i .finish, stage, ?_, ?_, _, rfl, by rw [hphase]; exact (by decide : 2 < 4)⟩
    · rw [State.act, hphase]
      simp only [hmu, if_true, State.release]
      rw [useAllocator_eq halive, if_neg (by omega), if_neg hlast]
    · refine hinv.of_thread hi (hinv.counts.step hlt rfl ?_ ?_ ?_) Iff.rfl (by rw [hphase]; rfl) rfl rfl
        (update_instances_self s i) ⟨rfl, rfl, rfl, rfl⟩ ⟨trivial, hthread.allocated,
          hthread.deallocated, hthread.inTable, hthread.entry, hthread.deletes⟩
      · rw [hphase]
        rfl
      · rw [hphase]
        change s.liveAllocCount - 1 + 1 = s.liveAllocCount + 0
        omega
      · rw [hphase, hover, isOver, if_neg fun hzero => hlast ⟨hzero.2, hzero.1⟩]
        rfl

theorem step_deleteAllocator (hphase : s.phase i = .deleteAllocator) (hmu : s.mu = none) :
    StepsWell setup others s i := by
  have hthread := hphase ▸ hinv.threads i field hi
  have hlt := Inv.lt hi
  have halive : s.deletes = 0 := by
    have htally := tally_pos (P := deletesAllocator) (f := s.phase) hlt (by rw [hphase]; rfl)
    have hdeletes := hinv.counts.deletes
    split_ifs at hdeletes <;> omega
  refine ⟨{ s with deletes := s.deletes + 1 }.goto i .finish, stage, ?_, ?_, _, rfl, by rw [hphase]; exact (by decide : 2 < 3)⟩
  · rw [State.act, hphase]
    simp only [hmu, if_true, State.deleteAllocator]
    rw [useAllocator_eq halive]
  · refine hinv.of_thread hi (hinv.counts.step hlt rfl ?_ ?_ ?_) Iff.rfl (by rw [hphase]; rfl) rfl rfl
      (update_instances_self s i) ⟨rfl, rfl, rfl, rfl⟩ ⟨trivial, hthread.allocated,
        hthread.deallocated, hthread.inTable, hthread.entry, hthread.deletes⟩
    · rw [hphase]
      rfl
    · rw [hphase]
      rfl
    · rw [hphase]
      rfl

theorem step_finish (hphase : s.phase i = .finish) : StepsWell setup others s i := by
  have hthread := hphase ▸ hinv.threads i field hi
  have hlt := Inv.lt hi
  have hallocated : (s.instances i).allocated = true := hthread.allocated
  have hdeletes := hthread.deletes
  refine ⟨(s.setInstance i { s.instances i with deallocated := true }).goto i
    (if (s.instances i).inTable then .done else .deleteInstance), stage, ?_, ?_, _, rfl, ?_⟩
  · rw [State.act, hphase]
    simp only [State.finish, hallocated, Bool.true_eq_false, if_false]
    rw [useInstance_eq (hthread.alive rfl)]
  · have hflags : called (if (s.instances i).inTable then .done else .deleteInstance) = true ∧
        isLive (if (s.instances i).inTable then .done else .deleteInstance) = false ∧
        deletesAllocator (if (s.instances i).inTable then .done else .deleteInstance) = false := by
      cases (s.instances i).inTable <;> exact ⟨rfl, rfl, rfl⟩
    have hloop : inLoop (if (s.instances i).inTable then .done else .deleteInstance) = false := by
      cases (s.instances i).inTable <;> rfl
    refine hinv.of_thread hi (hinv.counts.goto hlt (by rw [hphase]; exact hflags) rfl
      ⟨rfl, rfl, rfl⟩) Iff.rfl (by rw [hphase]; rfl) hloop rfl rfl ⟨rfl, rfl, rfl, rfl⟩ ?_
    have hzero : (s.instances i).deletes = 0 ∧ (stage.pending i).toNat = 0 := by
      change _ + 0 + _ = 0 at hdeletes
      omega
    have hinTable := hthread.inTable
    cases hin : (s.instances i).inTable with
    | true =>
        refine ⟨trivial, hallocated, rfl, hinTable, hthread.entry, ?_⟩
        change (s.instances i).deletes + 0 + _ = (!(s.instances i).inTable).toNat
        rw [hzero.1, hzero.2, hin]
        rfl
    | false =>
        refine ⟨trivial, hallocated, rfl, hinTable, hthread.entry, ?_⟩
        change (s.instances i).deletes + 1 + _ = (!(s.instances i).inTable).toNat
        rw [hzero.1, hzero.2, hin]
        rfl
  · rw [hphase]
    cases (s.instances i).inTable with
    | false => exact (by decide : 1 < 2)
    | true => exact (by decide : 0 < 2)

theorem step_deleteInstance (hphase : s.phase i = .deleteInstance) :
    StepsWell setup others s i := by
  have hthread := hphase ▸ hinv.threads i field hi
  have hlt := Inv.lt hi
  have hdeletes := hthread.deletes
  have halive : (s.instances i).deletes = 0 := by
    have hle := Bool.toNat_le (isFinished .deleteInstance && !(s.instances i).inTable)
    change _ + 1 + _ = _ at hdeletes
    omega
  refine ⟨(s.setInstance i { s.instances i with deletes := (s.instances i).deletes + 1 }).goto i
    .done, stage, ?_, ?_, _, rfl, by rw [hphase]; exact (by decide : 0 < 1)⟩
  · rw [State.act, hphase]
    simp only [State.deleteInstance]
    rw [useInstance_eq halive]
    rfl
  · refine hinv.of_thread hi (hinv.counts.goto hlt (by rw [hphase]; exact ⟨rfl, rfl, rfl⟩) rfl
      ⟨rfl, rfl, rfl⟩) Iff.rfl (by rw [hphase]; rfl) rfl rfl rfl ⟨rfl, rfl, rfl, rfl⟩ ?_
    exact ⟨trivial, hthread.allocated, hthread.deallocated, hthread.inTable, hthread.entry,
      hdeletes⟩

end

/-! ### Steps of the loop -/

theorem ThreadInv.of_stage {j : ℕ} {phase : Phase} {inst : Instance} {entry : Option SAField}
    (hthread : ThreadInv setup stage j field phase inst entry) {next : Stage}
    (hdropped : next.dropped setup.fields.length ≤ j ↔ stage.dropped setup.fields.length ≤ j)
    (herased : j < next.erased setup.fields.length ↔ j < stage.erased setup.fields.length)
    (hpending : next.pending j = stage.pending j) :
    ThreadInv setup next j field phase inst entry := by
  refine ⟨hthread.carries, hthread.allocated, hthread.deallocated, ?_, ?_, ?_⟩
  · rw [hthread.inTable]
    exact (decide_eq_decide.mpr hdropped).symm
  · rw [hthread.entry]
    by_cases hlt : j < stage.erased setup.fields.length
    · rw [if_pos hlt, if_pos (herased.mpr hlt)]
    · rw [if_neg hlt, if_neg fun hnext => hlt (herased.mp hnext)]
  · rw [hpending]
    exact hthread.deletes

theorem ThreadInv.of_phase {j : ℕ} {phase next : Phase} {inst : Instance}
    {entry : Option SAField} (hthread : ThreadInv setup stage j field phase inst entry)
    (hflags : isMarked next = isMarked phase ∧ isFinished next = isFinished phase ∧
      deletesInstance next = deletesInstance phase)
    (hcarries : Carries (setup.base + field.offset) next) :
    ThreadInv setup stage j field next inst entry := by
  obtain ⟨hmarked, hfinished, hdeletes⟩ := hflags
  refine ⟨hcarries, hmarked ▸ hthread.allocated, hfinished ▸ hthread.deallocated,
    hthread.inTable, hthread.entry, ?_⟩
  rw [hdeletes, hfinished]
  exact hthread.deletes

section

variable (hinv : Inv setup others s stage)

include hinv

/-- A step of the loop changes the stage and the phase of its thread. -/
theorem Inv.of_stage (hi : setup.fields[i]? = some field) {next : Stage} {phase : Phase}
    (hcounts : Counts setup t) (hstarted : next.started = true ↔ t.expectedCallCount = 0)
    (hmu : t.mu = next.holder)
    (hholder : ∀ h, next.holder = some h → h = i ∧ next.Matches setup.fields.length phase)
    (hown : t.allocators setup.id = if next.ownGone then none else some .scopedAllocator)
    (hcontainer : t.hasContainer = !next.released)
    (hrefs : t.refs = others + (!next.released).toNat)
    (hphase : t.phase = Function.update s.phase i phase)
    (hothers : ∀ j, j ≠ i → inLoop (s.phase j) = false)
    (hmine : inLoop phase = true → next.holder = some i)
    (hflags : isMarked phase = isMarked (s.phase i) ∧ isFinished phase = isFinished (s.phase i) ∧
      deletesInstance phase = deletesInstance (s.phase i))
    (hcarries : Carries (setup.base + field.offset) phase)
    (hthreads : ∀ j other, setup.fields[j]? = some other →
      ThreadInv setup next j other (s.phase j) (t.instances j) (t.allocators other.scopeId)) :
    Inv setup others t next := by
  refine ⟨hcounts, hstarted, hmu, fun h hh => ?_, hown, hcontainer, hrefs, fun j hj => ?_,
    fun j other hj => ?_, fun j hj => ?_⟩
  · obtain ⟨rfl, hmatches⟩ := hholder h hh
    rw [hphase, Function.update_self]
    exact ⟨Inv.lt hi, hmatches⟩
  · rw [hphase] at hj
    by_cases hji : j = i
    · subst hji
      rw [Function.update_self] at hj
      exact hmine hj
    · rw [Function.update_of_ne hji, hothers j hji] at hj
      cases hj
  · have hthread := hthreads j other hj
    rw [hphase]
    by_cases hji : j = i
    · subst hji
      obtain rfl := Option.some.inj (hi.symm.trans hj)
      rw [Function.update_self]
      exact hthread.of_phase hflags hcarries
    · rw [Function.update_of_ne hji]
      exact hthread
  · have hne : j ≠ i := (Nat.lt_of_lt_of_le (Inv.lt hi) hj).ne'
    rw [hphase, Function.update_of_ne hne]
    exact hinv.rest j hj

/-- The thread in the loop holds the mutex, and the stage is where it is. -/
theorem Inv.matches_of_loop (hloop : inLoop (s.phase i) = true) :
    stage.holder = some i ∧ stage.Matches setup.fields.length (s.phase i) := by
  have hholder := hinv.loop i hloop
  exact ⟨hholder, (hinv.holder i hholder).2⟩

theorem Inv.others_outside (hholder : stage.holder = some i) {j : ℕ} (hne : j ≠ i) :
    inLoop (s.phase j) = false := by
  by_contra hloop
  have hj := hinv.loop j (Bool.eq_true_of_not_eq_false hloop)
  exact hne (Option.some.inj (hj.symm.trans hholder))

theorem Inv.dropping {j ptr : ℕ} (hphase : s.phase i = .drop j ptr) :
    stage = .dropping i j ∧ j ≤ setup.fields.length := by
  obtain ⟨hholder, hmatches⟩ := hinv.matches_of_loop (i := i) (by rw [hphase]; rfl)
  rw [hphase] at hmatches
  cases stage with
  | dropping h k =>
      obtain rfl : h = i := Option.some.inj hholder
      obtain ⟨rfl, hle⟩ := hmatches
      exact ⟨rfl, hle⟩
  | _ => exact hmatches.elim

theorem Inv.erasing {j fieldIndex ptr : ℕ} {del : Bool}
    (hphase : s.phase i = .erase j fieldIndex del ptr) :
    stage = .erasing i j del ∧ fieldIndex = j ∧ j < setup.fields.length := by
  obtain ⟨hholder, hmatches⟩ := hinv.matches_of_loop (i := i) (by rw [hphase]; rfl)
  rw [hphase] at hmatches
  cases stage with
  | erasing h k d =>
      obtain rfl : h = i := Option.some.inj hholder
      obtain ⟨rfl, rfl, rfl, hlt⟩ := hmatches
      exact ⟨rfl, rfl, hlt⟩
  | _ => exact hmatches.elim

theorem Inv.unreffing {ptr : ℕ} (hphase : s.phase i = .unref ptr) : stage = .unreffing i := by
  obtain ⟨hholder, hmatches⟩ := hinv.matches_of_loop (i := i) (by rw [hphase]; rfl)
  rw [hphase] at hmatches
  cases stage with
  | unreffing h =>
      obtain rfl : h = i := Option.some.inj hholder
      rfl
  | _ => exact hmatches.elim

theorem useContainer_eq {β : Type} {next : Except Fault β} (hstage : stage.released = false) :
    s.useContainer next = next := by
  have hrefs := hinv.refs
  have hcontainer := hinv.hasContainer
  rw [hstage] at hrefs hcontainer
  exact if_pos ⟨hcontainer, by rw [hrefs]; exact Nat.succ_ne_zero others⟩

theorem step_unref (hi : setup.fields[i]? = some field) {ptr : ℕ}
    (hphase : s.phase i = .unref ptr) : StepsWell setup others s i := by
  obtain rfl := hinv.unreffing hphase
  have hthread := hphase ▸ hinv.threads i field hi
  refine ⟨{ s with refs := s.refs - 1, hasContainer := false, mu := none }.goto i
    (.annotate ptr), .after, ?_, ?_, _, rfl, by rw [hphase]; exact (by decide : 7 < 8)⟩
  · rw [State.act, hphase]
    exact congrArg some (useContainer_eq hinv rfl)
  · have hcounts : Counts setup ({ s with refs := s.refs - 1, hasContainer := false, mu := none
        : State }.goto i (.annotate ptr)) :=
      hinv.counts.goto (Inv.lt hi) (by rw [hphase]; exact ⟨rfl, rfl, rfl⟩) rfl ⟨rfl, rfl, rfl⟩
    refine hinv.of_stage hi hcounts hinv.started rfl nofun hinv.ownEntry rfl ?_ rfl
      (fun j hj => hinv.others_outside rfl hj) nofun (by rw [hphase]; exact ⟨rfl, rfl, rfl⟩)
      hthread.carries fun j other hj => ?_
    · exact congrArg (· - 1) hinv.refs
    · exact (hinv.threads j other hj).of_stage Iff.rfl Iff.rfl rfl

theorem step_drop_own (hids : DistinctIds setup.id setup.fields)
    (hi : setup.fields[i]? = some field) {ptr : ℕ}
    (hphase : s.phase i = .drop setup.fields.length ptr) : StepsWell setup others s i := by
  obtain ⟨rfl, -⟩ := hinv.dropping hphase
  have hthread := hphase ▸ hinv.threads i field hi
  have halive := hinv.counts.alive (Inv.lt hi) (.inl (by rw [hphase]; rfl))
  refine ⟨(s.eraseId setup.id).goto i (.unref ptr), .unreffing i, ?_, ?_, _, rfl, ?_⟩
  · rw [State.act, hphase]
    simp only [State.drop]
    rw [useAllocator_eq halive, useContainer_eq hinv rfl, List.getElem?_eq_none (Nat.le_refl _)]
  · have hcounts : Counts setup ((s.eraseId setup.id).goto i (.unref ptr)) :=
      hinv.counts.goto (Inv.lt hi) (by rw [hphase]; exact ⟨rfl, rfl, rfl⟩) rfl ⟨rfl, rfl, rfl⟩
    refine hinv.of_stage hi hcounts hinv.started hinv.mu ?_ (Function.update_self _ _ _)
      hinv.hasContainer hinv.refs rfl (fun j hj => hinv.others_outside rfl hj) (fun _ => rfl)
      (by rw [hphase]; exact ⟨rfl, rfl, rfl⟩) hthread.carries fun j other hj => ?_
    · rintro h hh
      exact ⟨(Option.some.inj hh).symm, trivial⟩
    · have hne : other.scopeId ≠ setup.id := hids.own other (List.mem_of_getElem? hj)
      have hsame : ((s.eraseId setup.id).goto i (.unref ptr)).allocators other.scopeId =
          s.allocators other.scopeId := Function.update_of_ne hne _ _
      rw [hsame]
      exact (hinv.threads j other hj).of_stage Iff.rfl Iff.rfl rfl
  · rw [hphase]
    change 8 < 2 * _ + 9
    omega

end

theorem isFinished.marked {phase : Phase} (hfinished : isFinished phase = true) :
    isMarked phase = true := by
  cases phase with
  | deleteInstance | done => rfl
  | _ => cases hfinished

/-- An instance that leaves the table is deleted by the loop if it was deallocated before. -/
theorem ThreadInv.dropped {h j : ℕ} {phase : Phase} {inst : Instance} {entry : Option SAField}
    (hthread : ThreadInv setup (.dropping h j) j field phase inst entry) :
    ThreadInv setup (.erasing h j (inst.allocated && inst.deallocated)) j field phase
      { inst with inTable := false } entry := by
  have hinTable : inst.inTable = true := hthread.inTable.trans (decide_eq_true (Nat.le_refl j))
  have hdeletes := hthread.deletes
  refine ⟨hthread.carries, hthread.allocated, hthread.deallocated, ?_, hthread.entry, ?_⟩
  · exact (decide_eq_false (Nat.not_succ_le_self j)).symm
  · have hdel : (inst.allocated && inst.deallocated) = isFinished phase := by
      rw [hthread.allocated, hthread.deallocated]
      cases hfinished : isFinished phase with
      | false => exact Bool.and_false _
      | true => exact (Bool.and_true _).trans (isFinished.marked hfinished)
    have hzero : inst.deletes + (deletesInstance phase).toNat = 0 := by
      rw [hinTable, Bool.not_true, Bool.and_false] at hdeletes
      change _ + 0 = 0 at hdeletes
      exact hdeletes
    change inst.deletes + (deletesInstance phase).toNat +
      ((inst.allocated && inst.deallocated) && j == j).toNat = (isFinished phase && true).toNat
    rw [hzero, hdel, beq_self_eq_true, Bool.and_true, Nat.zero_add]

theorem step_drop_field (hinv : Inv setup others s stage) (hi : setup.fields[i]? = some field)
    {j ptr : ℕ} (hphase : s.phase i = .drop j ptr) (hlt : j < setup.fields.length) :
    StepsWell setup others s i := by
  obtain ⟨rfl, -⟩ := hinv.dropping hphase
  have hthread := hphase ▸ hinv.threads i field hi
  have halive := hinv.counts.alive (Inv.lt hi) (.inl (by rw [hphase]; rfl))
  have hj : setup.fields[j]? = some setup.fields[j] := List.getElem?_eq_getElem hlt
  have hdrop := hinv.threads j _ hj
  have hinTable : (s.instances j).inTable = true :=
    hdrop.inTable.trans (decide_eq_true (Nat.le_refl j))
  have hentry : s.allocators setup.fields[j].scopeId = some (.aliasing j) :=
    hdrop.entry.trans (if_neg (Nat.lt_irrefl j))
  have hthere : (s.instances j).deletes = 0 := hdrop.alive (by rw [hinTable]; exact Bool.and_false _)
  refine ⟨(s.setInstance j { s.instances j with inTable := false }).goto i (.erase j j
    ((s.instances j).allocated && (s.instances j).deallocated) ptr), .erasing i j
      ((s.instances j).allocated && (s.instances j).deallocated), ?_, ?_, _, rfl, ?_⟩
  · rw [State.act, hphase]
    simp only [State.drop]
    rw [useAllocator_eq halive, useContainer_eq hinv rfl, hj]
    simp only [hentry, State.dropFromTable, hinTable, Bool.true_eq_false, if_false]
    rw [useInstance_eq hthere]
  · have hcounts : Counts setup ((s.setInstance j { s.instances j with inTable := false }).goto i
        (.erase j j ((s.instances j).allocated && (s.instances j).deallocated) ptr)) :=
      hinv.counts.goto (Inv.lt hi) (by rw [hphase]; exact ⟨rfl, rfl, rfl⟩) rfl ⟨rfl, rfl, rfl⟩
    refine hinv.of_stage hi hcounts hinv.started hinv.mu ?_ hinv.ownEntry hinv.hasContainer
      hinv.refs rfl (fun j hj => hinv.others_outside rfl hj) (fun _ => rfl)
      (by rw [hphase]; exact ⟨rfl, rfl, rfl⟩) hthread.carries fun k other hk => ?_
    · rintro h hh
      exact ⟨(Option.some.inj hh).symm, rfl, rfl, rfl, hlt⟩
    · change ThreadInv setup _ k other _ (Function.update s.instances j _ k) (s.allocators _)
      by_cases hkj : k = j
      · subst hkj
        obtain rfl := Option.some.inj (hj.symm.trans hk)
        rw [Function.update_self]
        exact hdrop.dropped
      · rw [Function.update_of_ne hkj]
        refine (hinv.threads k other hk).of_stage ?_ Iff.rfl ?_
        · change j + 1 ≤ k ↔ j ≤ k
          omega
        · change (_ && j == k) = false
          rw [beq_eq_false_iff_ne.mpr (Ne.symm hkj), Bool.and_false]
  · rw [hphase]
    exact Nat.lt_succ_self _

/-- The deletion of an instance by the loop. -/
theorem ThreadInv.erased {h j : ℕ} {del : Bool} {phase : Phase} {inst : Instance}
    {entry : Option SAField}
    (hthread : ThreadInv setup (.erasing h j del) j field phase inst entry) :
    ThreadInv setup (.dropping h (j + 1)) j field phase
      { inst with deletes := inst.deletes + del.toNat } none := by
  have hdeletes := hthread.deletes
  refine ⟨hthread.carries, hthread.allocated, hthread.deallocated, hthread.inTable,
    (if_pos (Nat.lt_succ_self j)).symm, ?_⟩
  change inst.deletes + _ + (del && j == j).toNat = _ at hdeletes
  rw [beq_self_eq_true, Bool.and_true] at hdeletes
  change inst.deletes + del.toNat + _ + 0 = (isFinished phase && !inst.inTable).toNat
  omega

theorem step_erase (hinv : Inv setup others s stage) (hids : DistinctIds setup.id setup.fields)
    (hi : setup.fields[i]? = some field) {j fieldIndex ptr : ℕ} {del : Bool}
    (hphase : s.phase i = .erase j fieldIndex del ptr) : StepsWell setup others s i := by
  obtain ⟨rfl, rfl, hlt⟩ := hinv.erasing hphase
  have hthread := hphase ▸ hinv.threads i field hi
  have hj : setup.fields[fieldIndex]? = some setup.fields[fieldIndex] :=
    List.getElem?_eq_getElem hlt
  have herase := hinv.threads fieldIndex _ hj
  have hdeletes := herase.deletes
  have hdeleted : (if del then s.deleteInstance fieldIndex else .ok s) =
      .ok (s.setInstance fieldIndex { s.instances fieldIndex with
        deletes := (s.instances fieldIndex).deletes + del.toNat }) := by
    cases del with
    | false =>
        exact congrArg Except.ok (congrArg (fun instances => ({ s with instances } : State))
          (update_instances_self s fieldIndex))
    | true =>
        refine useInstance_eq ?_
        have hone := Bool.toNat_le (isFinished (s.phase fieldIndex) &&
          !(s.instances fieldIndex).inTable)
        change (s.instances fieldIndex).deletes + _ + (true && fieldIndex == fieldIndex).toNat = _
          at hdeletes
        rw [beq_self_eq_true] at hdeletes
        change _ + 1 = _ at hdeletes
        omega
  refine ⟨((s.setInstance fieldIndex { s.instances fieldIndex with
    deletes := (s.instances fieldIndex).deletes + del.toNat }).eraseId
      setup.fields[fieldIndex].scopeId).goto i (.drop (fieldIndex + 1) ptr),
    .dropping i (fieldIndex + 1), ?_, ?_, _, rfl, ?_⟩
  · rw [State.act, hphase]
    simp only [State.erase]
    rw [hdeleted, hj]
    rfl
  · refine hinv.of_stage hi (hinv.counts.goto (Inv.lt hi)
      (by rw [hphase]; exact ⟨rfl, rfl, rfl⟩) rfl ⟨rfl, rfl, rfl⟩) hinv.started hinv.mu ?_ ?_
      hinv.hasContainer hinv.refs rfl (fun j hj => hinv.others_outside rfl hj) (fun _ => rfl)
      (by rw [hphase]; exact ⟨rfl, rfl, rfl⟩) hthread.carries fun k other hk => ?_
    · rintro h hh
      exact ⟨(Option.some.inj hh).symm, rfl, hlt⟩
    · have hne := hids.own _ (List.mem_of_getElem? hj)
      exact (Function.update_of_ne hne.symm _ _).trans hinv.ownEntry
    · change ThreadInv setup _ k other _ (Function.update s.instances fieldIndex _ k)
        (Function.update s.allocators setup.fields[fieldIndex].scopeId none other.scopeId)
      by_cases hkj : k = fieldIndex
      · subst hkj
        obtain rfl := Option.some.inj (hj.symm.trans hk)
        rw [Function.update_self, Function.update_self]
        exact herase.erased
      · have hne : other.scopeId ≠ setup.fields[fieldIndex].scopeId :=
          fun heq => hkj (hids.index k fieldIndex other _ hk hj heq)
        rw [Function.update_of_ne hkj, Function.update_of_ne hne]
        refine (hinv.threads k other hk).of_stage Iff.rfl ?_ ?_
        · change k < fieldIndex + 1 ↔ k < fieldIndex
          omega
        · change false = (_ && fieldIndex == k)
          rw [beq_eq_false_iff_ne.mpr (Ne.symm hkj), Bool.and_false]
  · rw [hphase]
    change 2 * (setup.fields.length - (fieldIndex + 1)) + 9 < 2 * (_ - fieldIndex) + 8
    omega

theorem step_allocate (hinv : Inv setup others s stage) (hi : setup.fields[i]? = some field)
    (hbytes : setup.numBytes i = field.bytesRequested) (hphase : s.phase i = .allocate)
    (hmu : s.mu = none) : StepsWell setup others s i := by
  have hthread := hphase ▸ hinv.threads i field hi
  have hlt := Inv.lt hi
  have halive := hinv.counts.alive hlt (.inr (by rw [hphase]; rfl))
  have hpos : 0 < s.expectedCallCount := by
    have htally := tally_lt (P := called) (f := s.phase) hlt (by rw [hphase]; rfl)
    have hexpected := hinv.counts.expected
    omega
  obtain rfl : stage = .before := by
    cases stage with
    | before => rfl
    | _ => exact absurd (hinv.started.mp rfl) hpos.ne'
  have hover : isOver s = 0 := if_neg fun hzero => by omega
  have hlive : 0 ≤ s.liveAllocCount := by
    rw [hinv.counts.live]
    exact Int.natCast_nonneg _
  by_cases hlast : s.expectedCallCount - 1 = 0
  · refine ⟨{ s with liveAllocCount := s.liveAllocCount + 1,
                     expectedCallCount := s.expectedCallCount - 1,
                     mu := some i }.goto i (.drop 0 (setup.base + field.offset)),
      .dropping i 0, ?_, ?_, _, rfl, ?_⟩
    · rw [State.act, hphase]
      simp only [hmu, if_true, State.allocateRaw]
      rw [useInstance_eq (hthread.alive rfl), useAllocator_eq halive, if_neg (by omega), hi]
      simp only [hbytes, ne_eq, not_true_eq_false, if_false]
      rw [if_pos hlast]
    · refine hinv.of_stage hi (hinv.counts.step hlt rfl ?_ ?_ ?_) ?_ rfl ?_ hinv.ownEntry
        hinv.hasContainer hinv.refs rfl ?_ (fun _ => rfl) (by rw [hphase]; exact ⟨rfl, rfl, rfl⟩) rfl
        fun j other hj => (hinv.threads j other hj).of_stage Iff.rfl Iff.rfl rfl
      · rw [hphase]
        change s.expectedCallCount - 1 + 1 = s.expectedCallCount + 0
        omega
      · rw [hphase]
        exact Int.add_zero _
      · rw [hphase, hover, isOver, if_neg fun hzero => ?_]
        · rfl
        · have hone : s.liveAllocCount + 1 = 0 := hzero.2
          omega
      · exact ⟨fun _ => hlast, fun _ => rfl⟩
      · rintro h hh
        exact ⟨(Option.some.inj hh).symm, rfl, Nat.zero_le _⟩
      · rintro j -
        by_contra hloop
        have hholder := hinv.loop j (Bool.eq_true_of_not_eq_false hloop)
        cases hholder
    · rw [hphase]
      exact Nat.lt_succ_self _
  · refine ⟨{ s with liveAllocCount := s.liveAllocCount + 1,
                     expectedCallCount := s.expectedCallCount - 1 }.goto i
        (.annotate (setup.base + field.offset)), .before, ?_, ?_, _, rfl, ?_⟩
    · rw [State.act, hphase]
      simp only [hmu, if_true, State.allocateRaw]
      rw [useInstance_eq (hthread.alive rfl), useAllocator_eq halive, if_neg (by omega), hi]
      simp only [hbytes, ne_eq, not_true_eq_false, if_false]
      rw [if_neg hlast]
    · refine hinv.of_thread hi (hinv.counts.step hlt rfl ?_ ?_ ?_) ?_ (by rw [hphase]; rfl) rfl rfl
        (update_instances_self s i) ⟨rfl, rfl, rfl, rfl⟩ ⟨rfl, hthread.allocated,
          hthread.deallocated, hthread.inTable, hthread.entry, hthread.deletes⟩
      · rw [hphase]
        change s.expectedCallCount - 1 + 1 = s.expectedCallCount + 0
        omega
      · rw [hphase]
        exact Int.add_zero _
      · rw [hphase, hover, isOver, if_neg fun hzero => hlast hzero.1]
        rfl
      · exact ⟨fun hzero => absurd hzero hpos.ne', fun hzero => absurd hzero hlast⟩
    · rw [hphase]
      change 7 < 2 * _ + 10
      omega

end Steps

end ScopedLife

end ContainerScheduler.Analysis
