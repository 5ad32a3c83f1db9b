/-
# Scoped allocations

A scoped allocator over fields that fit lives well in every order of its threads: each allocation
returns the address of its field, and at the end the allocator and its instances are deleted once
and the container is released. The fields of shapes fit as long as their rounded sizes add up to a
`size_t`, which is not checked.
-/

import ContainerScheduler.Analysis.ScopedLifeCycle
import Mathlib.Algebra.Order.BigOperators.Group.Finset

namespace ContainerScheduler.Analysis

open Math
open Memory
open Memory.ScopedAllocator
open Memory.ScopedAllocatorMgr

namespace ScopedLife

/-! ## Registration -/

section Registration

variable {fields : List Field} {allocators : Int32 → Option SAField}

theorem addInstances_of_ne {scopeId : Int32} (hne : ∀ field ∈ fields, field.scopeId ≠ scopeId)
    (i : ℕ) : addInstances i fields allocators scopeId = allocators scopeId := by
  induction fields generalizing i allocators with
  | nil => rfl
  | cons field fields ih =>
      obtain ⟨hfirst, hrest⟩ := List.forall_mem_cons.mp hne
      exact (ih hrest (i + 1)).trans (Function.update_of_ne hfirst.symm _ _)

theorem addInstances_of_getElem? {j : ℕ} {field : Field}
    (hindex : ∀ (i j : ℕ) (field other : Field), fields[i]? = some field →
      fields[j]? = some other → field.scopeId = other.scopeId → i = j)
    (hj : fields[j]? = some field) (i : ℕ) :
    addInstances i fields allocators field.scopeId = some (.aliasing (i + j)) := by
  induction fields generalizing i j allocators with
  | nil => cases hj
  | cons first fields ih =>
      cases j with
      | zero =>
          obtain rfl := Option.some.inj hj
          refine (addInstances_of_ne (fun other hother heq => ?_) (i + 1)).trans
            (Function.update_self _ _ _)
          obtain ⟨k, hk⟩ := List.mem_iff_getElem?.mp hother
          exact Nat.succ_ne_zero k (hindex (k + 1) 0 other first hk hj heq)
      | succ j =>
          have hrest : addInstances (i + 1) fields (Function.update allocators first.scopeId
              (some (.aliasing i))) field.scopeId = some (.aliasing (i + 1 + j)) :=
            ih (fun k l field other hk hl heq =>
              Nat.succ.inj (hindex (k + 1) (l + 1) field other hk hl heq)) hj (i + 1)
          rw [Nat.add_right_comm] at hrest
          exact hrest

end Registration

section Lives

variable {setup : Setup} {others : ℕ} {s : State} {stage : Stage} {i : ℕ}

/-- The state behind a registration. -/
theorem Inv.init (hids : DistinctIds setup.id setup.fields) (hfields : setup.fields ≠ []) :
    Inv setup others {
      expectedCallCount := setup.fields.length
      allocators := addInstances 0 setup.fields
        (Function.update (fun _ => none) setup.id (some .scopedAllocator))
      refs := others + 1
      phase := fun i => if i < setup.fields.length then .allocate else .done } .before := by
  have hpos := List.length_pos_iff.mpr hfields
  have hnone : ∀ P : Phase → Bool, P .allocate = false → tally setup.fields.length P
      (fun i => if i < setup.fields.length then .allocate else .done) = 0 := by
    intro P hallocate
    refine tally_eq_zero fun i hi => ?_
    rw [if_pos hi]
    exact hallocate
  refine ⟨⟨?_, ?_, ?_⟩, ?_, rfl, nofun, ?_, rfl, rfl, fun j hj => ?_, fun j field hj => ?_,
    fun j hj => if_neg (Nat.not_lt.mpr hj)⟩
  · rw [hnone called rfl]
    exact Int.add_zero _
  · rw [hnone isLive rfl]
    rfl
  · rw [hnone deletesAllocator rfl, if_neg fun hzero => hpos.ne' (Int.ofNat_eq_zero.mp hzero.1)]
  · exact ⟨nofun, fun hzero => absurd (Int.ofNat_eq_zero.mp hzero) hpos.ne'⟩
  · exact (addInstances_of_ne hids.own 0).trans (Function.update_self _ _ _)
  · change inLoop (if j < setup.fields.length then .allocate else .done) = true at hj
    split_ifs at hj with hlt
    · cases hj
    · cases hj
  · have hentry := @addInstances_of_getElem? setup.fields
      (Function.update (fun _ => none) setup.id (some .scopedAllocator)) j field hids.index hj 0
    rw [Nat.zero_add] at hentry
    change ThreadInv setup .before j field (if j < setup.fields.length then .allocate else .done)
      _ _
    rw [if_pos (List.getElem?_eq_some_iff.mp hj).1]
    exact ⟨trivial, rfl, rfl, rfl, hentry, rfl⟩

/-- **The step lemma**: a thread takes a step that keeps the invariant unless it is done or waits
for the mutex. -/
theorem step_well (hinv : Inv setup others s stage) (hids : DistinctIds setup.id setup.fields)
    (hbytes : ∀ i field, setup.fields[i]? = some field → setup.numBytes i = field.bytesRequested) :
    StepsWell setup others s i ∨
      s.act setup i = none ∧ (s.phase i = .done ∨ s.mu ≠ none ∧ inLoop (s.phase i) = false) := by
  by_cases hlt : i < setup.fields.length
  · have hi : setup.fields[i]? = some setup.fields[i] := List.getElem?_eq_getElem hlt
    have hcarries := (hinv.threads i _ hi).carries
    cases hphase : s.phase i with
    | allocate =>
        by_cases hmu : s.mu = none
        · exact .inl (step_allocate hinv hi (hbytes i _ hi) hphase hmu)
        · exact .inr ⟨by rw [State.act, hphase]; exact if_neg hmu, .inr ⟨hmu, rfl⟩⟩
    | drop j ptr =>
        obtain ⟨-, hle⟩ := hinv.dropping hphase
        rcases Nat.lt_or_eq_of_le hle with hj | rfl
        · exact .inl (step_drop_field hinv hi hphase hj)
        · exact .inl (step_drop_own hinv hids hi hphase)
    | erase j fieldIndex del ptr => exact .inl (step_erase hinv hids hi hphase)
    | unref ptr => exact .inl (step_unref hinv hi hphase)
    | annotate ptr => exact .inl (step_annotate hinv hi hphase)
    | mark ptr => exact .inl (step_mark hinv hi hphase)
    | returned ptr =>
        rw [hphase] at hcarries
        obtain rfl : ptr = some (setup.base + setup.fields[i].offset) := hcarries
        exact .inl (step_verify hinv hi hphase)
    | release =>
        by_cases hmu : s.mu = none
        · exact .inl (step_release hinv hi hphase hmu)
        · exact .inr ⟨by rw [State.act, hphase]; exact if_neg hmu, .inr ⟨hmu, rfl⟩⟩
    | deleteAllocator =>
        by_cases hmu : s.mu = none
        · exact .inl (step_deleteAllocator hinv hi hphase hmu)
        · exact .inr ⟨by rw [State.act, hphase]; exact if_neg hmu, .inr ⟨hmu, rfl⟩⟩
    | finish => exact .inl (step_finish hinv hi hphase)
    | deleteInstance => exact .inl (step_deleteInstance hinv hi hphase)
    | done => exact .inr ⟨by rw [State.act, hphase], .inl rfl⟩
  · have hdone := hinv.rest i (Nat.not_lt.mp hlt)
    exact .inr ⟨by rw [State.act, hdone], .inl hdone⟩

/-! ## All states -/

/-- What holds of every state, and what holds when all threads are done. -/
structure LivesWell (setup : Setup) (refs : ℕ) (s : State) : Prop where
  address : ∀ i field ptr, setup.fields[i]? = some field → s.phase i = .returned ptr →
    ptr = some (setup.base + field.offset)
  progress : (∀ i, s.phase i = .done) ∨ ∃ i t, s.act setup i = some (.ok t)
  table : (∀ i, s.phase i = .done) → s.allocators setup.id = none ∧
    ∀ field ∈ setup.fields, s.allocators field.scopeId = none
  container : (∀ i, s.phase i = .done) → s.hasContainer = false ∧ s.refs = refs
  deletes : (∀ i, s.phase i = .done) → s.deletes = 1 ∧
    ∀ i < setup.fields.length, (s.instances i).deletes = 1

theorem Inv.progress (hinv : Inv setup others s stage) (hids : DistinctIds setup.id setup.fields)
    (hbytes : ∀ i field, setup.fields[i]? = some field →
      setup.numBytes i = field.bytesRequested) :
    (∀ i, s.phase i = .done) ∨ ∃ i t, s.act setup i = some (.ok t) := by
  by_contra hstuck
  obtain ⟨hnotdone, hnone⟩ := not_or.mp hstuck
  have hwaits : ∀ i, s.phase i = .done ∨ s.mu ≠ none ∧ inLoop (s.phase i) = false := by
    intro i
    rcases step_well (i := i) hinv hids hbytes with ⟨t, -, hact, -⟩ | ⟨-, hwait⟩
    · exact absurd ⟨i, t, hact⟩ hnone
    · exact hwait
  obtain ⟨i, hi⟩ := not_forall.mp hnotdone
  obtain ⟨hmu, -⟩ := (hwaits i).resolve_left hi
  obtain ⟨h, hh⟩ := Option.ne_none_iff_exists'.mp hmu
  -- the thread that holds the mutex does not wait
  have hloop := (hinv.holder h (hinv.mu.symm.trans hh)).2.inLoop
  rcases hwaits h with hdone | ⟨-, houtside⟩
  · rw [hdone] at hloop
    cases hloop
  · rw [houtside] at hloop
    cases hloop

theorem Inv.over (hinv : Inv setup others s stage) (hdone : ∀ i, s.phase i = .done) :
    stage = .after ∧ s.deletes = 1 := by
  have hall : ∀ P : Phase → Bool, P .done = true →
      tally setup.fields.length P s.phase = setup.fields.length := by
    intro P hP
    exact tally_eq_length fun i _ => by rw [hdone]; exact hP
  have hnone : ∀ P : Phase → Bool, P .done = false → tally setup.fields.length P s.phase = 0 := by
    intro P hP
    exact tally_eq_zero fun i _ => by rw [hdone]; exact hP
  have hexpected : s.expectedCallCount = 0 := by
    have hcount := hinv.counts.expected
    rw [hall called rfl] at hcount
    omega
  have hlive : s.liveAllocCount = 0 := by
    rw [hinv.counts.live, hnone isLive rfl]
    rfl
  have hdeletes := hinv.counts.deletes
  rw [hnone deletesAllocator rfl, if_pos ⟨hexpected, hlive⟩] at hdeletes
  have hholder : stage.holder = none := by
    rw [Option.eq_none_iff_forall_ne_some]
    rintro h hh
    have hloop := (hinv.holder h hh).2.inLoop
    rw [hdone] at hloop
    cases hloop
  have hstarted := hinv.started.mpr hexpected
  refine ⟨?_, hdeletes⟩
  cases stage with
  | before => cases hstarted
  | after => rfl
  | _ => cases hholder

theorem Inv.livesWell (hinv : Inv setup others s stage)
    (hids : DistinctIds setup.id setup.fields)
    (hbytes : ∀ i field, setup.fields[i]? = some field →
      setup.numBytes i = field.bytesRequested) : LivesWell setup others s := by
  refine ⟨fun i field ptr hi hphase => ?_, hinv.progress hids hbytes, fun hdone => ?_,
    fun hdone => ?_, fun hdone => ?_⟩
  · have hcarries := (hinv.threads i field hi).carries
    rw [hphase] at hcarries
    exact hcarries
  · obtain ⟨rfl, -⟩ := hinv.over hdone
    refine ⟨hinv.ownEntry, fun field hfield => ?_⟩
    obtain ⟨i, hi⟩ := List.mem_iff_getElem?.mp hfield
    exact (hinv.threads i field hi).entry.trans (if_pos (Inv.lt hi))
  · obtain ⟨rfl, -⟩ := hinv.over hdone
    exact ⟨hinv.hasContainer, hinv.refs⟩
  · obtain ⟨rfl, hdeletes⟩ := hinv.over hdone
    refine ⟨hdeletes, fun i hlt => ?_⟩
    have hthread := hinv.threads i _ (List.getElem?_eq_getElem hlt)
    have hinTable : (s.instances i).inTable = false :=
      hthread.inTable.trans (decide_eq_false (Nat.not_le.mpr hlt))
    have hone := hthread.deletes
    rw [hdone, hinTable] at hone
    exact hone

/-- The steps that all threads have in front of them. -/
def allStepsLeft (setup : Setup) : Except Fault State → ℕ
  | .ok s => ∑ i ∈ Finset.range setup.fields.length, stepsLeft setup.fields.length (s.phase i)
  | .error _ => 0

/-- A result of the threads: a state with the invariant. -/
def IsWell (setup : Setup) (others : ℕ) (result : Except Fault State) : Prop :=
  ∃ s stage, result = .ok s ∧ Inv setup others s stage

theorem life_step {source target : Except Fault State} {start : State}
    (hids : DistinctIds setup.id setup.fields)
    (hbytes : ∀ i field, setup.fields[i]? = some field → setup.numBytes i = field.bytesRequested)
    (hsource : IsWell setup others source)
    (htaken : (life setup start).step source i = some target) :
    IsWell setup others target ∧ allStepsLeft setup target + 1 ≤ allStepsLeft setup source := by
  obtain ⟨s, stage, rfl, hinv⟩ := hsource
  change s.act setup i = some target at htaken
  rcases step_well (i := i) hinv hids hbytes with
    ⟨t, next, hact, hnext, phase, hphase, hless⟩ | ⟨hact, -⟩
  · obtain rfl := Option.some.inj (hact.symm.trans htaken)
    refine ⟨⟨t, next, rfl, hnext⟩, ?_⟩
    have hlt : i < setup.fields.length := by
      by_contra hge
      rw [hinv.rest i (Nat.not_lt.mp hge)] at hless
      exact Nat.not_lt_zero _ hless
    change ∑ j ∈ Finset.range setup.fields.length, stepsLeft setup.fields.length (t.phase j) <
      ∑ j ∈ Finset.range setup.fields.length, stepsLeft setup.fields.length (s.phase j)
    refine Finset.sum_lt_sum (fun j _ => ?_) ⟨i, Finset.mem_range.mpr hlt, ?_⟩
    · rw [hphase]
      by_cases hji : j = i
      · rw [hji, Function.update_self]
        exact hless.le
      · rw [Function.update_of_ne hji]
    · rw [hphase, Function.update_self]
      exact hless
  · rw [hact] at htaken
    cases htaken

end Lives

end ScopedLife

open ScopedLife

/-! ## The life cycle -/

/-- The life of a scoped allocator for shapes: the fields fit, and wherever the allocator is
registered, all runs of its threads are bounded and live well. -/
def ScopedLifeCycle (scopeId : Int32) (dataTypeSize : ℕ) (shapes : List ℕ) : Prop :=
  ∃ fields total, populateFields scopeId shapes dataTypeSize = some (fields, total) ∧
    FieldsFit fields total ∧
    ∀ (base : ℕ) (numBytes : ℕ → ℕ) (inUse : Int32 → Bool) (size refs : ℕ)
      (result : Except Fault State),
      (∀ i field, fields[i]? = some field → numBytes i = field.bytesRequested) → total ≤ size →
      addScopedAllocator ⟨scopeId, base, fields, numBytes⟩ inUse size refs fields.length =
        some result →
      ∃ start, result = .ok start ∧
        (∃ bound, ∀ labels reached, (life ⟨scopeId, base, fields, numBytes⟩ start).run labels
          (.ok start) = some reached → labels.length ≤ bound) ∧
        ∀ reached, (life ⟨scopeId, base, fields, numBytes⟩ start).Reaches Machine.Unguarded
          reached → ∃ s, reached = .ok s ∧
            LivesWell ⟨scopeId, base, fields, numBytes⟩ refs s

section LifeCycle

variable {scopeId : Int32} {dataTypeSize total : ℕ} {shapes : List ℕ} {fields : List Field}

theorem fields_ne_nil_iff (hfields : populateFields scopeId shapes dataTypeSize =
    some (fields, total)) : fields ≠ [] ↔ 0 < Int32.ofNat shapes.length := by
  obtain ⟨hnonneg, hpopulate⟩ := populateFields_eq hfields
  have hlength := @populateFrom_length scopeId dataTypeSize 0 (countedShapes shapes) 0
  rw [hpopulate] at hlength
  change fields.length = (countedShapes shapes).length at hlength
  rw [← List.length_pos_iff, hlength, countedShapes, List.length_take, Int32.lt_iff_toInt_lt]
  rw [Int32.le_iff_toInt_le] at hnonneg
  rw [Int32.toInt_zero] at hnonneg ⊢
  constructor
  · omega
  · intro hpos
    have hne : shapes.length ≠ 0 := by
      intro hzero
      rw [hzero] at hpos
      exact absurd hpos (by decide)
    omega

/-- What is registered lives well. -/
theorem registered_livesWell (hfields : populateFields scopeId shapes dataTypeSize =
    some (fields, total)) {base refs : ℕ} {numBytes : ℕ → ℕ}
    (hbytes : ∀ i field, fields[i]? = some field → numBytes i = field.bytesRequested)
    {start : State} (hinv : Inv ⟨scopeId, base, fields, numBytes⟩ refs start .before) :
    (∃ bound, ∀ labels reached, (life ⟨scopeId, base, fields, numBytes⟩ start).run labels
      (.ok start) = some reached → labels.length ≤ bound) ∧
    ∀ reached, (life ⟨scopeId, base, fields, numBytes⟩ start).Reaches Machine.Unguarded
      reached → ∃ s, reached = .ok s ∧ LivesWell ⟨scopeId, base, fields, numBytes⟩ refs s := by
  have hids := distinctIds_populateFields hfields
  have hstart : IsWell ⟨scopeId, base, fields, numBytes⟩ refs (.ok start) :=
    ⟨start, .before, rfl, hinv⟩
  constructor
  · refine ⟨allStepsLeft ⟨scopeId, base, fields, numBytes⟩ (.ok start), fun labels reached hrun => ?_⟩
    have hlength := Machine.length_add_le_of_run (IsWell _ refs) (allStepsLeft _)
      (fun source label target hsource htaken => life_step hids hbytes hsource htaken) hstart hrun
    omega
  · intro reached hreached
    have hwell : IsWell ⟨scopeId, base, fields, numBytes⟩ refs reached :=
      hreached.invariant (P := IsWell _ refs) hstart
        fun source label target _ hsource _ htaken => (life_step hids hbytes hsource htaken).1
    obtain ⟨s, stage, rfl, hs⟩ := hwell
    exact ⟨s, rfl, hs.livesWell hids hbytes⟩

/-- The life cycle is right if and only if there are fields and the rounded sizes of the counted
shapes add up to a `size_t`. -/
theorem scopedLifeCycle_iff (scopeId : Int32) (dataTypeSize : ℕ) (shapes : List ℕ) :
    ScopedLifeCycle scopeId dataTypeSize shapes ↔
      0 < Int32.ofNat shapes.length ∧
        roundedBytes dataTypeSize (countedShapes shapes) < 2 ^ 64 := by
  constructor
  · rintro ⟨fields, total, hfields, hfit, hlives⟩
    refine ⟨(fields_ne_nil_iff hfields).mp ?_, (fieldsFit_iff hfields).mp hfit⟩
    rintro rfl
    -- without a field the check of the last one fails
    obtain ⟨start, hstart, -⟩ := hlives 0 (fun _ => 0) (fun _ => false) total 0
      (.error .checkFailed) nofun (Nat.le_refl total) rfl
    cases hstart
  · rintro ⟨hpos, hrounded⟩
    obtain ⟨⟨fields, total⟩, hfields⟩ : ∃ result,
        populateFields scopeId shapes dataTypeSize = some result := by
      rw [populateFields, if_neg (Int32.not_lt.mpr (Int32.le_of_lt hpos))]
      exact ⟨_, rfl⟩
    have hfit := (fieldsFit_iff hfields).mpr hrounded
    have hne := (fields_ne_nil_iff hfields).mpr hpos
    refine ⟨fields, total, hfields, hfit, ?_⟩
    intro base numBytes inUse size refs result hbytes hsize hresult
    have hback : fields.getLast? = some (fields.getLast hne) := List.getLast?_eq_some_getLast hne
    have hlast := List.getLast_mem hne
    have hroom := hfit.room _ hlast
    have hwithin := hfit.within _ hlast
    have hmod := Nat.mod_le ((fields.getLast hne).offset + (fields.getLast hne).bytesRequested)
      (2 ^ 64)
    rw [addScopedAllocator] at hresult
    split_ifs at hresult with hinUse
    simp only [hback] at hresult
    rw [if_neg (by omega)] at hresult
    refine ⟨_, (Option.some.inj hresult).symm, ?_⟩
    exact registered_livesWell hfields hbytes
      (@Inv.init ⟨scopeId, base, fields, numBytes⟩ refs (distinctIds_populateFields hfields) hne)

/-- Four shapes of a quarter of the addresses have a total of 0. -/
theorem scopedTotal_wraps :
    ¬ScopedLifeCycle 0 1 [2 ^ 62, 2 ^ 62, 2 ^ 62, 2 ^ 62] := by
  rintro ⟨fields, total, hfields, hfit, -⟩
  exact absurd ((fieldsFit_iff hfields).mp hfit) (by decide)

end LifeCycle

end ContainerScheduler.Analysis
