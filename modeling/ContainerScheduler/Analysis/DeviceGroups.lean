/-
# The requested device accumulates all wishes

Names of devices without a conflict have a least common specification, and a merge finds it. The
requested device of a group stays a specification of the other two.
-/

import ContainerScheduler.Devices.ColocationGraph
import Mathlib.Logic.Basic

namespace ContainerScheduler.Analysis

open Devices
open Devices.DeviceNameUtils
open Devices.DeviceNameUtils.Field

namespace Colocation

section Names

variable {a b c m : ParsedName}

/-- The first name is at most as specific as the second one. -/
abbrev Le (a b : ParsedName) : Prop := isSpecification a b = true

/-- Two names have a common specification. -/
def Agree (a b : ParsedName) : Prop := ∃ c, Le a c ∧ Le b c

theorem le_iff : Le a b ↔
    (a.hasJob = true → b.hasJob = true ∧ a.job = b.job) ∧
    (a.hasReplica = true → b.hasReplica = true ∧ a.replica = b.replica) ∧
    (a.hasTask = true → b.hasTask = true ∧ a.task = b.task) ∧
    (a.hasType = true → b.hasType = true ∧ a.type = b.type) ∧
    (a.hasId = true → b.hasId = true ∧ a.id = b.id) := by
  simp [Le, isSpecification, kept, job, replica, task, type, Field.id, ← Bool.not_eq_true,
    imp_iff_not_or, and_assoc]

attribute [local grind =] le_iff ensureSpecification

theorem le_refl (a : ParsedName) : Le a a := by grind

theorem Le.trans (hab : Le a b) (hbc : Le b c) : Le a c := by grind

theorem le_ensure (a b : ParsedName) : Le b (ensureSpecification a b) := by grind

theorem ensure_mono (hab : Le a b) : Le (ensureSpecification a c) (ensureSpecification b c) := by
  grind

theorem le_ensure_of_agree (hagree : Agree a b) (hac : Le a c) :
    Le a (ensureSpecification c b) := by
  obtain ⟨d, had, hbd⟩ := hagree
  grind

theorem ensure_le_iff (hagree : Agree a b) : Le (ensureSpecification a b) c ↔ Le a c ∧ Le b c := by
  constructor
  · exact fun h => ⟨(le_ensure_of_agree hagree (le_refl a)).trans h, (le_ensure a b).trans h⟩
  · grind

/-! ## Merges -/

theorem bind_ok {ε α β : Type} {x : Except ε α} {f : α → Except ε β} {y : β} :
    (x >>= f) = .ok y ↔ ∃ z, x = .ok z ∧ f z = .ok y := by
  cases x <;> simp [bind, Except.bind]

theorem merge_ok {α : Type} [DecidableEq α] {field : DeviceNameUtils.Field α} {s : String} :
    field.merge s a b = .ok m ↔ field.differs a b = false ∧ field.copy a b = m := by
  cases hd : field.differs a b <;> simp [merge, hd]

theorem copy_eq (a b : ParsedName) :
    Field.id.copy (type.copy (task.copy (replica.copy (job.copy a b) b) b) b) b =
      ensureSpecification a b := by
  rcases b with ⟨_ | _, _, _ | _, _, _ | _, _, _ | _, _, _ | _, _⟩ <;> rfl

theorem mergeDevNames_ok :
    mergeDevNames a b false = .ok m ↔ Agree a b ∧ ensureSpecification a b = m := by
  have hagree : Agree a b ↔ Le a (ensureSpecification a b) :=
    ⟨fun h => le_ensure_of_agree h (le_refl a), fun h => ⟨_, h, le_ensure a b⟩⟩
  have hdiffers : replica.differs (job.copy a b) b = replica.differs a b ∧
      task.differs (replica.copy (job.copy a b) b) b = task.differs a b ∧
      type.differs (task.copy (replica.copy (job.copy a b) b) b) b = type.differs a b ∧
      Field.id.differs (type.copy (task.copy (replica.copy (job.copy a b) b) b) b) b =
        Field.id.differs a b := by
    rcases b with ⟨_ | _, _, _ | _, _, _ | _, _, _ | _, _, _, _⟩ <;> exact ⟨rfl, rfl, rfl, rfl⟩
  simp only [mergeDevNames, mergeDevNamesImpl, bind_ok, merge_ok, Bool.and_false, Bool.false_and,
    Bool.false_eq_true, if_false, and_assoc, exists_and_left, exists_eq_left', copy_eq, hdiffers]
  rw [hagree]
  simp only [differs, job, replica, task, type, Field.id]
  grind

theorem merged_le_iff (hm : mergeDevNames a b false = .ok m) : Le m c ↔ Le a c ∧ Le b c := by
  obtain ⟨hagree, rfl⟩ := mergeDevNames_ok.mp hm
  exact ensure_le_iff hagree

theorem mergeOverrideDevNames_ok (hm : mergeOverrideDevNames a b = .ok m) :
    ensureSpecification a b = m := by
  simp only [mergeOverrideDevNames, mergeDevNamesImpl, bind_ok, merge_ok, Bool.and_false,
    Bool.not_true, Bool.false_eq_true, if_false, if_true, and_assoc, exists_and_left,
    exists_eq_left', Except.ok.injEq] at hm
  rw [← hm.2.2.2, copy_eq]

/-- **Names are merged, in whatever order, exactly if they have a common specification**, and then
into the least one. -/
theorem merged_names_least (others : List ParsedName) (target : ParsedName) :
    (∀ m, others.foldlM (mergeDevNames · · false) target = .ok m →
      ∀ c, Le m c ↔ Le target c ∧ ∀ other ∈ others, Le other c) ∧
    ((∃ m, others.foldlM (mergeDevNames · · false) target = .ok m) ↔
      ∃ c, Le target c ∧ ∀ other ∈ others, Le other c) := by
  induction others generalizing target with
  | nil => exact ⟨by simp [pure, Except.pure], iff_of_true ⟨_, rfl⟩ ⟨_, le_refl _, by simp⟩⟩
  | cons other others ih =>
      simp only [List.foldlM_cons, bind_ok, List.forall_mem_cons]
      have hleast : ∀ m, (∃ t, mergeDevNames target other false = .ok t ∧
          others.foldlM (mergeDevNames · · false) t = .ok m) →
          ∀ c, Le m c ↔ Le target c ∧ Le other c ∧ ∀ next ∈ others, Le next c := by
        rintro m ⟨t, ht, hrest⟩ c
        rw [(ih t).1 m hrest c, merged_le_iff ht, and_assoc]
      refine ⟨hleast, fun ⟨m, hm⟩ => ⟨m, (hleast m hm m).mp (le_refl m)⟩, ?_⟩
      rintro ⟨c, htarget, hother, hothers⟩
      have ht := mergeDevNames_ok.mpr ⟨⟨c, htarget, hother⟩, rfl⟩
      obtain ⟨m, hm⟩ := (ih _).2.mpr ⟨c, (merged_le_iff ht).mpr ⟨htarget, hother⟩, hothers⟩
      exact ⟨m, _, ht, hm⟩

end Names

/-! ## Groups -/

section Groups

variable {m next : Member}

/-- The requested device is a specification of the other two. -/
abbrev Accumulates (m : Member) : Prop := Le m.assigned m.requested ∧ Le m.resource m.requested

/-- Members that come about: a node has one of the three devices, and groups are merged, adapted
across an edge, assigned to a device and limited to those of another group. -/
inductive Grouped : Member → Prop
  | assigned (name : ParsedName) : Grouped { assigned := name, requested := name }
  | resource (name : ParsedName) : Grouped { resource := name, requested := name }
  | requested (name : ParsedName) : Grouped { requested := name }
  | merge {m other next : Member} (soft : Bool) (hm : Grouped m) (hother : Grouped other)
      (hsoft : soft = true → Agree next.assigned next.resource)
      (hnext : m.mergeDeviceNames other soft = .ok next) : Grouped next
  | edge {m src next : Member} (hm : Grouped m)
      (hnext : m.ensureCompatibilityAcrossResourceEdge src = some next) : Grouped next
  | assign {m next : Member} (name : ParsedName) (hm : Grouped m)
      (hnext : m.assignDevice name = .ok next) : Grouped next
  | limit {m devices next : Member} (hm : Grouped m) (hdevices : Grouped devices)
      (hnext : m.limitToPossibleDevices devices false = .ok next) : Grouped next

theorem mergeDeviceNames_ok {other : Member} {soft : Bool}
    (hnext : m.mergeDeviceNames other soft = .ok next) :
    mergeDevNames m.assigned other.assigned false = .ok next.assigned ∧
      mergeDevNames m.resource other.resource false = .ok next.resource ∧
      ∃ c, mergeDevNames m.requested other.requested soft = .ok c ∧ next.requested =
        ensureSpecification (ensureSpecification c next.assigned) next.resource := by
  simp only [Member.mergeDeviceNames, bind_ok, pure, Except.pure, Except.ok.injEq] at hnext
  obtain ⟨_, hassigned, _, hresource, c, hc, rfl⟩ := hnext
  exact ⟨hassigned, hresource, c, hc, rfl⟩

theorem accumulates_iff {other : Member} {soft : Bool}
    (hnext : m.mergeDeviceNames other soft = .ok next) :
    Accumulates next ↔ Agree next.assigned next.resource := by
  obtain ⟨-, -, c, -, hrequested⟩ := mergeDeviceNames_ok hnext
  rw [Accumulates, hrequested]
  exact ⟨fun h => ⟨_, h⟩, fun h => ⟨le_ensure_of_agree h (le_ensure c _), le_ensure _ _⟩⟩

/-- **The run lemma.** -/
theorem Grouped.accumulates (hm : Grouped m) : Accumulates m := by
  induction hm with
  | assigned name => exact ⟨le_refl name, rfl⟩
  | resource name => exact ⟨rfl, le_refl name⟩
  | requested name => exact ⟨rfl, rfl⟩
  | @merge m other next soft _ _ hsoft hnext ihm ihother =>
      obtain ⟨ha, hr, c, hc, -⟩ := mergeDeviceNames_ok hnext
      refine (accumulates_iff hnext).mpr ?_
      cases soft with
      | true => exact hsoft rfl
      | false =>
          obtain ⟨hm, hother⟩ := (merged_le_iff hc).mp (le_refl c)
          exact ⟨c, (merged_le_iff ha).mpr ⟨ihm.1.trans hm, ihother.1.trans hother⟩,
            (merged_le_iff hr).mpr ⟨ihm.2.trans hm, ihother.2.trans hother⟩⟩
  | @edge m src next _ hnext ih =>
      rw [Member.ensureCompatibilityAcrossResourceEdge] at hnext
      split_ifs at hnext <;> obtain rfl := Option.some.inj hnext
      · exact ih
      · exact ⟨le_ensure_of_agree ⟨_, ih⟩ (le_ensure _ _), le_ensure _ _⟩
  | @assign m next name _ hnext ih =>
      simp only [Member.assignDevice, bind_ok, pure, Except.pure, Except.ok.injEq] at hnext
      obtain ⟨A, hA, R, hR, Q, hQ, rfl⟩ := hnext
      rw [← mergeOverrideDevNames_ok hR, ← mergeOverrideDevNames_ok hQ,
        ← (mergeDevNames_ok.mp hA).2]
      exact ⟨ensure_mono ih.1, ensure_mono ih.2⟩
  | @limit m devices next _ _ hnext ihm ihdevices =>
      simp only [Member.limitToPossibleDevices, bind_ok, pure, Except.pure,
        Except.ok.injEq] at hnext
      obtain ⟨Q, hQ, R, hR, rfl⟩ := hnext
      obtain ⟨hm, hdevices⟩ := (merged_le_iff hQ).mp (le_refl Q)
      exact ⟨ihm.1.trans hm, (merged_le_iff hR).mpr ⟨ihm.2.trans hm, ihdevices.2.trans hdevices⟩⟩

/-- **The requested device accumulates all wishes.** A merge, with soft placement or without, keeps
this exactly if the devices of the nodes and of the resources agree. -/
theorem requests_accumulate (hm : Grouped m) :
    Accumulates m ∧ ∀ other soft next, m.mergeDeviceNames other soft = .ok next →
      (Accumulates next ↔ Agree next.assigned next.resource) :=
  ⟨hm.accumulates, fun _ _ _ => accumulates_iff⟩

/-- A group with nodes on device 0 is merged with one with resources on device 1. -/
theorem requests_accumulate_soft :
    let m : Member := { assigned := { hasId := true }, requested := { hasId := true } }
    let other : Member :=
      { resource := { hasId := true, id := 1 }, requested := { hasId := true, id := 1 } }
    (Accumulates m ∧ ∀ other soft next, m.mergeDeviceNames other soft = .ok next →
      (Accumulates next ↔ Agree next.assigned next.resource)) ∧
      Grouped other ∧ ∃ next, m.mergeDeviceNames other true = .ok next ∧ ¬ Accumulates next :=
  ⟨requests_accumulate (.assigned _), .resource _, _, rfl, by decide⟩

end Groups

end Colocation

end ContainerScheduler.Analysis
