/-
# The buckets of a cuckoo map

The buckets are seen as cells, one for each bucket and slot. Storing an item changes one cell, and
the items on the path that a search has found are displaced along it.
-/

import ContainerScheduler.Containers.PresizedCuckooMap
import ContainerScheduler.Math.Displacement

namespace ContainerScheduler.Analysis

open Containers
open Containers.PresizedCuckooMap
open Math.Displacement

variable {β : Type}

namespace Cuckoo

/-- A bucket and a slot. -/
abbrev Place := UInt64 × ℕ

def cell (m : PresizedCuckooMap β) (p : Place) : Option (UInt64 × β) :=
  (m.buckets[p.1.toNat]?).bind fun bucket =>
    if h : p.2 < kSlotsPerBucket then some (bucket.keys[p.2], bucket.values[p.2]) else none

section Cells

variable {m : PresizedCuckooMap β} {b : UInt64} {slot : ℕ} {k : UInt64} {v : β}

theorem read_eq {α : Type} {n i : ℕ} {xs : Vector α n} (hi : i < n) :
    PresizedCuckooMap.read xs i = .ok (xs[i]) := dif_pos hi

theorem write_eq {α : Type} {n i : ℕ} {xs : Vector α n} {x : α} (hi : i < n) :
    PresizedCuckooMap.write xs i x = .ok (xs.set i x) := dif_pos hi

theorem bucketAt_eq (hb : b.toNat < m.buckets.length) :
    m.bucketAt b = .ok (m.buckets[b.toNat]) := by
  rw [bucketAt, List.getElem?_eq_getElem hb]

theorem cell_eq (hb : b.toNat < m.buckets.length) (hslot : slot < kSlotsPerBucket) :
    cell m (b, slot) = some ((m.buckets[b.toNat]).keys[slot], (m.buckets[b.toNat]).values[slot]) := by
  rw [cell, List.getElem?_eq_getElem hb]
  exact dif_pos hslot

theorem isSome_cell_iff : (cell m (b, slot)).isSome = true ↔
    b.toNat < m.buckets.length ∧ slot < kSlotsPerBucket := by
  constructor
  · intro hsome
    obtain ⟨item, hitem⟩ := Option.isSome_iff_exists.mp hsome
    obtain ⟨bucket, hbucket, hslot⟩ := Option.bind_eq_some_iff.mp hitem
    split_ifs at hslot with hlt
    exact ⟨(List.getElem?_eq_some_iff.mp hbucket).1, hlt⟩
  · rintro ⟨hb, hslot⟩
    rw [cell_eq hb hslot]
    rfl

/-- Storing an item changes its cell. -/
theorem insertInternal_cell (hsome : (cell m (b, slot)).isSome = true) :
    ∃ buckets, m.insertInternal k v b slot = .ok { m with buckets } ∧
      buckets.length = m.buckets.length ∧
      cell { m with buckets } = Function.update (cell m) (b, slot) (some (k, v)) := by
  obtain ⟨hb, hslot⟩ := isSome_cell_iff.mp hsome
  let bucket := m.buckets[b.toNat]
  refine ⟨m.buckets.set b.toNat ⟨bucket.keys.set slot k hslot, bucket.values.set slot v hslot⟩,
    ?_, List.length_set, ?_⟩
  · rw [insertInternal, bucketAt_eq hb]
    simp only [Except.bind, write_eq hslot]
    rfl
  · funext ⟨c, s⟩
    by_cases hplace : (c, s) = (b, slot)
    · obtain ⟨rfl, rfl⟩ := Prod.mk.inj hplace
      rw [Function.update_self, cell_eq (by rwa [List.length_set]) hslot]
      simp
    · rw [Function.update_of_ne hplace]
      by_cases hc : c = b
      · subst hc
        have hs : slot ≠ s := fun heq => hplace (by rw [heq])
        rw [cell, cell]
        simp only [List.getElem?_set_self hb, List.getElem?_eq_getElem hb, Option.bind_some]
        by_cases hlt : s < kSlotsPerBucket
        · rw [dif_pos hlt, dif_pos hlt, Vector.getElem_set_ne hslot hlt hs,
            Vector.getElem_set_ne hslot hlt hs]
        · rw [dif_neg hlt, dif_neg hlt]
      · have hne : b.toNat ≠ c.toNat := fun heq => hc (UInt64.toNat_inj.mp heq.symm)
        rw [cell, cell]
        simp only [List.getElem?_set_ne hne]

theorem copyItem_eq {srcBucket : UInt64} {srcSlot : ℕ} {item : UInt64 × β}
    (hsrc : cell m (srcBucket, srcSlot) = some item) :
    m.copyItem srcBucket srcSlot b slot = m.insertInternal item.1 item.2 b slot := by
  obtain ⟨hbucket, hslot⟩ := isSome_cell_iff.mp (by rw [hsrc]; rfl)
  rw [cell_eq hbucket hslot] at hsrc
  obtain rfl := Option.some.inj hsrc
  rw [copyItem, bucketAt_eq hbucket]
  simp only [Except.bind, read_eq hslot]

theorem cell_of_slotOf {s : Fin kSlotsPerBucket} (hb : b.toNat < m.buckets.length)
    (hs : slotOf (m.buckets[b.toNat]).keys k = some s) :
    cell m (b, s) = some (k, (m.buckets[b.toNat]).values[s]) := by
  have hkey := List.find?_some hs
  rw [cell_eq hb s.isLt]
  exact congrArg (fun key => some (key, _)) (eq_of_beq hkey)

theorem cell_ne_of_slotOf (hb : b.toNat < m.buckets.length)
    (hnone : slotOf (m.buckets[b.toNat]).keys k = none) (slot : ℕ) (v : β) :
    cell m (b, slot) ≠ some (k, v) := by
  intro hcell
  obtain ⟨-, hlt⟩ := isSome_cell_iff.mp (by rw [hcell]; rfl)
  rw [cell_eq hb hlt] at hcell
  have hne := List.find?_eq_none.mp hnone ⟨slot, hlt⟩ (List.mem_finRange _)
  exact hne (beq_iff_eq.mpr (Prod.mk.inj (Option.some.inj hcell)).1)

theorem findInBucket_spec (hb : b.toNat < m.buckets.length) :
    ∃ found, m.findInBucket k b = .ok found ∧
      (∀ v, found = some v → ∃ slot, cell m (b, slot) = some (k, v)) ∧
      (found = none → ∀ slot v, cell m (b, slot) ≠ some (k, v)) := by
  rw [findInBucket, bucketAt_eq hb]
  refine ⟨_, rfl, fun v hv => ?_, fun hnone => ?_⟩
  · obtain ⟨slot, hslot, rfl⟩ := Option.map_eq_some_iff.mp hv
    exact ⟨slot, cell_of_slotOf hb hslot⟩
  · exact cell_ne_of_slotOf hb (Option.map_eq_none_iff.mp hnone)

theorem spaceAvailable_spec (hb : b.toNat < m.buckets.length) :
    ∃ space, m.spaceAvailable b = .ok space ∧
      (∀ slot, space = some slot → ∃ v, cell m (b, slot) = some (kUnusedSlot, v)) ∧
      (space = none → ∀ slot v, cell m (b, slot) ≠ some (kUnusedSlot, v)) := by
  rw [spaceAvailable, bucketAt_eq hb]
  refine ⟨_, rfl, fun slot hslot => ?_, fun hnone => ?_⟩
  · obtain ⟨slot, hfree, rfl⟩ := Option.map_eq_some_iff.mp hslot
    exact ⟨_, cell_of_slotOf hb hfree⟩
  · exact cell_ne_of_slotOf hb (Option.map_eq_none_iff.mp hnone)

end Cells

/-! ## Scanning -/

section Scanning

variable {m : PresizedCuckooMap β} {k : UInt64} {target target' : Option Place}

/-- The key is in none of the buckets. The target is the old one or a free slot in one of them, and
there is none only if they have no free slot. -/
structure Scanned (m : PresizedCuckooMap β) (k : UInt64) (buckets : List UInt64)
    (target target' : Option Place) : Prop where
  absent : ∀ b ∈ buckets, ∀ slot v, cell m (b, slot) ≠ some (k, v)
  full : target' = none →
    target = none ∧ ∀ b ∈ buckets, ∀ slot v, cell m (b, slot) ≠ some (kUnusedSlot, v)
  free : ∀ p, target' = some p →
    target = some p ∨ p.1 ∈ buckets ∧ ∃ v, cell m p = some (kUnusedSlot, v)

section Slots

variable {b : UInt64} {keys : Vector UInt64 kSlotsPerBucket} {slots : List (Fin kSlotsPerBucket)}

theorem scanSlots_none (hscan : scanSlots k b keys slots target = none) :
    ∃ slot ∈ slots, keys.get slot = k := by
  induction slots generalizing target with
  | nil => cases hscan
  | cons slot slots ih =>
      rw [scanSlots] at hscan
      by_cases hkey : keys[slot] = k
      · exact ⟨slot, List.mem_cons_self, hkey⟩
      · rw [if_neg hkey] at hscan
        obtain ⟨other, hmem, hother⟩ := ih hscan
        exact ⟨other, List.mem_cons_of_mem slot hmem, hother⟩

theorem scanSlots_some (hscan : scanSlots k b keys slots target = some target') :
    (∀ slot ∈ slots, keys.get slot ≠ k) ∧
      (target' = none → target = none ∧ ∀ slot ∈ slots, keys.get slot ≠ kUnusedSlot) ∧
      ∀ p, target' = some p →
        target = some p ∨ ∃ slot ∈ slots, p = (b, slot.val) ∧ keys.get slot = kUnusedSlot := by
  induction slots generalizing target with
  | nil =>
      obtain rfl := Option.some.inj hscan
      exact ⟨List.forall_mem_nil _, fun h => ⟨h, List.forall_mem_nil _⟩, fun p hp => .inl hp⟩
  | cons slot slots ih =>
      rw [scanSlots] at hscan
      by_cases hkey : keys[slot] = k
      · rw [if_pos hkey] at hscan
        cases hscan
      rw [if_neg hkey] at hscan
      obtain ⟨habsent, hfull, hfree⟩ := ih hscan
      refine ⟨List.forall_mem_cons.mpr ⟨hkey, habsent⟩, fun hnone => ?_, fun p hp => ?_⟩
      · obtain ⟨hbefore, hslots⟩ := hfull hnone
        split_ifs at hbefore with hnew
        exact ⟨hbefore, List.forall_mem_cons.mpr ⟨fun heq => hnew ⟨hbefore, heq⟩, hslots⟩⟩
      · rcases hfree p hp with hbefore | ⟨other, hmem, hother⟩
        · split_ifs at hbefore with hnew
          · exact .inr ⟨slot, List.mem_cons_self, (Option.some.inj hbefore).symm, hnew.2⟩
          · exact .inl hbefore
        · exact .inr ⟨other, List.mem_cons_of_mem slot hmem, hother⟩

end Slots

theorem forall_cell_iff {b : UInt64} (hb : b.toNat < m.buckets.length) :
    (∀ slot v, cell m (b, slot) ≠ some (k, v)) ↔
      ∀ slot ∈ List.finRange kSlotsPerBucket, (m.buckets[b.toNat]).keys[slot] ≠ k := by
  constructor
  · intro habsent slot _ heq
    refine absurd (cell_eq hb slot.isLt) ?_
    rw [← heq] at habsent
    exact habsent slot _
  · intro habsent slot v hcell
    obtain ⟨-, hlt⟩ := isSome_cell_iff.mp (by rw [hcell]; rfl)
    rw [cell_eq hb hlt] at hcell
    exact habsent ⟨slot, hlt⟩ (List.mem_finRange _) (Prod.mk.inj (Option.some.inj hcell)).1

theorem scanBuckets_spec {buckets : List UInt64}
    (hbuckets : ∀ b ∈ buckets, b.toNat < m.buckets.length) :
    (m.scanBuckets k buckets target = .ok none ∧
      ∃ b ∈ buckets, ∃ slot v, cell m (b, slot) = some (k, v)) ∨
    ∃ target', m.scanBuckets k buckets target = .ok (some target') ∧
      Scanned m k buckets target target' := by
  induction buckets generalizing target with
  | nil =>
      refine .inr ⟨target, rfl, List.forall_mem_nil _, fun h => ⟨h, List.forall_mem_nil _⟩,
        fun p hp => .inl hp⟩
  | cons b buckets ih =>
      obtain ⟨hb, hrest⟩ := List.forall_mem_cons.mp hbuckets
      rw [scanBuckets, bucketAt_eq hb]
      simp only [Except.bind]
      cases hscan : scanSlots k b (m.buckets[b.toNat]).keys (List.finRange kSlotsPerBucket)
        target with
      | none =>
          obtain ⟨slot, -, hkey⟩ := scanSlots_none hscan
          change (m.buckets[b.toNat]).keys[slot] = k at hkey
          exact .inl ⟨rfl, b, List.mem_cons_self, slot, _, hkey ▸ cell_eq hb slot.isLt⟩
      | some middle =>
          obtain ⟨habsent, hfull, hfree⟩ := scanSlots_some hscan
          rcases @ih middle hrest with ⟨hnone, c, hc, hfound⟩ | ⟨target', hsome, hscanned⟩
          · exact .inl ⟨hnone, c, List.mem_cons_of_mem b hc, hfound⟩
          refine .inr ⟨target', hsome, ?_, fun hnone => ?_, fun p hp => ?_⟩
          · exact List.forall_mem_cons.mpr ⟨(forall_cell_iff hb).mpr habsent, hscanned.absent⟩
          · obtain ⟨hmiddle, hbehind⟩ := hscanned.full hnone
            obtain ⟨hbefore, hslots⟩ := hfull hmiddle
            exact ⟨hbefore, List.forall_mem_cons.mpr ⟨(forall_cell_iff hb).mpr hslots, hbehind⟩⟩
          · rcases hscanned.free p hp with hmiddle | ⟨hmem, hcell⟩
            · rcases hfree p hmiddle with hbefore | ⟨slot, -, rfl, hunused⟩
              · exact .inl hbefore
              · change (m.buckets[b.toNat]).keys[slot] = kUnusedSlot at hunused
                exact .inr ⟨List.mem_cons_self, _, hunused ▸ cell_eq hb slot.isLt⟩
            · exact .inr ⟨List.mem_cons_of_mem b hmem, hcell⟩

end Scanning

end Cuckoo

end ContainerScheduler.Analysis
