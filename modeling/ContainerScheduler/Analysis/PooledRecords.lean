/-
# Records in the pool

The pointers of the records and those to the head and the tail make one doubly linked list of the
records in the pool. A record is taken out of both together, wherever it is, and a new one comes to
the head.
-/

import ContainerScheduler.Math.SiblingLists
import ContainerScheduler.Memory.PoolAllocator
import Mathlib.Data.List.Perm.Basic

namespace ContainerScheduler.Analysis

open Math
open Memory
open Memory.PoolAllocator

namespace Pooling

/-! ## Pointers -/

section Pointers

variable (records : ℕ → Option PtrRecord)

def nextOf (id : ℕ) : Option ℕ := (records id).bind PtrRecord.next

def prevOf (id : ℕ) : Option ℕ := (records id).bind PtrRecord.prev

/-- The address and the size of the chunk of a record. -/
def chunkAt (id : ℕ) : Option (ℕ × ℕ) := (records id).map fun pr => (pr.ptr, pr.numBytes)

variable {records} {id : ℕ} {pr : PtrRecord}

theorem isSome_chunkAt : (chunkAt records id).isSome = (records id).isSome := Option.isSome_map ..

theorem nextOf_of_eq_some (hpr : records id = some pr) : nextOf records id = pr.next := by
  rw [nextOf, hpr, Option.bind_some]

theorem prevOf_of_eq_some (hpr : records id = some pr) : prevOf records id = pr.prev := by
  rw [prevOf, hpr, Option.bind_some]

theorem nextOf_update (new : Option PtrRecord) :
    nextOf (Function.update records id new) =
      Function.update (nextOf records) id (new.bind PtrRecord.next) :=
  Function.comp_update (fun record : Option PtrRecord => record.bind PtrRecord.next) ..

theorem prevOf_update (new : Option PtrRecord) :
    prevOf (Function.update records id new) =
      Function.update (prevOf records) id (new.bind PtrRecord.prev) :=
  Function.comp_update (fun record : Option PtrRecord => record.bind PtrRecord.prev) ..

theorem chunkAt_update (new : Option PtrRecord) :
    chunkAt (Function.update records id new) =
      Function.update (chunkAt records) id (new.map fun pr => (pr.ptr, pr.numBytes)) :=
  Function.comp_update (Option.map fun pr : PtrRecord => (pr.ptr, pr.numBytes)) ..

theorem chunkAt_update_self (hpr : records id = some pr) {new : PtrRecord}
    (hptr : new.ptr = pr.ptr) (hbytes : new.numBytes = pr.numBytes) :
    chunkAt (Function.update records id (some new)) = chunkAt records := by
  rw [chunkAt_update, Function.update_eq_self_iff, chunkAt, hpr, Option.map_some, Option.map_some,
    hptr, hbytes]

theorem update_eq_ite {β : Type} (f : ℕ → β) (v : β) (b : ℕ) :
    Function.update f id v b = if some id = some b then v else f b := by
  by_cases heq : b = id
  · rw [heq, Function.update_self, if_pos rfl]
  · rw [Function.update_of_ne heq, if_neg fun h => heq (Option.some.inj h).symm]

end Pointers

/-! ## The list -/

section Lists

variable {s : State} {ids : List ℕ} {id : ℕ} {pr : PtrRecord}

/-- The first half changes the pointer before a record. -/
theorem relinkPrev_spec (hhead : pr.prev = none → s.lruHead = some id)
    (hprev : ∀ prev, pr.prev = some prev → (s.records prev).isSome) :
    ∃ records, s.relinkPrev id pr =
        .ok { s with records, lruHead := if pr.prev = none then none else s.lruHead } ∧
      chunkAt records = chunkAt s.records ∧ prevOf records = prevOf s.records ∧
      ∀ b, nextOf records b = if pr.prev = some b then pr.next else nextOf s.records b := by
  rw [State.relinkPrev]
  cases hcase : pr.prev with
  | none =>
      refine ⟨s.records, ?_, rfl, rfl, fun b => (if_neg nofun).symm⟩
      simp only [hhead hcase, if_true]
  | some prev =>
      obtain ⟨other, hother⟩ := Option.isSome_iff_exists.mp (hprev prev hcase)
      refine ⟨Function.update s.records prev (some { other with next := pr.next }), ?_,
        chunkAt_update_self hother rfl rfl, ?_, ?_⟩
      · simp only [State.record, hother]
        rfl
      · rw [prevOf_update, Function.update_eq_self_iff, prevOf_of_eq_some hother]
        rfl
      · intro b
        rw [nextOf_update]
        exact update_eq_ite ..

/-- The second half changes the pointer behind a record. -/
theorem relinkNext_spec (htail : pr.next = none → s.lruTail = some id)
    (hnext : ∀ next, pr.next = some next → (s.records next).isSome) :
    ∃ records, s.relinkNext id pr =
        .ok { s with
          records
          lruHead := if s.lruHead = none then pr.next else s.lruHead
          lruTail := if pr.next = none then pr.prev else s.lruTail } ∧
      chunkAt records = chunkAt s.records ∧ nextOf records = nextOf s.records ∧
      ∀ b, prevOf records b = if pr.next = some b then pr.prev else prevOf s.records b := by
  rw [State.relinkNext]
  cases hcase : pr.next with
  | none =>
      refine ⟨s.records, ?_, rfl, rfl, fun b => (if_neg nofun).symm⟩
      simp only [htail hcase, if_true]
      cases s.lruHead <;> rfl
  | some next =>
      obtain ⟨other, hother⟩ := Option.isSome_iff_exists.mp (hnext next hcase)
      refine ⟨Function.update s.records next (some { other with prev := pr.prev }), ?_,
        chunkAt_update_self hother rfl rfl, ?_, ?_⟩
      · simp only [State.record, hother, Except.map, reduceCtorEq, if_false]
        by_cases hnone : s.lruHead = none
        · rw [if_pos hnone]
          exact congrArg Except.ok (if_pos hnone)
        · rw [if_neg hnone]
          exact congrArg Except.ok (if_neg hnone)
      · rw [nextOf_update, Function.update_eq_self_iff, nextOf_of_eq_some hother]
        rfl
      · intro b
        rw [prevOf_update]
        exact update_eq_ite ..

/-- A record is taken out of the list, wherever it is. -/
theorem removeFromList_spec
    (hlinked : Linked (nextOf s.records) (prevOf s.records) none s.lruHead ids s.lruTail none)
    (hnodup : ids.Nodup) (hpresent : ∀ i ∈ ids, (s.records i).isSome) (hmem : id ∈ ids) :
    ∃ records lruHead lruTail,
      s.removeFromList id = .ok { s with records, lruHead, lruTail } ∧
      chunkAt records = chunkAt s.records ∧
      Linked (nextOf records) (prevOf records) none lruHead (ids.erase id) lruTail none := by
  obtain ⟨pr, hpr⟩ := Option.isSome_iff_exists.mp (hpresent id hmem)
  have hends := hlinked.ends hmem
  have hneighbour : ∀ b, prevOf s.records id = some b ∨ nextOf s.records id = some b → b ∈ ids :=
    fun b => WholeList.mem_of_neighbour ⟨_, hlinked⟩ hmem
  rw [prevOf_of_eq_some hpr, nextOf_of_eq_some hpr] at hends
  obtain ⟨records₁, hfirst, hchunks₁, hprev₁, hnext₁⟩ := relinkPrev_spec hends.1 fun prev hprev =>
    hpresent prev (hneighbour prev (.inl ((prevOf_of_eq_some hpr).trans hprev)))
  obtain ⟨records₂, hsecond, hchunks₂, hnext₂, hprev₂⟩ :=
    @relinkNext_spec
      { s with records := records₁, lruHead := if pr.prev = none then none else s.lruHead } id pr
      hends.2 fun next hnext => by
        have hin := hneighbour next (.inr ((nextOf_of_eq_some hpr).trans hnext))
        change (records₁ next).isSome
        rw [← isSome_chunkAt, hchunks₁, isSome_chunkAt]
        exact hpresent next hin
  have hhead : s.lruHead ≠ none := by
    intro hnone
    cases ids with
    | nil => cases hmem
    | cons b ids => cases hnone.symm.trans hlinked.1
  refine ⟨records₂, if pr.prev = none then pr.next else s.lruHead,
    if pr.next = none then pr.prev else s.lruTail, ?_, hchunks₂.trans hchunks₁,
    hlinked.erase hnodup hmem ?_ ?_ ?_ ?_⟩
  · rw [State.removeFromList, State.record, hpr]
    change (s.relinkPrev id pr).bind _ = _
    rw [hfirst]
    refine hsecond.trans ?_
    by_cases hnone : pr.prev = none
    · simp only [hnone, if_true]
    · simp only [hnone, hhead, if_false]
  · rw [prevOf_of_eq_some hpr, nextOf_of_eq_some hpr]
  · rw [prevOf_of_eq_some hpr, nextOf_of_eq_some hpr]
  · intro b _ _
    rw [hnext₂, hnext₁, prevOf_of_eq_some hpr, nextOf_of_eq_some hpr]
  · intro b _ _
    rw [hprev₂, prevOf_of_eq_some hpr, nextOf_of_eq_some hpr]
    exact congrArg (if pr.next = some b then pr.prev else ·) (congrFun hprev₁ b)

/-- A new record comes to the head of the list. -/
theorem addToList_spec {ptr numBytes : ℕ}
    (hlinked : Linked (nextOf s.records) (prevOf s.records) none s.lruHead ids s.lruTail none)
    (hnodup : ids.Nodup) (hpresent : ∀ i ∈ ids, (s.records i).isSome) (hfresh : id ∉ ids) :
    ∃ records lruHead lruTail,
      s.addToList id ptr numBytes = .ok { s with records, lruHead, lruTail } ∧
      chunkAt records = Function.update (chunkAt s.records) id (some (ptr, numBytes)) ∧
      Linked (nextOf records) (prevOf records) none lruHead (id :: ids) lruTail none := by
  have hnodupAll : (id :: ids).Nodup := List.nodup_cons.mpr ⟨hfresh, hnodup⟩
  cases hhead : s.lruHead with
  | none =>
      have htail : s.lruTail = none := by
        cases ids with
        | nil => exact hlinked.1
        | cons b ids => cases hhead.symm.trans hlinked.1
      refine ⟨Function.update s.records id (some ⟨ptr, numBytes, none, none⟩), some id,
        if s.lruHead = none then some id else s.lruTail, ?_, chunkAt_update _,
        hlinked.cons hnodupAll ?_ ?_ ?_ ?_⟩
      · rw [State.addToList, hhead]
        simp only [htail, if_true]
        rfl
      · rw [nextOf_update, Function.update_self, hhead]
        rfl
      · rw [prevOf_update, Function.update_self]
        rfl
      · intro b hb
        rw [nextOf_update, Function.update_of_ne fun heq : b = id => hfresh (heq ▸ hb)]
      · intro b hb
        rw [prevOf_update, Function.update_of_ne fun heq : b = id => hfresh (heq ▸ hb), hhead,
          if_neg nofun]
  | some head =>
      have hmem : head ∈ ids := hlinked.mem_of_start hhead
      have hne : head ≠ id := fun heq => hfresh (heq ▸ hmem)
      obtain ⟨other, hother⟩ := Option.isSome_iff_exists.mp (hpresent head hmem)
      have hotherNew : Function.update s.records id (some ⟨ptr, numBytes, none, some head⟩) head =
          some other := (Function.update_of_ne hne ..).trans hother
      refine ⟨Function.update (Function.update s.records id
          (some ⟨ptr, numBytes, none, some head⟩)) head (some { other with prev := some id }),
        some id, if s.lruHead = none then some id else s.lruTail, ?_, ?_,
        hlinked.cons hnodupAll ?_ ?_ ?_ ?_⟩
      · rw [State.addToList, hhead]
        simp only [State.record, hother, if_neg (Option.some_ne_none head)]
        rfl
      · refine Eq.trans (chunkAt_update_self hotherNew ?_ ?_) (chunkAt_update _) <;> rfl
      · rw [nextOf_update, Function.update_of_ne hne.symm, nextOf_update, Function.update_self,
          hhead]
        rfl
      · rw [prevOf_update, Function.update_of_ne hne.symm, prevOf_update, Function.update_self]
        rfl
      · intro b hb
        have hneb : b ≠ id := fun heq => hfresh (heq ▸ hb)
        rw [nextOf_update, update_eq_ite, nextOf_update, Function.update_of_ne hneb]
        split_ifs with heq
        · obtain rfl := Option.some.inj heq
          exact (nextOf_of_eq_some hother).symm
        · rfl
      · intro b hb
        have hneb : b ≠ id := fun heq => hfresh (heq ▸ hb)
        rw [prevOf_update, update_eq_ite, prevOf_update, Function.update_of_ne hneb, hhead]
        rfl

end Lists

/-! ## The entries by size -/

section Entries

variable {key id : ℕ} {pool rest : List (ℕ × ℕ)}

theorem perm_of_eraseFirst (herase : eraseFirst key pool = some (id, rest)) :
    pool.Perm ((key, id) :: rest) := by
  induction pool generalizing rest with
  | nil => cases herase
  | cons entry pool ih =>
      rw [eraseFirst] at herase
      split_ifs at herase with heq
      · cases herase
        rw [← heq]
      · obtain ⟨⟨_, behind⟩, hbehind, hfound⟩ := Option.map_eq_some_iff.mp herase
        cases hfound
        exact ((ih hbehind).cons entry).trans (.swap ..)

theorem exists_eraseFrom (hmem : id ∈ pool.map Prod.snd) :
    ∃ key rest, eraseFrom id pool = some rest ∧ pool.Perm ((key, id) :: rest) := by
  induction pool with
  | nil => cases hmem
  | cons entry pool ih =>
      rw [eraseFrom]
      split_ifs with heq
      · exact ⟨entry.1, pool, rfl, by rw [← heq]⟩
      · have hbehind : id ∈ pool.map Prod.snd :=
          (List.mem_cons.mp hmem).resolve_left fun h => heq h.symm
        obtain ⟨key, rest, hrest, hperm⟩ := ih hbehind
        exact ⟨key, entry :: rest, by rw [hrest, Option.map_some],
          (hperm.cons entry).trans (.swap ..)⟩

/-- The entry of a record is found among those with the same key. -/
theorem exists_eraseRecord (hmem : (key, id) ∈ pool) (hnodup : (pool.map Prod.snd).Nodup) :
    ∃ rest, eraseRecord key id pool = some rest ∧ pool.Perm ((key, id) :: rest) := by
  induction pool with
  | nil => cases hmem
  | cons entry pool ih =>
      rw [eraseRecord]
      split_ifs with heq
      · obtain ⟨key', rest, hrest, hperm⟩ := exists_eraseFrom (List.mem_map_of_mem hmem)
        have hsame : (key', id) = (key, id) :=
          List.inj_on_of_nodup_map hnodup (hperm.mem_iff.mpr List.mem_cons_self) hmem rfl
        exact ⟨rest, hrest, hsame ▸ hperm⟩
      · have hbehind : (key, id) ∈ pool :=
          (List.mem_cons.mp hmem).resolve_left fun h => heq (congrArg Prod.fst h).symm
        obtain ⟨rest, hrest, hperm⟩ := ih hbehind (List.nodup_cons.mp hnodup).2
        exact ⟨entry :: rest, by rw [hrest, Option.map_some],
          (hperm.cons entry).trans (.swap ..)⟩

theorem insertEntry_perm (key id : ℕ) (pool : List (ℕ × ℕ)) :
    (insertEntry key id pool).Perm ((key, id) :: pool) := by
  induction pool with
  | nil => exact .refl _
  | cons entry pool ih =>
      rw [insertEntry]
      split_ifs
      · exact .refl _
      · exact (ih.cons entry).trans (.swap ..)

end Entries

/-! ## The list and the entries -/

/-- The chunks in the pool. -/
def pooled (pool : List (ℕ × ℕ)) (records : ℕ → Option PtrRecord) : List (ℕ × ℕ) :=
  pool.filterMap fun entry => chunkAt records entry.2

theorem pooled_cons {records : ℕ → Option PtrRecord} {chunk : ℕ × ℕ} {id : ℕ}
    (hchunk : chunkAt records id = some chunk) (key : ℕ) (pool : List (ℕ × ℕ)) :
    pooled ((key, id) :: pool) records = chunk :: pooled pool records :=
  List.filterMap_cons_some hchunk

/-- The list has exactly the records in the pool, and there are no others. -/
structure Listed (pool : List (ℕ × ℕ)) (records : ℕ → Option PtrRecord) (nextRecord : ℕ)
    (lruHead lruTail : Option ℕ) (ids : List ℕ) : Prop where
  linked : Linked (nextOf records) (prevOf records) none lruHead ids lruTail none
  nodup : ids.Nodup
  present : ∀ id, id ∈ ids ↔ (records id).isSome
  fresh : ∀ id ∈ ids, id < nextRecord
  entries : (pool.map Prod.snd).Perm ids
  keys : ∀ entry ∈ pool, ∃ ptr, chunkAt records entry.2 = some (ptr, entry.1)

namespace Listed

variable {s : State} {pool rest : List (ℕ × ℕ)} {nextRecord key id : ℕ} {ids : List ℕ}

/-- **A record leaves** the list and the pool together. -/
theorem remove (hlisted : Listed pool s.records nextRecord s.lruHead s.lruTail ids)
    (hperm : pool.Perm ((key, id) :: rest)) :
    ∃ ptr records lruHead lruTail, chunkAt s.records id = some (ptr, key) ∧
      s.removeFromList id = .ok { s with records, lruHead, lruTail } ∧
      Listed rest (Function.update records id none) nextRecord lruHead lruTail (ids.erase id) ∧
      (pooled pool s.records).Perm
        ((ptr, key) :: pooled rest (Function.update records id none)) := by
  have hids : (id :: rest.map Prod.snd).Perm ids :=
    (hperm.map Prod.snd).symm.trans hlisted.entries
  have hmem : id ∈ ids := hids.mem_iff.mp List.mem_cons_self
  have hout : id ∉ rest.map Prod.snd := (List.nodup_cons.mp (hids.nodup_iff.mpr hlisted.nodup)).1
  obtain ⟨ptr, hchunk⟩ := hlisted.keys (key, id) (hperm.mem_iff.mpr List.mem_cons_self)
  obtain ⟨records, lruHead, lruTail, hremove, hchunks, hlinked⟩ :=
    removeFromList_spec hlisted.linked hlisted.nodup (fun i => (hlisted.present i).mp) hmem
  have hkept : ∀ entry ∈ rest,
      chunkAt (Function.update records id none) entry.2 = chunkAt s.records entry.2 := by
    intro entry hentry
    have hne : entry.2 ≠ id := fun heq => hout (heq ▸ List.mem_map_of_mem hentry)
    rw [chunkAt_update, Function.update_of_ne hne, hchunks]
  have hneErase : ∀ i ∈ ids.erase id, i ≠ id := fun i hi => (hlisted.nodup.mem_erase_iff.mp hi).1
  refine ⟨ptr, records, lruHead, lruTail, hchunk, hremove, ⟨?_, hlisted.nodup.erase id, ?_, ?_, ?_,
    ?_⟩, ?_⟩
  · apply hlinked.congr
    · intro i hi
      rw [nextOf_update, Function.update_of_ne (hneErase i hi)]
    · intro i hi
      rw [prevOf_update, Function.update_of_ne (hneErase i hi)]
  · intro i
    rw [hlisted.nodup.mem_erase_iff, hlisted.present, ← isSome_chunkAt, ← isSome_chunkAt,
      chunkAt_update, hchunks]
    by_cases heq : i = id
    · rw [heq, Function.update_self]
      exact ⟨fun h => (h.1 rfl).elim, nofun⟩
    · rw [Function.update_of_ne heq]
      exact ⟨And.right, fun h => ⟨heq, h⟩⟩
  · intro i hi
    exact hlisted.fresh i (List.mem_of_mem_erase hi)
  · have hrest := hids.erase id
    rw [List.erase_cons_head] at hrest
    exact hrest
  · intro entry hentry
    rw [hkept entry hentry]
    exact hlisted.keys entry (hperm.mem_iff.mpr (List.mem_cons_of_mem _ hentry))
  · refine (hperm.filterMap _).trans (List.Perm.of_eq ?_)
    refine (pooled_cons hchunk key rest).trans ?_
    exact congrArg _ (List.filterMap_congr fun entry hentry => (hkept entry hentry).symm)

/-- **A new record** comes to the head of the list and into the pool. -/
theorem add (hlisted : Listed pool s.records id s.lruHead s.lruTail ids) (ptr key : ℕ) :
    ∃ records lruHead lruTail, s.addToList id ptr key = .ok { s with records, lruHead, lruTail } ∧
      Listed (insertEntry key id pool) records (id + 1) lruHead lruTail (id :: ids) ∧
      (pooled (insertEntry key id pool) records).Perm ((ptr, key) :: pooled pool s.records) := by
  have hfresh : id ∉ ids := fun hmem => (hlisted.fresh id hmem).false
  obtain ⟨records, lruHead, lruTail, hadd, hchunks, hlinked⟩ :=
    @addToList_spec _ _ _ ptr key hlisted.linked hlisted.nodup
      (fun i => (hlisted.present i).mp) hfresh
  have hnew : chunkAt records id = some (ptr, key) := by rw [hchunks, Function.update_self]
  have hkept : ∀ entry ∈ pool, chunkAt records entry.2 = chunkAt s.records entry.2 := by
    intro entry hentry
    have hmem := hlisted.entries.mem_iff.mp (List.mem_map_of_mem hentry)
    have hne : entry.2 ≠ id := fun heq => hfresh (heq ▸ hmem)
    rw [hchunks, Function.update_of_ne hne]
  have hperm := insertEntry_perm key id pool
  refine ⟨records, lruHead, lruTail, hadd,
    ⟨hlinked, List.nodup_cons.mpr ⟨hfresh, hlisted.nodup⟩, ?_, ?_, ?_, ?_⟩, ?_⟩
  · intro i
    rw [List.mem_cons, hlisted.present, ← isSome_chunkAt, ← isSome_chunkAt, hchunks]
    by_cases heq : i = id
    · rw [heq, Function.update_self]
      exact ⟨fun _ => rfl, fun _ => .inl rfl⟩
    · rw [Function.update_of_ne heq]
      exact ⟨fun h => h.resolve_left heq, .inr⟩
  · intro i hi
    rcases List.mem_cons.mp hi with rfl | hi
    · exact Nat.lt_succ_self i
    · exact Nat.lt_succ_of_lt (hlisted.fresh i hi)
  · exact (hperm.map Prod.snd).trans (hlisted.entries.cons id)
  · intro entry hentry
    rcases List.mem_cons.mp (hperm.mem_iff.mp hentry) with rfl | hentry
    · exact ⟨ptr, hnew⟩
    · rw [hkept entry hentry]
      exact hlisted.keys entry hentry
  · refine (hperm.filterMap _).trans (List.Perm.of_eq ?_)
    refine (pooled_cons hnew key pool).trans ?_
    exact congrArg _ (List.filterMap_congr hkept)

/-- Nothing is in an empty list. -/
theorem empty {records : ℕ → Option PtrRecord} (hnone : ∀ id, records id = none)
    (nextRecord : ℕ) : Listed [] records nextRecord none none [] where
  linked := ⟨rfl, rfl⟩
  nodup := List.nodup_nil
  present := by
    intro id
    rw [hnone id]
    exact ⟨nofun, nofun⟩
  fresh := nofun
  entries := .refl _
  keys := nofun

end Listed

end Pooling

end ContainerScheduler.Analysis
