/-
# Runs of the pool allocator

Allocations, deallocations, evictions and `Clear` move chunks between the users, the pool and the
sub-allocator. A chunk that is on its way is held, by the thread that moves it.
-/

import ContainerScheduler.Analysis.PooledChunks

namespace ContainerScheduler.Analysis

open Math
open Memory
open Memory.PoolAllocator

namespace Pooling

/-- The list, the pool and the account fit, where a thread holds some chunks. -/
structure PoolInv (s : State) (held : List (ℕ × ℕ)) : Prop where
  listed : ∃ ids, Listed s.pool s.records s.nextRecord s.lruHead s.lruTail ids
  accounted : Accounted s.chunks s.mem s.users (held ++ pooled s.pool s.records)
  length : s.pool.length ≤ s.poolSizeLimit
  positive : 0 < s.poolSizeLimit

variable {setup : Setup} {s : State} {held : List (ℕ × ℕ)}

/-! ## Eviction -/

/-- Resizing changes the counters, and the limit does not go down. -/
theorem resize_spec (hincrease : ∀ limit, limit ≤ setup.increase limit) (s : State) :
    ∃ poolSizeLimit getFromPoolCount putCount allocatedCount evictedCount,
      s.resize setup = { s with
        poolSizeLimit, getFromPoolCount, putCount, allocatedCount, evictedCount } ∧
      s.poolSizeLimit ≤ poolSizeLimit := by
  have hlimit : s.poolSizeLimit ≤
      if s.poolSizeLimit < 100 then 100 else setup.increase s.poolSizeLimit := by
    split_ifs with hsmall
    · exact Nat.le_of_lt hsmall
    · exact hincrease s.poolSizeLimit
  simp only [State.resize]
  split
  · split
    · exact ⟨_, _, _, _, _, rfl, hlimit⟩
    · exact ⟨_, _, _, _, _, rfl, Nat.le_refl _⟩
  · exact ⟨_, _, _, _, _, rfl, Nat.le_refl _⟩

/-- The chunk of the record at the tail is freed. -/
theorem PoolInv.evictOne (hincrease : ∀ limit, limit ≤ setup.increase limit)
    (hinv : PoolInv s held) (hpool : s.pool ≠ []) :
    ∃ s', s.evictOne setup = .ok s' ∧ PoolInv s' held ∧ s'.mem = s.mem ∧
      s'.pool.length + 1 = s.pool.length := by
  obtain ⟨⟨ids, hlisted⟩, haccount, hlength, hpositive⟩ := hinv
  have hne : ids ≠ [] := by
    rintro rfl
    exact hpool (List.map_eq_nil_iff.mp hlisted.entries.eq_nil)
  obtain ⟨id, hmem, htail⟩ := hlisted.linked.exists_last hne
  obtain ⟨⟨key, id'⟩, hentry, heq⟩ := List.mem_map.mp (hlisted.entries.mem_iff.mpr hmem)
  obtain rfl : id' = id := heq
  obtain ⟨rest, herase, hperm⟩ :=
    exists_eraseRecord hentry (hlisted.entries.nodup_iff.mpr hlisted.nodup)
  obtain ⟨ptr, records, lruHead, lruTail, hchunk, hremove, hlistedRest, hpooled⟩ :=
    hlisted.remove hperm
  obtain ⟨pr, hpr, hsame⟩ := Option.map_eq_some_iff.mp hchunk
  cases hsame
  obtain ⟨chunks, hfree, haccountRest⟩ :=
    (haccount.perm ((hpooled.append_left held).trans List.perm_middle)).free
  obtain ⟨poolSizeLimit, getFromPoolCount, putCount, allocatedCount, evictedCount, hresize,
    hlimit⟩ := resize_spec hincrease { s with
      records := Function.update records id' none, lruHead, lruTail, pool := rest, chunks,
      evictedCount := s.evictedCount + 1 }
  have hlengthRest : rest.length + 1 = s.pool.length := hperm.length_eq.symm
  refine ⟨{ s with
      records := Function.update records id' none, lruHead, lruTail, pool := rest, chunks,
      poolSizeLimit, getFromPoolCount, putCount, allocatedCount, evictedCount }, ?_,
    ⟨⟨_, hlistedRest⟩, haccountRest, ?_, hpositive.trans_le hlimit⟩, rfl, hlengthRest⟩
  · simp only [State.evictOne, htail, State.record, hpr, Except.bind, hremove, herase, State.free,
      hfree, Except.map]
    exact congrArg Except.ok hresize
  · change rest.length ≤ poolSizeLimit
    change s.poolSizeLimit ≤ poolSizeLimit at hlimit
    omega

/-- There is room in the pool after the loop. -/
theorem PoolInv.evictWhile (hincrease : ∀ limit, limit ≤ setup.increase limit) {turns : ℕ}
    (hinv : PoolInv s held) (hturns : s.pool.length < turns) :
    ∃ s', State.evictWhile setup turns s = .ok s' ∧ PoolInv s' held ∧ s'.mem = s.mem ∧
      s'.pool.length < s'.poolSizeLimit := by
  induction turns generalizing s with
  | zero => cases hturns
  | succ turns ih =>
      rw [State.evictWhile]
      split_ifs with hfull
      · have hpool : s.pool ≠ [] := by
          intro hempty
          rw [hempty] at hfull
          exact absurd hinv.positive (Nat.not_lt.mpr hfull)
        obtain ⟨middle, hevict, hmiddle, hmem, hlength⟩ := hinv.evictOne hincrease hpool
        obtain ⟨s', hrest, hinv', hmem', hroom⟩ := ih hmiddle (by omega)
        exact ⟨s', by rw [hevict]; exact hrest, hinv', hmem'.trans hmem, hroom⟩
      · exact ⟨s, rfl, hinv, rfl, Nat.lt_of_not_le hfull⟩

/-! ## Deallocation -/

/-- **The chunk of a user goes to the pool.** -/
theorem PoolInv.deallocateRaw (hsetup : 0 < setup.poolSizeLimit)
    (hincrease : ∀ limit, limit ≤ setup.increase limit) (hinv : PoolInv s []) {user : User}
    (huser : user ∈ s.users) :
    ∃ s', s.deallocateRaw setup user.ptr = .ok s' ∧ PoolInv s' [] := by
  obtain ⟨hlisted, haccount, hlength, hpositive⟩ := hinv
  have habove : findPrefix s.mem user.ptr + 16 ≤ user.ptr := (haccount.placed user huser).above
  have hstart : PoolInv { s with
      users := s.users.eraseP fun other => other.ptr = user.ptr
      putCount := s.putCount + 1 } [chunkOf s.mem user] :=
    ⟨hlisted, haccount.give_back huser, hlength, hpositive⟩
  obtain ⟨middle, hevict, ⟨⟨ids, hlistedMiddle⟩, haccountMiddle, -, hpositiveMiddle⟩, hmem, hroom⟩ :=
    @PoolInv.evictWhile _ _ _ hincrease (s.pool.length + 1) hstart (Nat.lt_succ_self _)
  obtain ⟨records, lruHead, lruTail, hadd, hlistedNew, hpooled⟩ :=
    @Listed.add { middle with nextRecord := middle.nextRecord + 1 } _ _ _ hlistedMiddle
      (chunkOf s.mem user).1 (chunkOf s.mem user).2
  have hsize : middle.mem (findPrefix s.mem user.ptr) = (chunkOf s.mem user).2 :=
    congrFun hmem _
  refine ⟨{ middle with
      nextRecord := middle.nextRecord + 1, records, lruHead, lruTail,
      pool := insertEntry (chunkOf s.mem user).2 middle.nextRecord middle.pool }, ?_,
    ⟨_, hlistedNew⟩, haccountMiddle.perm hpooled.symm, ?_, hpositiveMiddle⟩
  · have hlimited : setup.hasSizeLimit = true := decide_eq_true hsetup
    simp only [State.deallocateRaw]
    rw [if_neg (by omega), if_neg (by omega), hlimited, Bool.not_true, Bool.false_and,
      if_neg Bool.false_ne_true]
    refine (congrArg (Except.bind · _) hevict).trans ?_
    simp only [Except.bind, hsize]
    refine (congrArg (Except.map _) hadd).trans ?_
    simp only [Except.map, hsize]
  · change (insertEntry _ _ middle.pool).length ≤ middle.poolSizeLimit
    rw [(insertEntry_perm ..).length_eq]
    exact hroom

/-! ## Allocation -/

/-- A record with a chunk of the size is looked for. -/
theorem PoolInv.takeFromPool (hinv : PoolInv s []) (size : ℕ) :
    (eraseFirst size s.pool = none ∧
      s.takeFromPool size = .ok (none, { s with allocatedCount := s.allocatedCount + 1 })) ∨
    ∃ ptr s', s.takeFromPool size = .ok (some ptr, s') ∧ PoolInv s' [(ptr, size)] := by
  obtain ⟨⟨ids, hlisted⟩, haccount, hlength, hpositive⟩ := hinv
  rw [State.takeFromPool]
  cases herase : eraseFirst size s.pool with
  | none => exact .inl ⟨rfl, rfl⟩
  | some found =>
      obtain ⟨id, rest⟩ := found
      have hperm := perm_of_eraseFirst herase
      obtain ⟨ptr, records, lruHead, lruTail, hchunk, hremove, hlistedRest, hpooled⟩ :=
        @Listed.remove { s with getFromPoolCount := s.getFromPoolCount + 1 } _ _ _ _ _ _ hlisted
          hperm
      obtain ⟨pr, hpr, hsame⟩ := Option.map_eq_some_iff.mp hchunk
      cases hsame
      refine .inr ⟨pr.ptr, { s with
        getFromPoolCount := s.getFromPoolCount + 1, lruHead, lruTail, pool := rest
        records := Function.update records id none }, ?_, ⟨_, hlistedRest⟩,
        haccount.perm hpooled, ?_, hpositive⟩
      · have hrecord : s.record id = .ok pr := by rw [State.record, hpr]
        simp only [hrecord, Except.bind, hremove]
        rfl
      · change rest.length ≤ s.poolSizeLimit
        have hshorter := hperm.length_eq
        rw [List.length_cons] at hshorter
        omega

theorem requestBytes_le_chunkSize (hround : ∀ n, n ≤ setup.roundUp n) {alignment numBytes : ℕ}
    (hbytes : requestBytes alignment numBytes < 2 ^ 64) :
    requestBytes alignment numBytes ≤ State.chunkSize setup alignment numBytes := by
  rw [requestBytes] at hbytes ⊢
  rw [State.chunkSize]
  split_ifs at hbytes ⊢
  · rw [Nat.mod_eq_of_lt (Nat.lt_of_le_of_lt (Nat.le_add_right ..) hbytes), Nat.mod_eq_of_lt hbytes]
    exact hround _
  · rw [Nat.mod_eq_of_lt hbytes]
    exact hround _

/-- The sub-allocator gives an aligned chunk that overlaps no other one. -/
structure Grants (chunks : List PoolAllocator.Chunk) (ptr size : ℕ) : Prop where
  aligned : kPoolAlignment ∣ ptr
  fits : ptr + size ≤ 2 ^ 64
  apart : ∀ chunk ∈ handedOut chunks, Apart chunk (ptr, size)

/-- **A user gets a chunk**, from the pool or from the sub-allocator. -/
theorem PoolInv.allocateRaw (hsetup : 0 < setup.poolSizeLimit) (hround : ∀ n, n ≤ setup.roundUp n)
    (hinv : PoolInv s []) {alignment numBytes chunk k : ℕ} (hpow : alignment = 2 ^ k)
    (hpos : 0 < numBytes) (hbytes : requestBytes alignment numBytes < 2 ^ 64)
    (hgrants : eraseFirst (State.chunkSize setup alignment numBytes) s.pool = none →
      Grants s.chunks chunk (State.chunkSize setup alignment numBytes)) :
    ∃ s', s.allocateRaw setup alignment numBytes chunk = .ok s' ∧ PoolInv s' [] := by
  have hsize := requestBytes_le_chunkSize hround hbytes
  have hlimited : setup.hasSizeLimit = true := decide_eq_true hsetup
  simp only [State.allocateRaw, if_neg hpos.ne', hlimited, if_true]
  generalize State.chunkSize setup alignment numBytes = size at *
  rcases hinv.takeFromPool size with ⟨hnone, htake⟩ | ⟨ptr, middle, htake, hmiddle⟩
  · have hroom : kPoolAlignment < size := by
      have hlead : numBytes + kPoolAlignment ≤ requestBytes alignment numBytes := by
        rw [requestBytes]
        split_ifs <;> omega
      omega
    obtain ⟨haligned, hfits, hapart⟩ := hgrants hnone
    obtain ⟨mem', userPtr, hprepare, haccount⟩ :=
      (hinv.accounted.grant ⟨haligned, hroom, hfits⟩ hapart).take hpow hpos hsize
    rw [htake]
    simp only [Except.bind, Option.getD_none, hprepare]
    exact ⟨_, rfl, hinv.listed, haccount, hinv.length, hinv.positive⟩
  · obtain ⟨mem', userPtr, hprepare, haccount⟩ := hmiddle.accounted.take hpow hpos hsize
    rw [htake]
    simp only [Except.bind, Option.getD_some, hprepare]
    exact ⟨_, rfl, hmiddle.listed, haccount, hmiddle.length, hmiddle.positive⟩

/-! ## Clear -/

/-- All chunks of the pool are freed. -/
theorem freeAll_spec {pool : List (ℕ × ℕ)} (hnodup : (pool.map Prod.snd).Nodup)
    (hpresent : ∀ id, id ∈ pool.map Prod.snd ↔ (s.records id).isSome)
    (haccount : Accounted s.chunks s.mem s.users (pooled pool s.records)) :
    ∃ records chunks, State.freeAll pool s = .ok { s with records, chunks } ∧
      (∀ id, records id = none) ∧ Accounted chunks s.mem s.users [] := by
  induction pool generalizing s with
  | nil =>
      refine ⟨s.records, s.chunks, rfl, ?_, haccount⟩
      intro id
      exact Option.not_isSome_iff_eq_none.mp fun hsome =>
        absurd ((hpresent id).mpr hsome) List.not_mem_nil
  | cons entry pool ih =>
      obtain ⟨key, id⟩ := entry
      obtain ⟨hout, hnodup⟩ := List.nodup_cons.mp hnodup
      obtain ⟨pr, hpr⟩ := Option.isSome_iff_exists.mp ((hpresent id).mp List.mem_cons_self)
      have hchunk : chunkAt s.records id = some (pr.ptr, pr.numBytes) := by
        rw [chunkAt, hpr, Option.map_some]
      rw [pooled_cons hchunk] at haccount
      obtain ⟨chunks, hfree, haccount⟩ := haccount.free
      have hsame : pooled pool (Function.update s.records id none) = pooled pool s.records := by
        apply List.filterMap_congr
        intro other hother
        have hin : other.2 ∈ pool.map Prod.snd := List.mem_map_of_mem hother
        have hne : other.2 ≠ id := fun heq => hout (heq ▸ hin)
        rw [chunkAt_update, Function.update_of_ne hne]
      obtain ⟨records, chunks', hrest, hnone, haccount'⟩ :=
        @ih { s with chunks, records := Function.update s.records id none } hnodup (by
          intro other
          by_cases heq : other = id
          · subst heq
            simp only [Function.update_self]
            exact ⟨fun hin => (hout hin).elim, fun hsome => absurd hsome Bool.false_ne_true⟩
          · simp only [Function.update_of_ne heq, ← hpresent, List.map_cons, List.mem_cons, heq,
              false_or]) (by
          simp only [hsame]
          exact haccount)
      refine ⟨records, chunks', ?_, hnone, haccount'⟩
      simp only [State.freeAll, State.record, hpr, Except.bind, State.free, hfree]
      exact hrest

/-- **The pool is cleared.** -/
theorem PoolInv.clear (hsetup : 0 < setup.poolSizeLimit) (hinv : PoolInv s []) :
    ∃ s', s.clear setup = .ok s' ∧ PoolInv s' [] := by
  obtain ⟨⟨ids, hlisted⟩, haccount, hlength, hpositive⟩ := hinv
  obtain ⟨records, chunks, hfree, hnone, haccount'⟩ :=
    freeAll_spec (hlisted.entries.nodup_iff.mpr hlisted.nodup)
      (fun id => hlisted.entries.mem_iff.trans (hlisted.present id)) haccount
  have hlimited : setup.hasSizeLimit = true := decide_eq_true hsetup
  simp only [State.clear, hlimited, if_true, hfree]
  exact ⟨_, rfl, ⟨[], Listed.empty hnone s.nextRecord⟩, haccount', Nat.zero_le _, hpositive⟩

/-! ## Runs -/

/-- What users and the sub-allocator may do: an alignment is a power of two, a size is positive and
fits with the prefix, and pointers are live. -/
def Allowed (setup : Setup) : Except Fault State → Label → Prop
  | .ok s, .allocate alignment numBytes chunk =>
      (∃ k, alignment = 2 ^ k) ∧ 0 < numBytes ∧ requestBytes alignment numBytes < 2 ^ 64 ∧
        (eraseFirst (State.chunkSize setup alignment numBytes) s.pool = none →
          Grants s.chunks chunk (State.chunkSize setup alignment numBytes))
  | .ok s, .deallocate ptr => ∃ user ∈ s.users, user.ptr = ptr
  | .ok s, .write user _ => user ∈ s.users
  | _, _ => True

/-- What is allowed keeps the invariant. -/
theorem PoolInv.act (hsetup : 0 < setup.poolSizeLimit) (hround : ∀ n, n ≤ setup.roundUp n)
    (hincrease : ∀ limit, limit ≤ setup.increase limit) (hinv : PoolInv s []) {label : Label}
    (hallowed : Allowed setup (.ok s) label) :
    ∃ s', PoolAllocator.act setup s label = .ok s' ∧ PoolInv s' [] := by
  cases label with
  | allocate alignment numBytes chunk =>
      obtain ⟨⟨k, hpow⟩, hpos, hbytes, hgrants⟩ := hallowed
      exact hinv.allocateRaw hsetup hround hpow hpos hbytes hgrants
  | deallocate ptr =>
      obtain ⟨user, huser, rfl⟩ := hallowed
      exact hinv.deallocateRaw hsetup hincrease huser
  | clear => exact hinv.clear hsetup
  | write user word =>
      exact ⟨_, rfl, hinv.listed, hinv.accounted.write hallowed word, hinv.length, hinv.positive⟩

/-- **Pooled chunks are neither lost nor handed out twice**, in every reached state. -/
theorem pooled_chunks_kept (setup : Setup) (mem : ℕ → ℕ) (hsetup : 0 < setup.poolSizeLimit)
    (hround : ∀ n, n ≤ setup.roundUp n) (hincrease : ∀ limit, limit ≤ setup.increase limit)
    {result : Except Fault State}
    (hreached : (system setup mem).Reaches (Allowed setup) result) :
    ∃ s, result = .ok s ∧
      (∃ ids, Listed s.pool s.records s.nextRecord s.lruHead s.lruTail ids) ∧
      s.pool.length ≤ s.poolSizeLimit ∧
      Accounted s.chunks s.mem s.users (pooled s.pool s.records) ∧
      ∀ chunk ∈ s.chunks, chunk.frees = [chunk.size] ∨
        chunk.frees = [] ∧ (s.users.map (chunkOf s.mem) ++ pooled s.pool s.records).count
          (chunk.ptr, chunk.size) = 1 := by
  have hkept : ∃ s, result = .ok s ∧ PoolInv s [] := by
    refine hreached.invariant (P := fun result => ∃ s, result = .ok s ∧ PoolInv s []) ?_ ?_
    · refine ⟨{ poolSizeLimit := setup.poolSizeLimit, mem }, if_neg fun h => h.2 hsetup,
        ⟨[], Listed.empty (fun _ => rfl) 0⟩, ⟨nofun, .refl _, nofun, .nil, nofun⟩, Nat.zero_le _,
        hsetup⟩
    · rintro _ label target - ⟨s, rfl, hinv⟩ hallowed htaken
      cases htaken
      exact hinv.act hsetup hround hincrease hallowed
  obtain ⟨s, rfl, hinv⟩ := hkept
  refine ⟨s, rfl, hinv.listed, hinv.length, hinv.accounted, ?_⟩
  intro chunk hchunk
  rcases hinv.accounted.freed chunk hchunk with hlive | hfreed
  · have hout : (chunk.ptr, chunk.size) ∈ handedOut s.chunks :=
      List.mem_map.mpr ⟨chunk, List.mem_filter.mpr ⟨hchunk, decide_eq_true hlive⟩, rfl⟩
    exact .inr ⟨hlive, hinv.accounted.count_eq_one hout⟩
  · exact .inl hfreed

/-- A user asks for 100 bytes at a multiple of 64. -/
theorem pooled_chunks_kept_one :
    ∃ s, act ⟨1, false, id, fun _ _ => false, id⟩ { poolSizeLimit := 1, mem := fun _ => 0 }
        (.allocate 64 100 4096) = .ok s ∧
      Accounted s.chunks s.mem s.users (pooled s.pool s.records) := by
  have hallowed : Allowed ⟨1, false, id, fun _ _ => false, id⟩
      (create ⟨1, false, id, fun _ _ => false, id⟩ fun _ => 0) (.allocate 64 100 4096) :=
    ⟨⟨6, rfl⟩, by decide, by decide, fun _ => ⟨by decide, by decide, nofun⟩⟩
  obtain ⟨s, hs, -, -, haccount, -⟩ :=
    pooled_chunks_kept ⟨1, false, id, fun _ _ => false, id⟩ (fun _ => 0) (by decide)
      (fun _ => Nat.le_refl _) (fun _ => Nat.le_refl _) (.step .init hallowed rfl)
  exact ⟨s, hs, haccount⟩

end Pooling

end ContainerScheduler.Analysis
