/-
# The chunks of the pool allocator

A chunk that is handed out by the sub-allocator has one user, or one record, and its prefix is
found from the pointer of the user. The chunks do not overlap, so what one user writes does not
reach the prefix of another one.
-/

import ContainerScheduler.Analysis.PooledRecords
import ContainerScheduler.Math.BitFields
import Mathlib.Data.List.Pairwise

namespace ContainerScheduler.Analysis

open Math
open Memory
open Memory.PoolAllocator

namespace Pooling

/-! ## Chunks and users -/

/-- The chunks that are handed out and not freed. -/
def handedOut (chunks : List PoolAllocator.Chunk) : List (ℕ × ℕ) :=
  (chunks.filter fun chunk => chunk.frees = []).map fun chunk => (chunk.ptr, chunk.size)

/-- What `FindPrefix` gives for a user, and the size that is found there. -/
def chunkOf (mem : ℕ → ℕ) (user : User) : ℕ × ℕ :=
  (findPrefix mem user.ptr, mem (findPrefix mem user.ptr))

/-- Two chunks do not overlap. -/
def Apart (chunk other : ℕ × ℕ) : Prop :=
  chunk.1 + chunk.2 ≤ other.1 ∨ other.1 + other.2 ≤ chunk.1

/-- An aligned chunk in the memory, with room for a prefix. -/
structure Spaced (chunk : ℕ × ℕ) : Prop where
  aligned : kPoolAlignment ∣ chunk.1
  room : kPoolAlignment < chunk.2
  fits : chunk.1 + chunk.2 ≤ 2 ^ 64

/-- The pointer is aligned as requested, and the bytes are in the chunk after the prefix. -/
structure Placed (mem : ℕ → ℕ) (user : User) : Prop where
  aligned : user.alignment ∣ user.ptr
  above : (chunkOf mem user).1 + kPoolAlignment ≤ user.ptr
  within : user.ptr + user.numBytes ≤ (chunkOf mem user).1 + (chunkOf mem user).2

/-- **The account.** The chunks that are handed out belong to users, or they are the others. -/
structure Accounted (chunks : List PoolAllocator.Chunk) (mem : ℕ → ℕ) (users : List User)
    (others : List (ℕ × ℕ)) : Prop where
  freed : ∀ chunk ∈ chunks, chunk.frees = [] ∨ chunk.frees = [chunk.size]
  outstanding : (handedOut chunks).Perm (users.map (chunkOf mem) ++ others)
  spaced : ∀ chunk ∈ handedOut chunks, Spaced chunk
  apart : (handedOut chunks).Pairwise Apart
  placed : ∀ user ∈ users, Placed mem user

theorem Apart.symm {chunk other : ℕ × ℕ} (hapart : Apart chunk other) : Apart other chunk :=
  Or.symm hapart

instance : Std.Symm Apart where
  symm _ _ := Apart.symm

/-- Chunks that do not overlap have different addresses. -/
theorem eq_of_fst_eq {chunks : List (ℕ × ℕ)} (hspaced : ∀ chunk ∈ chunks, Spaced chunk)
    (hapart : chunks.Pairwise Apart) {chunk other : ℕ × ℕ} (hchunk : chunk ∈ chunks)
    (hother : other ∈ chunks) (heq : chunk.1 = other.1) : chunk = other := by
  by_contra hne
  have hroom := (hspaced chunk hchunk).room
  have hroomOther := (hspaced other hother).room
  have hdisjoint : Apart chunk other := hapart.forall hchunk hother hne
  rcases hdisjoint with hbelow | habove <;> omega

/-! ## Prefixes -/

section Prefixes

variable {mem mem' : ℕ → ℕ} {user : User} {chunk : ℕ × ℕ} {alignment numBytes : ℕ}

/-- The prefix of a user depends on the memory between the chunk and the pointer. -/
theorem chunkOf_congr (hplaced : Placed mem user)
    (hsame : ∀ a, (chunkOf mem user).1 ≤ a → a < user.ptr → mem' a = mem a) :
    chunkOf mem' user = chunkOf mem user := by
  have habove := hplaced.above
  simp only [kPoolAlignment] at habove
  have hpointer : findPrefix mem' user.ptr = findPrefix mem user.ptr :=
    hsame _ (by omega) (by omega)
  have hsize : mem' (findPrefix mem user.ptr) = mem (findPrefix mem user.ptr) :=
    hsame _ (Nat.le_refl _) (by change (chunkOf mem user).1 < _; omega)
  rw [chunkOf, chunkOf, hpointer, hsize]

theorem Placed.congr (hplaced : Placed mem user)
    (hsame : ∀ a, (chunkOf mem user).1 ≤ a → a < user.ptr → mem' a = mem a) :
    Placed mem' user := by
  have heq := chunkOf_congr hplaced hsame
  refine ⟨hplaced.aligned, ?_, ?_⟩ <;> rw [heq]
  · exact hplaced.above
  · exact hplaced.within

/-- The bytes of a request with the prefix, and the alignment when the pointer is moved. -/
def requestBytes (alignment numBytes : ℕ) : ℕ :=
  (if alignment > kPoolAlignment then numBytes + alignment else numBytes) + kPoolAlignment

/-- The words before the pointer and at the chunk are a prefix. -/
theorem placed_of_stored {ptr : ℕ} (hptr : mem (ptr - 8) = chunk.1) (hsize : mem chunk.1 = chunk.2)
    (haligned : alignment ∣ ptr) (habove : chunk.1 + kPoolAlignment ≤ ptr)
    (hwithin : ptr + numBytes ≤ chunk.1 + chunk.2) :
    chunkOf mem ⟨ptr, numBytes, alignment⟩ = chunk ∧ Placed mem ⟨ptr, numBytes, alignment⟩ := by
  have hchunk : chunkOf mem ⟨ptr, numBytes, alignment⟩ = chunk := by
    rw [chunkOf, findPrefix, hptr, hsize]
  refine ⟨hchunk, haligned, ?_, ?_⟩ <;> rw [hchunk]
  · exact habove
  · exact hwithin

/-- A power of two above 16 rounds the pointer down to one that is behind the prefix. -/
theorem aligned_bounds {start k : ℕ} (hstart : kPoolAlignment ∣ start) (hk : 4 ≤ k) :
    start + 16 ≤ (start + 2 ^ k) / 2 ^ k * 2 ^ k ∧
      (start + 2 ^ k) / 2 ^ k * 2 ^ k ≤ start + 2 ^ k := by
  have hlower := Nat.lt_div_mul_add (a := start + 2 ^ k) (Nat.two_pow_pos k)
  obtain ⟨q, rfl⟩ := hstart
  obtain ⟨m, hm⟩ : (2 : ℕ) ^ 4 ∣ (kPoolAlignment * q + 2 ^ k) / 2 ^ k * 2 ^ k :=
    (pow_dvd_pow 2 hk).mul_left _
  refine ⟨?_, Nat.div_mul_le_self ..⟩
  simp only [kPoolAlignment] at hlower hm ⊢
  omega

/-- **A chunk is prepared** for a user: the pointer is aligned, and it leads to the prefix. -/
theorem prepareChunk_spec (mem : ℕ → ℕ) (hspaced : Spaced chunk) {k : ℕ} (hpow : alignment = 2 ^ k)
    (hpos : 0 < numBytes) (hbytes : requestBytes alignment numBytes ≤ chunk.2) :
    ∃ mem' ptr, prepareChunk mem chunk.1 alignment chunk.2 = .ok (mem', ptr) ∧
      chunkOf mem' ⟨ptr, numBytes, alignment⟩ = chunk ∧
      Placed mem' ⟨ptr, numBytes, alignment⟩ ∧
      ∀ a, a < chunk.1 ∨ chunk.1 + chunk.2 ≤ a → mem' a = mem a := by
  obtain ⟨haligned, hroom, hfits⟩ := hspaced
  have hwidth : kPoolAlignment = 2 ^ 4 := rfl
  have hbase : ∀ a, a < chunk.1 ∨ chunk.1 + chunk.2 ≤ a →
      Function.update (Function.update mem chunk.1 chunk.2) (chunk.1 + 8) chunk.1 a = mem a := by
    intro a ha
    rw [Function.update_of_ne (by omega), Function.update_of_ne (by omega)]
  rw [prepareChunk]
  by_cases hlarge : alignment > kPoolAlignment
  · rw [requestBytes, if_pos hlarge] at hbytes
    subst hpow
    have hk : 4 ≤ k := Nat.le_of_lt ((Nat.pow_lt_pow_iff_right (by decide)).mp (hwidth ▸ hlarge))
    have hwide : k ≤ 64 := (Nat.pow_le_pow_iff_right (by decide : 1 < 2)).mp (by omega)
    have hbounds := aligned_bounds ((Nat.dvd_add_right haligned).mpr (dvd_refl _)) hk
    have hpointer : (chunk.1 + kPoolAlignment + 2 ^ k) % 2 ^ 64 &&& (2 ^ 64 - 2 ^ k) =
        (chunk.1 + kPoolAlignment + 2 ^ k) / 2 ^ k * 2 ^ k := by
      rw [Nat.mod_eq_of_lt (by omega), BitField.and_mask_high (by omega) hwide]
    have hmultiple : 2 ^ k ∣ (chunk.1 + kPoolAlignment + 2 ^ k) / 2 ^ k * 2 ^ k := dvd_mul_left ..
    simp only [if_pos hlarge, hpointer]
    generalize (chunk.1 + kPoolAlignment + 2 ^ k) / 2 ^ k * 2 ^ k = ptr at hbounds hmultiple ⊢
    simp only [kPoolAlignment] at *
    refine ⟨_, ptr, if_pos (by omega), ?_⟩
    rw [← and_assoc]
    refine ⟨placed_of_stored (Function.update_self ..) ?_ hmultiple ?_ ?_, ?_⟩
    · rw [Function.update_of_ne (by omega), Function.update_of_ne (by omega), Function.update_self]
    · simp only [kPoolAlignment]
      omega
    · omega
    · intro a ha
      rw [Function.update_of_ne (by omega)]
      exact hbase a ha
  · rw [requestBytes, if_neg hlarge] at hbytes
    simp only [if_neg hlarge]
    refine ⟨_, chunk.1 + kPoolAlignment, if_pos (Nat.le_refl _), ?_⟩
    rw [← and_assoc]
    refine ⟨placed_of_stored (Function.update_self ..) ?_ ?_ (Nat.le_refl _) (by omega), hbase⟩
    · rw [Function.update_of_ne (by omega), Function.update_self]
    · rw [hpow, hwidth] at hlarge
      have hk : k ≤ 4 :=
        (Nat.pow_le_pow_iff_right (by decide : 1 < 2)).mp (Nat.le_of_not_lt hlarge)
      have hdvd : alignment ∣ kPoolAlignment := hpow ▸ hwidth ▸ pow_dvd_pow 2 hk
      exact Nat.dvd_add (hdvd.trans haligned) hdvd

end Prefixes

/-! ## Handing out and freeing -/

section Chunks

variable {chunks : List PoolAllocator.Chunk} {chunk : PoolAllocator.Chunk} {ptr size : ℕ}

theorem handedOut_cons_live (hlive : chunk.frees = []) (chunks : List PoolAllocator.Chunk) :
    handedOut (chunk :: chunks) = (chunk.ptr, chunk.size) :: handedOut chunks := by
  rw [handedOut, List.filter_cons, if_pos (decide_eq_true hlive)]
  rfl

theorem handedOut_cons_freed (hfreed : chunk.frees ≠ []) (chunks : List PoolAllocator.Chunk) :
    handedOut (chunk :: chunks) = handedOut chunks := by
  rw [handedOut, List.filter_cons, if_neg fun hlive => hfreed (of_decide_eq_true hlive)]
  rfl

theorem handedOut_append (chunks : List PoolAllocator.Chunk) (ptr size : ℕ) :
    handedOut (chunks ++ [⟨ptr, size, []⟩]) = handedOut chunks ++ [(ptr, size)] := by
  rw [handedOut, List.filter_append, List.map_append, handedOut]
  rfl

/-- The chunk that is handed out at an address is freed, and no other one. -/
theorem exists_freeChunk {allocated : ℕ} (hmem : (ptr, allocated) ∈ handedOut chunks) :
    ∃ chunks' allocated', freeChunk ptr size chunks = some chunks' ∧
      (handedOut chunks).Perm ((ptr, allocated') :: handedOut chunks') ∧
      ∀ chunk ∈ chunks', chunk ∈ chunks ∨ chunk = ⟨ptr, allocated', [size]⟩ := by
  induction chunks with
  | nil => cases hmem
  | cons chunk chunks ih =>
      rw [freeChunk]
      split_ifs with hfound
      · obtain ⟨rfl, hlive⟩ := hfound
        refine ⟨_, chunk.size, rfl, ?_, ?_⟩
        · rw [handedOut_cons_live hlive, handedOut_cons_freed (List.cons_ne_nil size [])]
        · intro other hother
          rcases List.mem_cons.mp hother with rfl | hother
          · exact .inr rfl
          · exact .inl (List.mem_cons_of_mem _ hother)
      · by_cases hlive : chunk.frees = []
        · rw [handedOut_cons_live hlive] at hmem
          have hbehind : (ptr, allocated) ∈ handedOut chunks :=
            (List.mem_cons.mp hmem).resolve_left
              fun heq => hfound ⟨(congrArg Prod.fst heq).symm, hlive⟩
          obtain ⟨chunks', allocated', hfree, hperm, hkept⟩ := ih hbehind
          refine ⟨chunk :: chunks', allocated', by rw [hfree, Option.map_some], ?_, ?_⟩
          · rw [handedOut_cons_live hlive, handedOut_cons_live hlive]
            exact (hperm.cons _).trans (.swap ..)
          · intro other hother
            rcases List.mem_cons.mp hother with rfl | hother
            · exact .inl List.mem_cons_self
            · exact (hkept other hother).imp_left (List.mem_cons_of_mem _)
        · rw [handedOut_cons_freed hlive] at hmem
          obtain ⟨chunks', allocated', hfree, hperm, hkept⟩ := ih hmem
          refine ⟨chunk :: chunks', allocated', by rw [hfree, Option.map_some], ?_, ?_⟩
          · rw [handedOut_cons_freed hlive, handedOut_cons_freed hlive]
            exact hperm
          · intro other hother
            rcases List.mem_cons.mp hother with rfl | hother
            · exact .inl List.mem_cons_self
            · exact (hkept other hother).imp_left (List.mem_cons_of_mem _)

end Chunks

/-! ## The account -/

namespace Accounted

variable {chunks : List PoolAllocator.Chunk} {mem : ℕ → ℕ} {users : List User} {others rest : List (ℕ × ℕ)}
  {ptr size : ℕ}

theorem perm (haccount : Accounted chunks mem users others) (hperm : others.Perm rest) :
    Accounted chunks mem users rest where
  freed := haccount.freed
  outstanding := haccount.outstanding.trans (hperm.append_left _)
  spaced := haccount.spaced
  apart := haccount.apart
  placed := haccount.placed

/-- A chunk that is not a user's is freed, with the size that it was allocated with. -/
theorem free (haccount : Accounted chunks mem users ((ptr, size) :: others)) :
    ∃ chunks', freeChunk ptr size chunks = some chunks' ∧
      Accounted chunks' mem users others := by
  have hmem : (ptr, size) ∈ handedOut chunks :=
    haccount.outstanding.mem_iff.mpr (List.mem_append_right _ List.mem_cons_self)
  obtain ⟨chunks', allocated, hfree, hperm, hkept⟩ := @exists_freeChunk _ _ size _ hmem
  have hsame : (ptr, allocated) = (ptr, size) :=
    eq_of_fst_eq haccount.spaced haccount.apart (hperm.mem_iff.mpr List.mem_cons_self) hmem rfl
  rw [hsame] at hperm
  refine ⟨chunks', hfree, ?_, ?_, ?_, ?_, haccount.placed⟩
  · intro chunk hchunk
    rcases hkept chunk hchunk with hold | rfl
    · exact haccount.freed chunk hold
    · exact .inr (congrArg (fun chunk => [chunk.2]) hsame.symm)
  · exact (hperm.symm.trans (haccount.outstanding.trans List.perm_middle)).cons_inv
  · intro chunk hchunk
    exact haccount.spaced chunk (hperm.mem_iff.mpr (List.mem_cons_of_mem _ hchunk))
  · exact (List.pairwise_cons.mp (haccount.apart.perm hperm Apart.symm)).2

/-- The sub-allocator hands out a new chunk. -/
theorem grant (haccount : Accounted chunks mem users others) (hspaced : Spaced (ptr, size))
    (hapart : ∀ chunk ∈ handedOut chunks, Apart chunk (ptr, size)) :
    Accounted (chunks ++ [⟨ptr, size, []⟩]) mem users ((ptr, size) :: others) where
  freed := by
    intro chunk hchunk
    rcases List.mem_append.mp hchunk with hold | hnew
    · exact haccount.freed chunk hold
    · exact .inl (List.mem_singleton.mp hnew ▸ rfl)
  outstanding := by
    rw [handedOut_append]
    exact (List.perm_append_singleton ..).trans
      ((haccount.outstanding.cons _).trans List.perm_middle.symm)
  spaced := by
    intro chunk hchunk
    rw [handedOut_append] at hchunk
    rcases List.mem_append.mp hchunk with hold | hnew
    · exact haccount.spaced chunk hold
    · exact List.mem_singleton.mp hnew ▸ hspaced
  apart := by
    rw [handedOut_append, List.pairwise_append]
    refine ⟨haccount.apart, List.pairwise_singleton .., ?_⟩
    intro chunk hchunk other hother
    rw [List.mem_singleton.mp hother]
    exact hapart chunk hchunk
  placed := haccount.placed

/-- Memory changes that reach no prefix of a user. -/
theorem set_mem (haccount : Accounted chunks mem users others) {mem' : ℕ → ℕ}
    (hsame : ∀ user ∈ users, ∀ a, (chunkOf mem user).1 ≤ a → a < user.ptr → mem' a = mem a) :
    Accounted chunks mem' users others where
  freed := haccount.freed
  outstanding := by
    have hmap : users.map (chunkOf mem') = users.map (chunkOf mem) :=
      List.map_congr_left fun user huser =>
        chunkOf_congr (haccount.placed user huser) (hsame user huser)
    rw [hmap]
    exact haccount.outstanding
  spaced := haccount.spaced
  apart := haccount.apart
  placed user huser := (haccount.placed user huser).congr (hsame user huser)

theorem pairwise_apart (haccount : Accounted chunks mem users others) :
    (users.map (chunkOf mem) ++ others).Pairwise Apart :=
  haccount.apart.perm haccount.outstanding Apart.symm

/-- What is outside a chunk does not reach the prefix of a user with another one. -/
theorem set_mem_chunk (haccount : Accounted chunks mem users ((ptr, size) :: others))
    {mem' : ℕ → ℕ} (hsame : ∀ a, a < ptr ∨ ptr + size ≤ a → mem' a = mem a) :
    Accounted chunks mem' users ((ptr, size) :: others) := by
  apply haccount.set_mem
  intro user huser a hlower hupper
  have hapart : Apart (chunkOf mem user) (ptr, size) :=
    (List.pairwise_append.mp haccount.pairwise_apart).2.2 _ (List.mem_map_of_mem huser) _
      List.mem_cons_self
  have hwithin := (haccount.placed user huser).within
  rcases hapart with hbelow | habove
  · exact hsame a (.inl (by omega))
  · exact hsame a (.inr (by omega))

/-- **A chunk goes to a user.** -/
theorem take {alignment numBytes k : ℕ}
    (haccount : Accounted chunks mem users ((ptr, size) :: others)) (hpow : alignment = 2 ^ k)
    (hpos : 0 < numBytes) (hbytes : requestBytes alignment numBytes ≤ size) :
    ∃ mem' userPtr, prepareChunk mem ptr alignment size = .ok (mem', userPtr) ∧
      Accounted chunks mem' (⟨userPtr, numBytes, alignment⟩ :: users) others := by
  have hspaced : Spaced (ptr, size) := haccount.spaced (ptr, size)
    (haccount.outstanding.mem_iff.mpr (List.mem_append_right _ List.mem_cons_self))
  obtain ⟨mem', userPtr, hprepare, hchunk, hplaced, hsame⟩ :=
    prepareChunk_spec mem hspaced hpow hpos hbytes
  have hwritten := haccount.set_mem_chunk hsame
  refine ⟨mem', userPtr, hprepare, hwritten.freed, ?_, hwritten.spaced, hwritten.apart, ?_⟩
  · rw [List.map_cons, hchunk]
    exact hwritten.outstanding.trans List.perm_middle
  · intro user huser
    rcases List.mem_cons.mp huser with rfl | huser
    · exact hplaced
    · exact hwritten.placed user huser

/-- **A user gives its chunk back.** -/
theorem give_back (haccount : Accounted chunks mem users others) {user : User}
    (huser : user ∈ users) :
    Accounted chunks mem (users.eraseP fun other => other.ptr = user.ptr)
      (chunkOf mem user :: others) where
  freed := haccount.freed
  outstanding := by
    obtain ⟨first, front, back, -, hfirst, rfl, herase⟩ :=
      @List.exists_of_eraseP _ (fun other : User => other.ptr = user.ptr) _ _ huser
        (decide_eq_true rfl)
    have hsame : chunkOf mem first = chunkOf mem user := by
      rw [chunkOf, of_decide_eq_true hfirst, chunkOf]
    have hperm := haccount.outstanding
    rw [List.map_append, List.map_cons, hsame, List.append_assoc, List.cons_append] at hperm
    rw [herase, List.map_append, List.append_assoc]
    exact hperm.trans (List.perm_middle.symm.append_left _)
  spaced := haccount.spaced
  apart := haccount.apart
  placed other hother := haccount.placed other (List.mem_of_mem_eraseP hother)

/-- **A user writes** to its bytes only. -/
theorem write (haccount : Accounted chunks mem users others) {user : User} (huser : user ∈ users)
    (word : ℕ → ℕ) :
    Accounted chunks
      (fun a => if user.ptr ≤ a ∧ a < user.ptr + user.numBytes then word a else mem a)
      users others := by
  apply haccount.set_mem
  intro other hother a hlower hupper
  apply if_neg
  rintro ⟨hstart, hstop⟩
  have hwithin := (haccount.placed user huser).within
  have habove := (haccount.placed user huser).above
  have hwithinOther := (haccount.placed other hother).within
  by_cases heq : other = user
  · subst heq
    omega
  · have hpairs : users.Pairwise fun first second => Apart (chunkOf mem first) (chunkOf mem second) :=
      List.pairwise_map.mp (List.pairwise_append.mp haccount.pairwise_apart).1
    have hapart : Apart (chunkOf mem other) (chunkOf mem user) :=
      @List.Pairwise.forall _ _ _ ⟨fun _ _ => Apart.symm⟩ hpairs _ hother _ huser heq
    rcases hapart with hbelow | hbehind <;> omega

theorem count_eq_one (haccount : Accounted chunks mem users others) {chunk : ℕ × ℕ}
    (hchunk : chunk ∈ handedOut chunks) :
    (users.map (chunkOf mem) ++ others).count chunk = 1 := by
  rw [← haccount.outstanding.count_eq]
  apply List.count_eq_one_of_mem _ hchunk
  apply haccount.apart.imp_of_mem
  intro first second hfirst _ hapart heq
  subst heq
  have hroom := (haccount.spaced first hfirst).room
  rcases hapart with hbelow | habove <;> omega

end Accounted

end Pooling

end ContainerScheduler.Analysis
