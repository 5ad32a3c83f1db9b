/-
# Arena plans do not overlap

The allocations of an arena are kept in the order of their offsets, each one ending before the next
begins. A new one goes between those that end before it and those that begin after it. A buffer is
larger than the plan by twice the alignment of the arena, so that its aligned part holds the plan,
and what is copied into a larger buffer is all that was planned.
-/

import ContainerScheduler.Arena.SimpleMemoryArena
import Mathlib.Data.List.Basic

namespace ContainerScheduler.Analysis

open Math
open Arena

/-! ## Offsets -/

theorem sizeT_of_lt {value : ℕ} (hlt : value < 2 ^ 64) : sizeT value = value := Nat.mod_eq_of_lt hlt

theorem alignTo_spec {alignment offset : ℕ} (hpositive : 0 < alignment)
    (hroom : offset + alignment ≤ 2 ^ 64) :
    offset ≤ alignTo alignment offset ∧ alignTo alignment offset < offset + alignment ∧
      alignment ∣ alignTo alignment offset := by
  rw [alignTo]
  split_ifs with hzero
  · exact ⟨le_rfl, Nat.lt_add_of_pos_right hpositive, Nat.dvd_of_mod_eq_zero hzero⟩
  · have hlt := Nat.mod_lt offset hpositive
    have hsum : offset + (alignment - offset % alignment) =
        alignment * (offset / alignment + 1) := by
      have hdivision := Nat.div_add_mod offset alignment
      rw [Nat.mul_add, Nat.mul_one]
      omega
    rw [sizeT_of_lt (by omega)]
    refine ⟨Nat.le_add_right _ _, by omega, ?_⟩
    rw [hsum]
    exact Nat.dvd_mul_right _ _

/-! ## Plans -/

/-- Each allocation ends before the next begins. -/
def PlanInOrder (allocs : List ArenaAlloc) : Prop :=
  allocs.Pairwise fun first second => first.finish ≤ second.offset

theorem finish_le_currentTop {arena : SimpleMemoryArena} (horder : PlanInOrder arena.allocs)
    (hlt : ∀ alloc ∈ arena.allocs, alloc.finish < 2 ^ 64) :
    ∀ alloc ∈ arena.allocs, alloc.finish ≤ arena.currentTop := by
  intro alloc halloc
  rw [SimpleMemoryArena.currentTop]
  rcases List.eq_nil_or_concat' arena.allocs with hnil | ⟨front, last, heq⟩
  · rw [hnil] at halloc
    exact absurd halloc List.not_mem_nil
  · rw [heq] at halloc hlt horder
    rw [heq, List.getLast?_concat]
    change alloc.finish ≤ sizeT (last.finish)
    rw [sizeT_of_lt (hlt last List.mem_concat_self)]
    rcases List.mem_append.mp halloc with hfront | hlast
    · have hbefore := (List.pairwise_append.mp horder).2.2 alloc hfront last
        (List.mem_singleton_self last)
      exact hbefore.trans (Nat.le_add_right _ _)
    · rw [List.mem_singleton.mp hlast]

/-! ## Allocating -/

/-- An allocation of a size fits at this place in the list. -/
structure GapFor (alignment size bound : ℕ) (allocs : List ArenaAlloc) (offset insertion : ℕ) :
    Prop where
  split : ∃ front back, allocs = front ++ back ∧ insertion = front.length ∧
    (∀ alloc ∈ front, alloc.finish ≤ offset) ∧ ∀ alloc ∈ back, offset + size ≤ alloc.offset
  aligned : alignment ∣ offset
  le_bound : offset + size ≤ bound

/-- The best fit stays one: `done` are the allocations before the gap that is looked at. -/
theorem bestFit_spec {alignment size top bound : ℕ} (hpositive : 0 < alignment)
    (htop : top + alignment + size ≤ bound + 1) (hbound : bound < 2 ^ 64)
    (done rest : List ArenaAlloc)
    {currentOffset : ℕ} {best : BestFit} (hcurrent : currentOffset ≤ top)
    (hdone : ∀ alloc ∈ done, alloc.finish ≤ currentOffset)
    (hrest : ∀ alloc ∈ rest, currentOffset ≤ alloc.offset ∧ alloc.finish ≤ top)
    (horder : PlanInOrder rest)
    (hbest : GapFor alignment size bound (done ++ rest) best.offset best.insertion) :
    GapFor alignment size bound (done ++ rest)
      (bestFit alignment size rest done.length currentOffset best).offset
      (bestFit alignment size rest done.length currentOffset best).insertion := by
  induction rest generalizing done currentOffset best with
  | nil => exact hbest
  | cons alloc rest ih =>
      rcases List.forall_mem_cons.mp hrest with ⟨⟨hstart, hfinish⟩, hlater⟩
      rcases List.pairwise_cons.mp horder with ⟨hnext, horder'⟩
      rcases alignTo_spec hpositive (by omega : currentOffset + alignment ≤ 2 ^ 64) with
        ⟨hge, hlt, hdvd⟩
      have hassoc : done ++ alloc :: rest = (done ++ [alloc]) ++ rest := by
        rw [List.append_assoc, List.singleton_append]
      have hafter : sizeT (alloc.offset + alloc.size) = alloc.finish := by
        have hle : alloc.offset + alloc.size ≤ top := hfinish
        exact sizeT_of_lt (by omega)
      have hlength : done.length + 1 = (done ++ [alloc]).length := by
        rw [List.length_append, List.length_singleton]
      rw [bestFit, hafter, hlength, hassoc]
      apply ih (done ++ [alloc]) hfinish
      · intro other hother
        rcases List.mem_append.mp hother with hother | hother
        · exact (hdone other hother).trans (hstart.trans (Nat.le_add_right _ _))
        · rw [List.mem_singleton.mp hother]
      · intro other hother
        exact ⟨hnext other hother, (hlater other hother).2⟩
      · exact horder'
      · rw [← hassoc]
        split_ifs with hgap
        · rw [sizeT_of_lt (by omega)] at hgap
          refine ⟨⟨done, alloc :: rest, rfl, rfl, ?_, ?_⟩, hdvd, ?_⟩
          · intro other hother
            exact (hdone other hother).trans hge
          · intro other hother
            rcases List.mem_cons.mp hother with rfl | hother
            · exact hgap.1
            · exact hgap.1.trans ((Nat.le_add_right _ _).trans (hnext other hother))
          · change alignTo alignment currentOffset + size ≤ bound
            omega
        · exact hbest

theorem insertIdx_append {α : Type} (front back : List α) (x : α) :
    (front ++ back).insertIdx front.length x = front ++ x :: back := by
  induction front with
  | nil => rfl
  | cons y front ih => exact congrArg (y :: ·) ih

/-- What `Allocate` makes of a plan: the new allocation is put between those that end before it and
those that begin after it. -/
structure Allocated (alignment size bound : ℕ) (arena : SimpleMemoryArena) (alloc : ArenaAlloc)
    (next : SimpleMemoryArena) : Prop where
  split : ∃ front back, arena.allocs = front ++ back ∧ next.allocs = front ++ alloc :: back ∧
    (∀ other ∈ front, other.finish ≤ alloc.offset) ∧ ∀ other ∈ back, alloc.finish ≤ other.offset
  size_eq : alloc.size = size
  aligned : alignment ∣ alloc.offset
  finish_le : alloc.finish ≤ bound
  highWaterMark_eq : next.highWaterMark = max arena.highWaterMark alloc.finish
  rest_eq : next = { arena with highWaterMark := next.highWaterMark, allocs := next.allocs }

theorem allocate_spec {arena : SimpleMemoryArena} {alignment size bound : ℕ}
    (halignment : alignment ≤ arena.arenaAlignment) (hpositive : 0 < alignment) (hsize : size ≠ 0)
    (horder : PlanInOrder arena.allocs) (hlt : ∀ alloc ∈ arena.allocs, alloc.finish < 2 ^ 64)
    (htop : arena.currentTop + alignment + size ≤ bound + 1) (hbound : bound < 2 ^ 64) :
    ∃ alloc next, arena.allocate alignment size = (.ok, some alloc, next) ∧
      Allocated alignment size bound arena alloc next := by
  rcases alignTo_spec hpositive (by omega : arena.currentTop + alignment ≤ 2 ^ 64) with
    ⟨hge, hless, hdvd⟩
  have hfinish := finish_le_currentTop horder hlt
  have hinit : GapFor alignment size bound arena.allocs
      (alignTo alignment arena.currentTop) arena.allocs.length := by
    refine ⟨⟨arena.allocs, [], (List.append_nil _).symm, rfl, ?_, nofun⟩, hdvd, by omega⟩
    intro alloc halloc
    exact (hfinish alloc halloc).trans hge
  have hbest : GapFor alignment size bound arena.allocs
      (bestFit alignment size arena.allocs 0 0
        ⟨alignTo alignment arena.currentTop, 2 ^ 64 - 1, arena.allocs.length⟩).offset
      (bestFit alignment size arena.allocs 0 0
        ⟨alignTo alignment arena.currentTop, 2 ^ 64 - 1, arena.allocs.length⟩).insertion :=
    bestFit_spec hpositive htop hbound [] arena.allocs (Nat.zero_le _) nofun
      (fun alloc halloc => ⟨Nat.zero_le _, hfinish alloc halloc⟩) horder hinit
  rcases hbest with ⟨⟨front, back, hsplit, hinsertion, hfront, hback⟩, hdvd', hle⟩
  rw [SimpleMemoryArena.allocate, if_neg (Nat.not_lt.mpr halignment), if_neg hsize]
  refine ⟨_, _, rfl, ⟨front, back, hsplit, ?_, hfront, hback⟩, rfl, hdvd', hle, ?_, rfl⟩
  · simp only
    rw [hinsertion, hsplit, insertIdx_append]
  · simp only
    rw [sizeT_of_lt (by omega)]
    rfl

/-! ## Freeing -/

theorem eraseAllocs_of_forall_ne {alloc : ArenaAlloc} {allocs : List ArenaAlloc}
    (hne : ∀ other ∈ allocs, other.offset ≠ alloc.offset) :
    eraseAllocs alloc allocs = (some 0, allocs) := by
  induction allocs with
  | nil => rfl
  | cons other rest ih =>
      rcases List.forall_mem_cons.mp hne with ⟨hother, hrest⟩
      rw [eraseAllocs, if_neg hother, ih hrest]

/-- Two allocations of a plan do not begin at the same offset. -/
theorem eraseAllocs_of_mem {alloc : ArenaAlloc} {allocs : List ArenaAlloc}
    (horder : PlanInOrder allocs) (hpositive : ∀ other ∈ allocs, 0 < other.size)
    (halloc : alloc ∈ allocs) : eraseAllocs alloc allocs = (some 1, allocs.erase alloc) := by
  induction allocs with
  | nil => exact absurd halloc List.not_mem_nil
  | cons other rest ih =>
      rcases List.pairwise_cons.mp horder with ⟨hnext, horder'⟩
      rcases List.forall_mem_cons.mp hpositive with ⟨hother, hrest⟩
      by_cases heq : other = alloc
      · subst heq
        have hne : ∀ later ∈ rest, later.offset ≠ other.offset := by
          intro later hlater
          have hle : other.offset + other.size ≤ later.offset := hnext later hlater
          omega
        rw [eraseAllocs, if_pos rfl, if_pos rfl, eraseAllocs_of_forall_ne hne, List.erase_cons_head]
        rfl
      · have hmem : alloc ∈ rest := (List.mem_cons.mp halloc).resolve_left (Ne.symm heq)
        have hle : other.offset + other.size ≤ alloc.offset := hnext alloc hmem
        rw [eraseAllocs, if_neg (by omega), ih horder' hrest hmem,
          List.erase_cons_tail (by simpa using heq)]

theorem deallocate_of_mem {arena : SimpleMemoryArena} {alloc : ArenaAlloc}
    (horder : PlanInOrder arena.allocs) (hpositive : ∀ other ∈ arena.allocs, 0 < other.size)
    (halloc : alloc ∈ arena.allocs) :
    arena.deallocate alloc = (.ok, { arena with allocs := arena.allocs.erase alloc }) := by
  rw [SimpleMemoryArena.deallocate, if_neg (hpositive alloc halloc).ne',
    eraseAllocs_of_mem horder hpositive halloc]
  rfl

/-! ## Committing -/

/-- The buffer, if there is one, begins less than the alignment before its aligned part. -/
structure BufferOk (arena : SimpleMemoryArena) : Prop where
  none_size : arena.underlyingBuffer = none → arena.underlyingBufferSize = 0
  some_ptr : ∀ base, arena.underlyingBuffer = some base →
    base ≤ arena.underlyingBufferAlignedPtr ∧
      arena.underlyingBufferAlignedPtr < base + arena.arenaAlignment

theorem requiredBufferSize_eq {arena : SimpleMemoryArena}
    (hlt : arena.highWaterMark + 2 * arena.arenaAlignment < 2 ^ 64) :
    arena.requiredBufferSize = arena.highWaterMark + 2 * arena.arenaAlignment := by
  rw [SimpleMemoryArena.requiredBufferSize, sizeT_of_lt (by omega)]
  omega

/-- What `Commit` makes of an arena: a buffer for its plan, and in it the bytes of what was in the
plan at the last `Commit`. -/
structure Committed (arena : SimpleMemoryArena) (memory : Bytes) (next : SimpleMemoryArena)
    (memory' : Bytes) : Prop where
  committed : next.committed = true
  allocs_eq : next.allocs = arena.allocs
  highWaterMark_eq : next.highWaterMark = arena.highWaterMark
  alignment_eq : next.arenaAlignment = arena.arenaAlignment
  buffer : BufferOk next
  isSome : next.underlyingBuffer.isSome = true
  size_le : arena.highWaterMark + 2 * arena.arenaAlignment ≤ next.underlyingBufferSize
  preserved : 0 < arena.highWaterMark → ∀ index,
    index + 2 * arena.arenaAlignment < arena.underlyingBufferSize →
    memory' (next.underlyingBufferAlignedPtr + index) =
      memory (arena.underlyingBufferAlignedPtr + index)

theorem commit_spec {arena : SimpleMemoryArena} {address : ℕ} (memory : Bytes)
    (hpositive : 0 < arena.arenaAlignment)
    (hlt : arena.highWaterMark + 2 * arena.arenaAlignment < 2 ^ 64) (hbuffer : BufferOk arena)
    (haddress : address + arena.requiredBufferSize ≤ 2 ^ 64) :
    ∃ next memory', arena.commit address memory = (.ok, next, memory') ∧
      Committed arena memory next memory' := by
  have hrequired := requiredBufferSize_eq hlt
  rw [hrequired] at haddress
  rw [SimpleMemoryArena.commit, hrequired]
  by_cases hgrow : arena.underlyingBufferSize < arena.highWaterMark + 2 * arena.arenaAlignment
  · rcases alignTo_spec hpositive (by omega : address + arena.arenaAlignment ≤ 2 ^ 64) with
      ⟨hge, hless, -⟩
    rw [if_pos hgrow]
    refine ⟨_, _, rfl, rfl, rfl, rfl, rfl, ⟨nofun, ?_⟩, rfl, le_rfl, ?_⟩
    · rintro base hbase
      rcases Option.some.inj hbase with rfl
      exact ⟨hge, hless⟩
    · intro hmark index hindex
      rcases hbase : arena.underlyingBuffer with _ | base
      · have hzero := hbuffer.none_size hbase
        omega
      · rcases hbuffer.some_ptr base hbase with ⟨hbelow, habove⟩
        have hcopied : index < min (base + arena.underlyingBufferSize -
            arena.underlyingBufferAlignedPtr) (address + (arena.highWaterMark +
              2 * arena.arenaAlignment) - alignTo arena.arenaAlignment address) := by
          apply lt_min <;> omega
        have hold : 0 < arena.underlyingBufferSize := by omega
        simp only [if_pos (And.intro hmark hold), SimpleMemoryArena.copyBytes, Option.getD_some]
        rw [if_pos ⟨Nat.le_add_right _ _, Nat.add_lt_add_left hcopied _⟩, Nat.add_sub_cancel_left]
  · have hsome : arena.underlyingBuffer.isSome = true := by
      rcases hbase : arena.underlyingBuffer with _ | base
      · have hzero := hbuffer.none_size hbase
        omega
      · rfl
    rw [if_neg hgrow, if_pos hsome]
    exact ⟨_, _, rfl, rfl, rfl, rfl, rfl, ⟨hbuffer.none_size, hbuffer.some_ptr⟩, hsome,
      Nat.le_of_not_lt hgrow, fun _ _ _ => rfl⟩

/-! ## Every run -/

/-- What the callers of an arena promise: alignments are positive, the sums of the offset after the
last allocation, the alignment, the size and the padding of the buffer stay below `2 ^ 64`, only
live or empty allocations are freed, and a new buffer ends within the address space. -/
def ArenaCallOk (arenaAlignment : ℕ) (state : ArenaState) : ArenaCall → Prop
  | .allocate alignment size => 0 < alignment ∧ (alignment ≤ arenaAlignment → size ≠ 0 →
      state.arena.currentTop + alignment + size + 2 * arenaAlignment ≤ 2 ^ 64)
  | .deallocate alloc => alloc.size = 0 ∨ alloc ∈ state.live.map Prod.snd
  | .commit address => address + state.arena.requiredBufferSize ≤ 2 ^ 64
  | _ => True

instance (arenaAlignment : ℕ) (state : ArenaState) (call : ArenaCall) :
    Decidable (ArenaCallOk arenaAlignment state call) := by
  rcases call with _ | _ | _ | _ | _ | _ <;> unfold ArenaCallOk <;> infer_instance

/-- Between two calls. -/
structure ArenaInv (arenaAlignment : ℕ) (state : ArenaState) : Prop where
  alignment_eq : state.arena.arenaAlignment = arenaAlignment
  inOrder : PlanInOrder state.arena.allocs
  positive : ∀ alloc ∈ state.arena.allocs, 0 < alloc.size
  finish_le : ∀ alloc ∈ state.arena.allocs, alloc.finish ≤ state.arena.highWaterMark
  mark_lt : state.arena.highWaterMark + 2 * arenaAlignment < 2 ^ 64
  live_perm : (state.live.map Prod.snd).Perm state.arena.allocs
  aligned : ∀ entry ∈ state.live, entry.1 ∣ entry.2.offset
  buffer : BufferOk state.arena
  resolved_sublist : state.resolved.Sublist state.arena.allocs
  resolved_in : ∀ alloc ∈ state.resolved, state.arena.committed = true ∧
    alloc.finish + 2 * arenaAlignment ≤ state.arena.underlyingBufferSize

namespace ArenaInv

variable {arenaAlignment : ℕ} {state : ArenaState}

theorem init (hlt : 2 * arenaAlignment < 2 ^ 64) :
    ArenaInv arenaAlignment (memoryArena arenaAlignment).init := by
  constructor
  · rfl
  · exact .nil
  · exact nofun
  · exact nofun
  · exact (Nat.zero_add _).trans_lt hlt
  · exact .nil
  · exact nofun
  · exact ⟨fun _ => rfl, nofun⟩
  · exact .slnil
  · exact nofun

section

variable (inv : ArenaInv arenaAlignment state)

include inv

theorem finish_lt {alloc : ArenaAlloc} (halloc : alloc ∈ state.arena.allocs) :
    alloc.finish < 2 ^ 64 := by
  have hle := inv.finish_le alloc halloc
  have hlt := inv.mark_lt
  omega

theorem allocated {alignment size bound : ℕ} (hsize : size ≠ 0)
    (hbound : bound + 2 * arenaAlignment < 2 ^ 64) {alloc : ArenaAlloc} {next : SimpleMemoryArena}
    (hnext : Allocated alignment size bound state.arena alloc next) :
    ArenaInv arenaAlignment
      { state with arena := next, live := state.live ++ [(alignment, alloc)] } := by
  rcases hnext.split with ⟨front, back, hbefore, hafter, hfront, hback⟩
  have hmark := hnext.highWaterMark_eq
  have hmem : ∀ {other}, other ∈ next.allocs → other = alloc ∨ other ∈ state.arena.allocs := by
    intro other hother
    rw [hafter, List.mem_append, List.mem_cons] at hother
    rw [hbefore, List.mem_append]
    rcases hother with hother | rfl | hother
    · exact .inr (.inl hother)
    · exact .inl rfl
    · exact .inr (.inr hother)
  have horder := inv.inOrder
  rw [hbefore] at horder
  rcases List.pairwise_append.mp horder with ⟨hordered, hordered', hacross⟩
  have hperm : (alloc :: state.arena.allocs).Perm next.allocs := by
    rw [hbefore, hafter]
    exact List.perm_middle.symm
  have hrest := hnext.rest_eq
  constructor
  · rw [hrest]
    exact inv.alignment_eq
  · change PlanInOrder next.allocs
    rw [PlanInOrder, hafter, List.pairwise_append, List.pairwise_cons]
    refine ⟨hordered, ⟨hback, hordered'⟩, ?_⟩
    intro first hfirst second hsecond
    rcases List.mem_cons.mp hsecond with rfl | hsecond
    · exact hfront first hfirst
    · exact hacross first hfirst second hsecond
  · intro other hother
    rcases hmem hother with rfl | hother
    · rw [hnext.size_eq]
      exact Nat.pos_of_ne_zero hsize
    · exact inv.positive other hother
  · intro other hother
    change other.finish ≤ next.highWaterMark
    rw [hmark]
    rcases hmem hother with rfl | hother
    · exact le_max_right _ _
    · exact (inv.finish_le other hother).trans (le_max_left _ _)
  · change next.highWaterMark + 2 * arenaAlignment < 2 ^ 64
    have hfinish := hnext.finish_le
    have hlt := inv.mark_lt
    rw [hmark]
    omega
  · change ((state.live ++ [(alignment, alloc)]).map Prod.snd).Perm next.allocs
    rw [List.map_append, List.map_singleton]
    exact (List.perm_append_singleton _ _).trans ((inv.live_perm.cons _).trans hperm)
  · intro entry hentry
    rcases List.mem_append.mp hentry with hentry | hentry
    · exact inv.aligned entry hentry
    · rcases List.mem_singleton.mp hentry with rfl
      exact hnext.aligned
  · rw [hrest]
    exact ⟨inv.buffer.none_size, inv.buffer.some_ptr⟩
  · change state.resolved.Sublist next.allocs
    rw [hafter]
    have hsub := inv.resolved_sublist
    rw [hbefore] at hsub
    exact hsub.trans ((List.Sublist.refl front).append (List.sublist_cons_self _ _))
  · rw [hrest]
    exact inv.resolved_in

theorem deallocated (alloc : ArenaAlloc) :
    ArenaInv arenaAlignment { state with
      arena := { state.arena with allocs := state.arena.allocs.erase alloc }
      live := state.live.eraseP fun entry => entry.2 = alloc
      resolved := state.resolved.erase alloc } := by
  have hsub : (state.arena.allocs.erase alloc).Sublist state.arena.allocs := List.erase_sublist
  constructor
  · exact inv.alignment_eq
  · exact inv.inOrder.sublist hsub
  · intro other hother
    exact inv.positive other (hsub.subset hother)
  · intro other hother
    exact inv.finish_le other (hsub.subset hother)
  · exact inv.mark_lt
  · have hmap : (state.live.eraseP fun entry => entry.2 = alloc).map Prod.snd =
        (state.live.map Prod.snd).erase alloc := by
      rw [List.erase_eq_eraseP', List.eraseP_map]
      rfl
    simp only [hmap]
    exact inv.live_perm.erase alloc
  · intro entry hentry
    exact inv.aligned entry (List.mem_of_mem_eraseP hentry)
  · exact ⟨inv.buffer.none_size, inv.buffer.some_ptr⟩
  · exact inv.resolved_sublist.erase alloc
  · intro other hother
    exact inv.resolved_in other (List.mem_of_mem_erase hother)

theorem deallocate {alloc : ArenaAlloc}
    (halloc : alloc.size = 0 ∨ alloc ∈ state.live.map Prod.snd) :
    (state.arena.deallocate alloc).2 =
      { state.arena with allocs := state.arena.allocs.erase alloc } := by
  rcases halloc with hsize | hlive
  · have hnot : alloc ∉ state.arena.allocs := fun hmem => (inv.positive alloc hmem).ne' hsize
    rw [SimpleMemoryArena.deallocate, if_pos hsize, List.erase_of_not_mem hnot]
  · rw [inv.live_perm.mem_iff] at hlive
    rw [deallocate_of_mem inv.inOrder inv.positive hlive]

theorem commit {next : SimpleMemoryArena} {memory : Bytes}
    (hnext : Committed state.arena state.memory next memory) :
    ArenaInv arenaAlignment
      { state with arena := next, memory := memory, resolved := next.allocs } := by
  have hallocs := hnext.allocs_eq
  have hmark := hnext.highWaterMark_eq
  constructor
  · exact hnext.alignment_eq.trans inv.alignment_eq
  · change PlanInOrder next.allocs
    rw [hallocs]
    exact inv.inOrder
  · intro alloc halloc
    exact inv.positive alloc (hallocs ▸ halloc)
  · intro alloc halloc
    change alloc.finish ≤ next.highWaterMark
    rw [hmark]
    exact inv.finish_le alloc (hallocs ▸ halloc)
  · change next.highWaterMark + 2 * arenaAlignment < 2 ^ 64
    rw [hmark]
    exact inv.mark_lt
  · change (state.live.map Prod.snd).Perm next.allocs
    rw [hallocs]
    exact inv.live_perm
  · exact inv.aligned
  · exact hnext.buffer
  · exact List.Sublist.refl _
  · intro alloc halloc
    have hfinish := inv.finish_le alloc (hallocs ▸ halloc)
    have hsize := hnext.size_le
    rw [inv.alignment_eq] at hsize
    exact ⟨hnext.committed, (Nat.add_le_add_right hfinish _).trans hsize⟩

theorem clearPlan :
    ArenaInv arenaAlignment
      { state with arena := state.arena.clearPlan, live := [], resolved := [] } := by
  constructor
  · exact inv.alignment_eq
  · exact .nil
  · exact nofun
  · exact nofun
  · have hlt := inv.mark_lt
    change 0 + 2 * arenaAlignment < 2 ^ 64
    omega
  · exact .nil
  · exact nofun
  · exact ⟨inv.buffer.none_size, inv.buffer.some_ptr⟩
  · exact .slnil
  · exact nofun

theorem releaseBuffer :
    ArenaInv arenaAlignment
      { state with arena := state.arena.releaseBuffer, resolved := [] } := by
  constructor
  · exact inv.alignment_eq
  · exact inv.inOrder
  · exact inv.positive
  · exact inv.finish_le
  · exact inv.mark_lt
  · exact inv.live_perm
  · exact inv.aligned
  · exact ⟨fun _ => rfl, nofun⟩
  · exact List.nil_sublist _
  · exact nofun

theorem write (memory : Bytes) : ArenaInv arenaAlignment { state with memory := memory } :=
  ⟨inv.alignment_eq, inv.inOrder, inv.positive, inv.finish_le, inv.mark_lt, inv.live_perm,
    inv.aligned, inv.buffer, inv.resolved_sublist, inv.resolved_in⟩

/-- One call that keeps the promise. -/
theorem step (hpositive : 0 < arenaAlignment) {call : ArenaCall}
    (hcall : ArenaCallOk arenaAlignment state call) {next : ArenaState}
    (htaken : (memoryArena arenaAlignment).step state call = some next) :
    ArenaInv arenaAlignment next := by
  rcases call with ⟨alignment, size⟩ | alloc | address | _ | _ | ⟨address, byte⟩ <;>
    rcases Option.some.inj htaken with rfl
  · by_cases hlarge : arenaAlignment < alignment
    · simp only [SimpleMemoryArena.allocate, inv.alignment_eq, if_pos hlarge]
      change ArenaInv arenaAlignment { state with live := state.live ++ [] }
      rw [List.append_nil]
      exact inv
    · by_cases hsize : size = 0
      · simp only [SimpleMemoryArena.allocate, inv.alignment_eq, if_neg hlarge, if_pos hsize]
        change ArenaInv arenaAlignment { state with live := state.live ++ [] }
        rw [List.append_nil]
        exact inv
      · have hfits := hcall.2 (Nat.le_of_not_lt hlarge) hsize
        rcases allocate_spec (inv.alignment_eq.symm ▸ Nat.le_of_not_lt hlarge) hcall.1 hsize
          inv.inOrder (fun _ halloc => inv.finish_lt halloc)
          (by omega : state.arena.currentTop + alignment + size ≤
            state.arena.currentTop + alignment + size - 1 + 1) (by omega) with
          ⟨alloc, arena, hallocate, hallocated⟩
        have hne : alloc.size ≠ 0 := hallocated.size_eq.symm ▸ hsize
        rw [hallocate]
        simp only [Option.filter, hne, ne_eq, not_false_eq_true, decide_true, if_true,
          Option.toList_some, List.map_singleton]
        exact inv.allocated hsize (by omega) hallocated
  · rw [inv.deallocate hcall]
    exact inv.deallocated alloc
  · have hlt := inv.mark_lt
    rcases commit_spec state.memory (inv.alignment_eq.symm ▸ hpositive)
      (inv.alignment_eq.symm ▸ hlt) inv.buffer hcall with ⟨arena, memory, hcommit, hcommitted⟩
    rw [hcommit]
    exact inv.commit hcommitted
  · exact inv.clearPlan
  · exact inv.releaseBuffer
  · exact inv.write _

end

theorem of_reaches (hpositive : 0 < arenaAlignment) (hlt : 2 * arenaAlignment < 2 ^ 64)
    (hreached : (memoryArena arenaAlignment).Reaches (ArenaCallOk arenaAlignment) state) :
    ArenaInv arenaAlignment state := by
  induction hreached with
  | init => exact init hlt
  | step _ hallowed htaken ih => exact ih.step hpositive hallowed htaken

end ArenaInv

theorem resolveAlloc_of_committed {arena : SimpleMemoryArena} {alloc : ArenaAlloc}
    (hcommitted : arena.committed = true) (hsize : 0 < alloc.size) :
    arena.resolveAlloc alloc = (.ok, some (arena.underlyingBufferAlignedPtr + alloc.offset)) := by
  rw [SimpleMemoryArena.resolveAlloc, if_neg (by simp [hcommitted]), if_neg hsize.ne']

/-- **Arena plans do not overlap.** In every reached state the live allocations are kept in order,
each ending before the next begins, aligned as was asked and below the high-water mark; freeing one
removes that one; and committing gives a buffer in which every live allocation is resolved to a
range, ranges that were resolved before with the bytes they had. -/
theorem plans_do_not_overlap {arenaAlignment : ℕ} (hpositive : 0 < arenaAlignment)
    (hlt : 2 * arenaAlignment < 2 ^ 64) {state : ArenaState}
    (hreached : (memoryArena arenaAlignment).Reaches (ArenaCallOk arenaAlignment) state) :
    (state.live.map Prod.snd).Perm state.arena.allocs ∧
      state.arena.allocs.Pairwise (fun first second =>
        first.offset + first.size ≤ second.offset ∧ 0 < first.size ∧ 0 < second.size) ∧
      (∀ entry ∈ state.live, entry.1 ∣ entry.2.offset) ∧
      (∀ alloc ∈ state.arena.allocs, 0 < alloc.size ∧
        alloc.offset + alloc.size ≤ state.arena.highWaterMark ∧
        state.arena.deallocate alloc =
          (.ok, { state.arena with allocs := state.arena.allocs.erase alloc })) ∧
      (∀ address, address + state.arena.requiredBufferSize ≤ 2 ^ 64 →
        ∃ next memory base, state.arena.commit address state.memory = (.ok, next, memory) ∧
          next.allocs = state.arena.allocs ∧ next.underlyingBuffer = some base ∧
          (∀ alloc ∈ next.allocs, ∃ pointer, next.resolveAlloc alloc = (.ok, some pointer) ∧
            base ≤ pointer ∧ pointer + alloc.size ≤ base + next.underlyingBufferSize ∧
            pointer = next.underlyingBufferAlignedPtr + alloc.offset) ∧
          (∀ alloc ∈ state.resolved, ∃ before after,
            state.arena.resolveAlloc alloc = (.ok, some before) ∧
              next.resolveAlloc alloc = (.ok, some after) ∧
              ∀ index < alloc.size, memory (after + index) = state.memory (before + index))) := by
  have inv := ArenaInv.of_reaches hpositive hlt hreached
  refine ⟨inv.live_perm, ?_, inv.aligned, ?_, ?_⟩
  · apply inv.inOrder.imp_of_mem
    intro first second hfirst hsecond hle
    exact ⟨hle, inv.positive first hfirst, inv.positive second hsecond⟩
  · intro alloc halloc
    exact ⟨inv.positive alloc halloc, inv.finish_le alloc halloc,
      deallocate_of_mem inv.inOrder inv.positive halloc⟩
  · intro address haddress
    rcases commit_spec state.memory (inv.alignment_eq.symm ▸ hpositive)
      (inv.alignment_eq.symm ▸ inv.mark_lt) inv.buffer haddress with
      ⟨next, memory, hcommit, hcommitted⟩
    rcases Option.isSome_iff_exists.mp hcommitted.isSome with ⟨base, hbase⟩
    rcases hcommitted.buffer.some_ptr base hbase with ⟨hbelow, habove⟩
    have hsize := hcommitted.size_le
    rw [hcommitted.alignment_eq] at habove
    refine ⟨next, memory, base, hcommit, hcommitted.allocs_eq, hbase, ?_, ?_⟩
    · intro alloc halloc
      rw [hcommitted.allocs_eq] at halloc
      have hfinish : alloc.offset + alloc.size ≤ state.arena.highWaterMark :=
        inv.finish_le alloc halloc
      refine ⟨_, resolveAlloc_of_committed hcommitted.committed (inv.positive alloc halloc),
        by omega, by omega, rfl⟩
    · intro alloc halloc
      have hmem := inv.resolved_sublist.subset halloc
      have hone := inv.positive alloc hmem
      rcases inv.resolved_in alloc halloc with ⟨hbefore, hin⟩
      have hfinish : alloc.offset + alloc.size ≤ state.arena.highWaterMark :=
        inv.finish_le alloc hmem
      have hin' : alloc.offset + alloc.size + 2 * arenaAlignment ≤
        state.arena.underlyingBufferSize := hin
      refine ⟨_, _, resolveAlloc_of_committed hbefore hone,
        resolveAlloc_of_committed hcommitted.committed hone, ?_⟩
      intro index hindex
      rw [Nat.add_assoc, Nat.add_assoc]
      apply hcommitted.preserved (by omega)
      rw [inv.alignment_eq]
      omega

/-- Three allocations, of which the second is freed and its gap used again, before and after the
buffer grows. -/
theorem plans_do_not_overlap_after_growth : ∃ state : ArenaState,
    state.arena.allocs = [⟨0, 5⟩, ⟨8, 3⟩, ⟨16, 6⟩] ∧ state.resolved ≠ [] ∧
      ∃ next memory base, state.arena.commit 4096 state.memory = (.ok, next, memory) ∧
        next.underlyingBuffer = some base ∧
        ∀ alloc ∈ next.allocs, ∃ pointer, next.resolveAlloc alloc = (.ok, some pointer) ∧
          base ≤ pointer ∧ pointer + alloc.size ≤ base + next.underlyingBufferSize := by
  have hmeets : (memoryArena 16).RunMeets (ArenaCallOk 16)
      [.allocate 1 5, .allocate 8 8, .commit 1000, .write 1008 7, .allocate 16 6,
        .deallocate ⟨8, 8⟩, .allocate 4 3] (memoryArena 16).init := by decide +kernel
  rcases Machine.exists_reaches (Q := fun state : ArenaState =>
      decide (state.arena.allocs = [⟨0, 5⟩, ⟨8, 3⟩, ⟨16, 6⟩] ∧ state.resolved ≠ [] ∧
        4096 + state.arena.requiredBufferSize ≤ 2 ^ 64)) _ hmeets (by decide +kernel) with
    ⟨state, hreached, hstate⟩
  rcases of_decide_eq_true hstate with ⟨hallocs, hresolved, haddress⟩
  rcases (plans_do_not_overlap (by decide) (by decide) hreached).2.2.2.2 4096 haddress with
    ⟨next, memory, base, hcommit, -, hbase, hranges, -⟩
  refine ⟨state, hallocs, hresolved, next, memory, base, hcommit, hbase, ?_⟩
  intro alloc halloc
  rcases hranges alloc halloc with ⟨pointer, hpointer, hbelow, habove, -⟩
  exact ⟨pointer, hpointer, hbelow, habove⟩

end ContainerScheduler.Analysis
