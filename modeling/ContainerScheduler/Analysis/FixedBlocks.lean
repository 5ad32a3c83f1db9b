/-
# Every block of a sharded range is handled once

The ranges of the closures are aligned: they start at a multiple of the block
size and end at one or at the end of the whole range. A split of an aligned range
divides its blocks, so the blocks of the closures together with the blocks called
already are those of the whole range at any moment. As many blocks as the shards
are counted: the counter is ahead of the calls that have not returned by the
threads that have not decremented it yet.
-/

import ContainerScheduler.Threads.ThreadPool
import Mathlib.Data.List.Nodup
import Mathlib.Data.List.Perm.Subperm

namespace ContainerScheduler.Analysis

open Math Threads Threads.ThreadPool

/-- The block with the given index. -/
def block (total blockSize index : ℕ) : ℕ × ℕ :=
  (index * blockSize, min ((index + 1) * blockSize) total)

/-- What the function is to be called for. -/
def fixedBlocks (numThreads total blockSize : ℕ) : List (ℕ × ℕ) :=
  let numShardsUsed := numShardsUsedByFixedBlockSizeScheduling numThreads total blockSize
  if 1 < numShardsUsed then (List.range numShardsUsed).map (block total blockSize)
  else [(0, total)]

/-- The blocks that a range covers. -/
def blocksWithin (total blockSize : ℕ) (range : ℕ × ℕ) : List (ℕ × ℕ) :=
  let start := range.1 / blockSize
  (List.range' start ((range.2 + blockSize - 1) / blockSize - start)).map (block total blockSize)

/-- A range is made of consecutive blocks, at least one. -/
def Aligned (total blockSize : ℕ) (range : ℕ × ℕ) : Prop :=
  ∃ start stop, start ≤ stop ∧ stop * blockSize < total ∧
    range = (start * blockSize, min ((stop + 1) * blockSize) total)

/-! ## Aligned ranges -/

section Ranges

variable {total blockSize : ℕ} {range : ℕ × ℕ}

section

variable (hpositive : 0 < blockSize)

include hpositive

theorem half_blocks {length : ℕ} (hlong : blockSize < length) :
    0 < (length / 2 + blockSize - 1) / blockSize ∧
      (length / 2 + blockSize - 1) / blockSize * blockSize < length := by
  constructor
  · exact Nat.div_pos (by omega) hpositive
  · by_cases hhalf : length / 2 ≤ blockSize
    · have hone : (length / 2 + blockSize - 1) / blockSize < 2 :=
        Nat.div_lt_of_lt_mul (by omega)
      calc (length / 2 + blockSize - 1) / blockSize * blockSize
        _ ≤ 1 * blockSize := Nat.mul_le_mul_right _ (by omega)
        _ < length := by omega
    · have hle := Nat.div_mul_le_self (length / 2 + blockSize - 1) blockSize
      omega

theorem blocksWithin_eq {start stop : ℕ} (hstop : stop * blockSize < total) :
    blocksWithin total blockSize (start * blockSize, min ((stop + 1) * blockSize) total) =
      (List.range' start (stop + 1 - start)).map (block total blockSize) := by
  have hstart : start * blockSize / blockSize = start := Nat.mul_div_cancel _ hpositive
  have hend : (min ((stop + 1) * blockSize) total + blockSize - 1) / blockSize = stop + 1 := by
    have hnext : (stop + 1) * blockSize = stop * blockSize + blockSize := Nat.succ_mul _ _
    have hnext' : (stop + 1 + 1) * blockSize = (stop + 1) * blockSize + blockSize :=
      Nat.succ_mul _ _
    apply Nat.div_eq_of_lt_le
    · omega
    · omega
  simp only [blocksWithin, hstart, hend]

theorem Aligned.blocksWithin_short (haligned : Aligned total blockSize range)
    (hshort : range.2 - range.1 ≤ blockSize) : blocksWithin total blockSize range = [range] := by
  rcases haligned with ⟨start, stop, hle, hstop, rfl⟩
  rw [blocksWithin_eq hpositive hstop]
  have hsame : stop = start := by
    by_contra hne
    have hlow : (start + 1) * blockSize ≤ stop * blockSize :=
      Nat.mul_le_mul_right _ (by omega)
    have hnext : (stop + 1) * blockSize = stop * blockSize + blockSize := Nat.succ_mul _ _
    have hnext' : (start + 1) * blockSize = start * blockSize + blockSize := Nat.succ_mul _ _
    dsimp only at hshort
    omega
  subst hsame
  simp [block]

theorem Aligned.length_pos (haligned : Aligned total blockSize range) :
    0 < (blocksWithin total blockSize range).length := by
  rcases haligned with ⟨start, stop, hle, hstop, rfl⟩
  rw [blocksWithin_eq hpositive hstop, List.length_map, List.length_range']
  omega

/-- A split of a long range divides its blocks. -/
theorem Aligned.split (haligned : Aligned total blockSize range)
    (hlong : blockSize < range.2 - range.1) :
    Aligned total blockSize (range.1, midBlock blockSize range.1 range.2) ∧
      Aligned total blockSize (midBlock blockSize range.1 range.2, range.2) ∧
      blocksWithin total blockSize range =
        blocksWithin total blockSize (range.1, midBlock blockSize range.1 range.2) ++
          blocksWithin total blockSize (midBlock blockSize range.1 range.2, range.2) := by
  rcases haligned with ⟨start, stop, hle, hstop, rfl⟩
  dsimp only at hlong ⊢
  rcases half_blocks hpositive hlong with ⟨hsome, hleft⟩
  obtain ⟨half, hhalf⟩ : ∃ half, half + 1 =
      ((min ((stop + 1) * blockSize) total - start * blockSize) / 2 + blockSize - 1) / blockSize :=
    ⟨_, Nat.succ_pred_eq_of_pos hsome⟩
  rw [← hhalf] at hleft
  have hmid : midBlock blockSize (start * blockSize) (min ((stop + 1) * blockSize) total) =
      (start + half + 1) * blockSize := by
    rw [midBlock, ← hhalf, ← Nat.add_mul, Nat.add_assoc]
  have hsum : (start + half + 1) * blockSize = start * blockSize + (half + 1) * blockSize := by
    rw [Nat.add_assoc, Nat.add_mul]
  have hbefore : (start + half + 1) * blockSize < (stop + 1) * blockSize := by omega
  have hlast : start + half + 1 < stop + 1 := Nat.lt_of_mul_lt_mul_right hbefore
  have hprevious : (start + half + 1) * blockSize = (start + half) * blockSize + blockSize :=
    Nat.succ_mul _ _
  have hmin : (start + half + 1) * blockSize = min ((start + half + 1) * blockSize) total := by
    omega
  rw [hmid]
  refine ⟨⟨start, start + half, by omega, by omega, by rw [← hmin]⟩,
    ⟨start + half + 1, stop, by omega, hstop, rfl⟩, ?_⟩
  conv => rhs; lhs; rw [hmin]
  rw [blocksWithin_eq hpositive hstop, blocksWithin_eq hpositive (by omega),
    blocksWithin_eq hpositive hstop, ← List.map_append,
    show stop + 1 - (start + half + 1) = stop - (start + half) by omega,
    show start + half + 1 - start = half + 1 by omega, Nat.add_assoc start half 1,
    List.range'_append_1, show half + 1 + (stop - (start + half)) = stop + 1 - start by omega]

theorem aligned_whole (htotal : 0 < total) :
    Aligned total blockSize (0, total) ∧ blocksWithin total blockSize (0, total) =
      (List.range ((total + blockSize - 1) / blockSize)).map (block total blockSize) := by
  constructor
  · refine ⟨0, (total - 1) / blockSize, Nat.zero_le _, ?_, ?_⟩
    · have hle := Nat.div_mul_le_self (total - 1) blockSize
      omega
    · have hlt := Nat.lt_div_mul_add hpositive (a := total - 1)
      have hnext : ((total - 1) / blockSize + 1) * blockSize =
          (total - 1) / blockSize * blockSize + blockSize := Nat.succ_mul _ _
      rw [Nat.zero_mul, Nat.min_eq_right (by omega)]
  · rw [blocksWithin, Nat.zero_div, Nat.sub_zero, List.range_eq_range']

end

end Ranges

/-! ## Runs -/

/-- The blocks that a running closure has yet to call the function for. -/
def uncalled (total blockSize : ℕ) (shard : Shard) : List (ℕ × ℕ) :=
  match shard.phase with
  | .splitting => blocksWithin total blockSize (shard.first, shard.last)
  | _ => []

/-- The call of the function that a running closure is in. -/
def inside (shard : Shard) : List (ℕ × ℕ) :=
  match shard.phase with
  | .calling => [(shard.first, shard.last)]
  | _ => []

def isReturned (shard : Shard) : Bool :=
  shard.phase = .returned

/-- The steps that a running closure and those it is going to schedule still take. -/
def shardWork (total blockSize : ℕ) (shard : Shard) : ℕ :=
  match shard.phase with
  | .splitting => 5 * (blocksWithin total blockSize (shard.first, shard.last)).length - 2
  | .calling => 2
  | .returned => 1

/-- The same for a scheduled closure, which has to be started first. -/
def scheduledWork (total blockSize : ℕ) (range : ℕ × ℕ) : ℕ :=
  5 * (blocksWithin total blockSize range).length - 1

def callerWork : ShardCaller → ℕ
  | .direct => 2
  | .calling | .waiting => 1
  | .finished => 0

/-- The steps that are left of a run. -/
def work (total blockSize : ℕ) (call : ParallelFor) : ℕ :=
  callerWork call.caller + (call.scheduled.map (scheduledWork total blockSize)).sum +
    (call.running.map (shardWork total blockSize)).sum

/-- What holds in every state of a run that shards the range. -/
structure ShardInv (total blockSize shards : ℕ) (call : ParallelFor) : Prop where
  caller : call.caller = .waiting ∨ call.caller = .finished ∧ call.counter = 0
  scheduled : ∀ range ∈ call.scheduled, Aligned total blockSize range
  running : ∀ shard ∈ call.running, Aligned total blockSize (shard.first, shard.last)
  /-- Every block has been called or belongs to one closure. -/
  blocks : (call.called ++ (call.scheduled.flatMap (blocksWithin total blockSize) ++
    call.running.flatMap (uncalled total blockSize))).Perm
      ((List.range shards).map (block total blockSize))
  called : call.called.Perm (call.returned ++ call.running.flatMap inside)
  counter : call.counter + call.returned.length = shards + call.running.countP isReturned

section Erase

variable {α β : Type*} [BEq α] [LawfulBEq α] {x : α} {xs : List α}

/-- What one element of a list contributes, and the others. -/
theorem count_flatMap_erase [BEq β] (hmem : x ∈ xs) (f : α → List β) (y : β) :
    (xs.flatMap f).count y = (f x).count y + ((xs.erase x).flatMap f).count y := by
  rw [((List.perm_cons_erase hmem).flatMap_right f).count_eq, List.flatMap_cons,
    List.count_append]

theorem sum_map_erase_add (hmem : x ∈ xs) (f : α → ℕ) :
    (xs.map f).sum = f x + ((xs.erase x).map f).sum := by
  rw [((List.perm_cons_erase hmem).map f).sum_nat, List.map_cons, List.sum_cons]

end Erase

namespace ShardInv

variable {total blockSize shards : ℕ} {call next : ParallelFor}

/-- A scheduled closure starts. -/
theorem start (inv : ShardInv total blockSize shards call) (hpositive : 0 < blockSize)
    {first last : ℕ} (hmem : (first, last) ∈ call.scheduled) :
    ShardInv total blockSize shards { call with
        scheduled := call.scheduled.erase (first, last)
        running := ⟨first, last, .splitting⟩ :: call.running } ∧
      work total blockSize { call with
        scheduled := call.scheduled.erase (first, last)
        running := ⟨first, last, .splitting⟩ :: call.running } + 1 =
          work total blockSize call := by
  have haligned := inv.scheduled (first, last) hmem
  refine ⟨⟨inv.caller, fun other hother => inv.scheduled other (List.mem_of_mem_erase hother),
    List.forall_mem_cons.mpr ⟨haligned, inv.running⟩, ?_, inv.called, ?_⟩, ?_⟩
  · rw [List.perm_iff_count]
    intro one
    have hcount := (List.perm_iff_count.mp inv.blocks) one
    have herase := count_flatMap_erase hmem (blocksWithin total blockSize) one
    simp only [List.count_append, List.flatMap_cons, uncalled] at hcount ⊢
    omega
  · have hcounter := inv.counter
    rw [List.countP_cons_of_neg (by simp [isReturned])]
    exact hcounter
  · have hlength := haligned.length_pos hpositive
    have hsum := sum_map_erase_add hmem (scheduledWork total blockSize)
    simp only [work, List.map_cons, List.sum_cons, shardWork, scheduledWork] at hsum ⊢
    omega

section Handle

variable {shard : Shard}

section

variable (inv : ShardInv total blockSize shards call) (hwaiting : call.caller = .waiting)

include inv hwaiting

/-- A running closure takes a step. Its blocks are called or go to the closures that replace it. -/
theorem advance (hmem : shard ∈ call.running) (counter : ℤ) (ranges calls returns : List (ℕ × ℕ))
    (successors : List Shard) (hranges : ∀ range ∈ ranges, Aligned total blockSize range)
    (hsuccessors : ∀ other ∈ successors, Aligned total blockSize (other.first, other.last))
    (hblocks : uncalled total blockSize shard = calls ++
      (successors.flatMap (uncalled total blockSize) ++
        ranges.flatMap (blocksWithin total blockSize)))
    (hcalled : calls ++ inside shard = returns ++ successors.flatMap inside)
    (hcounter : counter + returns.length + [shard].countP isReturned =
      call.counter + successors.countP isReturned)
    (hwork : (ranges.map (scheduledWork total blockSize)).sum +
      (successors.map (shardWork total blockSize)).sum + 1 = shardWork total blockSize shard) :
    ShardInv total blockSize shards ⟨call.caller, ranges ++ call.scheduled,
        successors ++ call.running.erase shard, counter, calls ++ call.called,
        returns ++ call.returned⟩ ∧
      work total blockSize ⟨call.caller, ranges ++ call.scheduled,
        successors ++ call.running.erase shard, counter, calls ++ call.called,
        returns ++ call.returned⟩ + 1 = work total blockSize call := by
  refine ⟨⟨.inl hwaiting, List.forall_mem_append.mpr ⟨hranges, inv.scheduled⟩,
    List.forall_mem_append.mpr ⟨hsuccessors, fun other hother =>
      inv.running other (List.mem_of_mem_erase hother)⟩, ?_, ?_, ?_⟩, ?_⟩
  · rw [List.perm_iff_count]
    intro one
    have hcount := List.perm_iff_count.mp inv.blocks one
    have herase := count_flatMap_erase hmem (uncalled total blockSize) one
    simp only [hblocks, List.count_append, List.flatMap_append] at hcount herase ⊢
    omega
  · rw [List.perm_iff_count]
    intro one
    have hcount := List.perm_iff_count.mp inv.called one
    have herase := count_flatMap_erase hmem inside one
    have hstep := congrArg (List.count one) hcalled
    simp only [List.count_append, List.flatMap_append] at hcount herase hstep ⊢
    omega
  · have hbefore := inv.counter
    rw [(List.perm_cons_erase hmem).countP_eq, ← List.singleton_append, List.countP_append]
      at hbefore
    simp only [List.countP_append, List.length_append]
    push_cast at hbefore ⊢
    omega
  · have hsum := sum_map_erase_add hmem (shardWork total blockSize)
    simp only [work, List.map_append, List.sum_append] at hsum ⊢
    omega

/-- A closure with a long range schedules the upper part of it. -/
theorem split (hpositive : 0 < blockSize) (hmem : shard ∈ call.running)
    (hphase : shard.phase = .splitting) (hlong : blockSize < shard.last - shard.first) :
    ShardInv total blockSize shards (call.handleRange blockSize shard) ∧
      work total blockSize (call.handleRange blockSize shard) + 1 = work total blockSize call := by
  obtain ⟨hlower, hupper, hdivided⟩ := (inv.running shard hmem).split hpositive hlong
  dsimp only at hlower hupper hdivided
  simp only [ParallelFor.handleRange, hphase, if_pos hlong]
  refine inv.advance hwaiting hmem _ [_] [] [] [_] (List.forall_mem_singleton.mpr hupper)
    (List.forall_mem_singleton.mpr hlower) ?_ ?_ ?_ ?_
  · simp [uncalled, hphase, hdivided]
  · simp [inside, hphase]
  · simp [isReturned, hphase]
  · have hlower' := hlower.length_pos hpositive
    have hupper' := hupper.length_pos hpositive
    simp only [List.map_cons, List.map_nil, List.sum_cons, List.sum_nil, shardWork, scheduledWork,
      hphase, hdivided, List.length_append]
    omega

/-- A closure with one block calls the function. -/
theorem call_block (hpositive : 0 < blockSize) (hmem : shard ∈ call.running)
    (hphase : shard.phase = .splitting) (hshort : ¬ blockSize < shard.last - shard.first) :
    ShardInv total blockSize shards (call.handleRange blockSize shard) ∧
      work total blockSize (call.handleRange blockSize shard) + 1 = work total blockSize call := by
  have haligned := inv.running shard hmem
  have hblock := haligned.blocksWithin_short hpositive (Nat.le_of_not_lt hshort)
  simp only [ParallelFor.handleRange, hphase, if_neg hshort]
  refine inv.advance hwaiting hmem _ [] [_] [] [_] (List.forall_mem_nil _)
    (List.forall_mem_singleton.mpr haligned) ?_ ?_ ?_ ?_
  · simp [uncalled, hphase, hblock]
  · simp [inside, hphase]
  · simp [isReturned, hphase]
  · simp [shardWork, hphase, hblock]

/-- The function returns to a closure. -/
theorem block_returned (hmem : shard ∈ call.running) (hphase : shard.phase = .calling) :
    ShardInv total blockSize shards (call.handleRange blockSize shard) ∧
      work total blockSize (call.handleRange blockSize shard) + 1 = work total blockSize call := by
  simp only [ParallelFor.handleRange, hphase]
  refine inv.advance hwaiting hmem _ [] [] [_] [_] (List.forall_mem_nil _)
    (List.forall_mem_singleton.mpr (inv.running shard hmem)) ?_ ?_ ?_ ?_
  · simp [uncalled, hphase]
  · simp [inside, hphase]
  · simp [isReturned, hphase]
  · simp [shardWork, hphase]

theorem decrement (hmem : shard ∈ call.running) (hphase : shard.phase = .returned) :
    ShardInv total blockSize shards (call.handleRange blockSize shard) ∧
      work total blockSize (call.handleRange blockSize shard) + 1 = work total blockSize call := by
  simp only [ParallelFor.handleRange, hphase]
  refine inv.advance hwaiting hmem _ [] [] [] [] (List.forall_mem_nil _) (List.forall_mem_nil _)
    ?_ ?_ ?_ ?_
  · simp [uncalled, hphase]
  · simp [inside, hphase]
  · simp [isReturned, hphase]
  · simp [shardWork, hphase]

end

end Handle

section

variable (inv : ShardInv total blockSize shards call)

include inv

/-- The calls that have returned and the others are those of the blocks. -/
theorem called_subperm : call.called.Subperm ((List.range shards).map (block total blockSize)) :=
  (List.sublist_append_left _ _).subperm.trans inv.blocks.subperm

theorem returned_subperm : call.returned.Subperm call.called :=
  (List.sublist_append_left _ _).subperm.trans inv.called.symm.subperm

theorem all_returned (hpositive : 0 < blockSize) (hall : shards ≤ call.returned.length) :
    call.scheduled = [] ∧ (∀ shard ∈ call.running, shard.phase = .returned) ∧
      call.called.Perm ((List.range shards).map (block total blockSize)) ∧
      call.returned.Perm ((List.range shards).map (block total blockSize)) := by
  have hlength := inv.blocks.length_eq
  have hreturned := inv.called.length_eq
  rw [List.length_append, List.length_append, List.length_map, List.length_range] at hlength
  rw [List.length_append] at hreturned
  have hnone : call.scheduled.flatMap (blocksWithin total blockSize) = [] :=
    List.eq_nil_of_length_eq_zero (by omega)
  have huncalled : call.running.flatMap (uncalled total blockSize) = [] :=
    List.eq_nil_of_length_eq_zero (by omega)
  have hinside : call.running.flatMap inside = [] :=
    List.eq_nil_of_length_eq_zero (by omega)
  have hcalled := inv.called
  have hblocks := inv.blocks
  rw [hinside, List.append_nil] at hcalled
  rw [hnone, huncalled, List.append_nil, List.append_nil] at hblocks
  refine ⟨?_, ?_, hblocks, hcalled.symm.trans hblocks⟩
  · rw [List.eq_nil_iff_forall_not_mem]
    intro range hmem
    have hpos := (inv.scheduled range hmem).length_pos hpositive
    rw [List.flatMap_eq_nil_iff.mp hnone range hmem] at hpos
    exact absurd hpos (Nat.lt_irrefl 0)
  · intro shard hmem
    have hpos := (inv.running shard hmem).length_pos hpositive
    have hcallee := List.flatMap_eq_nil_iff.mp huncalled shard hmem
    have hcall := List.flatMap_eq_nil_iff.mp hinside shard hmem
    cases hphase : shard.phase with
    | splitting =>
        simp only [uncalled, hphase] at hcallee
        rw [hcallee] at hpos
        exact absurd hpos (Nat.lt_irrefl 0)
    | calling => simp [inside, hphase] at hcall
    | returned => rfl

theorem counter_eq_zero_iff (hpositive : 0 < blockSize) : call.counter = 0 ↔
      call.returned.Perm ((List.range shards).map (block total blockSize)) ∧
        call.scheduled = [] ∧ call.running = [] := by
  have hcounter := inv.counter
  constructor
  · intro hzero
    have hall : shards ≤ call.returned.length := by omega
    rcases inv.all_returned hpositive hall with ⟨hscheduled, hrunning, -, hreturned⟩
    refine ⟨hreturned, hscheduled, ?_⟩
    have hlength := hreturned.length_eq
    rw [List.length_map, List.length_range] at hlength
    have hnone : call.running.countP isReturned = 0 := by omega
    rw [List.eq_nil_iff_forall_not_mem]
    intro shard hmem
    exact List.countP_eq_zero.mp hnone shard hmem (by simp [isReturned, hrunning shard hmem])
  · rintro ⟨hreturned, -, hrunning⟩
    have hlength := hreturned.length_eq
    rw [List.length_map, List.length_range] at hlength
    rw [hrunning, List.countP_nil] at hcounter
    omega

/-- While a closure is running the caller waits. -/
theorem waiting_of_running (hpositive : 0 < blockSize) {shard : Shard}
    (hmem : shard ∈ call.running) :
    call.caller = .waiting := by
  rcases inv.caller with hwaiting | ⟨-, hzero⟩
  · exact hwaiting
  · have hnone := ((inv.counter_eq_zero_iff hpositive).mp hzero).2.2
    rw [hnone] at hmem
    exact absurd hmem List.not_mem_nil

theorem handle (hpositive : 0 < blockSize) {shard : Shard} (hmem : shard ∈ call.running) :
    ShardInv total blockSize shards (call.handleRange blockSize shard) ∧
      work total blockSize (call.handleRange blockSize shard) + 1 = work total blockSize call := by
  have hwaiting := inv.waiting_of_running hpositive hmem
  cases hphase : shard.phase with
  | splitting =>
      by_cases hlong : blockSize < shard.last - shard.first
      · exact inv.split hwaiting hpositive hmem hphase hlong
      · exact inv.call_block hwaiting hpositive hmem hphase hlong
  | calling => exact inv.block_returned hwaiting hmem hphase
  | returned => exact inv.decrement hwaiting hmem hphase

/-- **Every step keeps the invariant and takes one of the steps that are left.** -/
theorem step (hpositive : 0 < blockSize) {action : ParallelFor.Action}
    (hstep : call.step total blockSize action = some next) :
    ShardInv total blockSize shards next ∧
      work total blockSize next + 1 = work total blockSize call := by
  cases action with
  | start range =>
      rcases Option.ite_none_right_eq_some.mp hstep with ⟨hmem, hnext⟩
      obtain rfl := Option.some.inj hnext
      exact inv.start hpositive hmem
  | handle shard =>
      rcases Option.ite_none_right_eq_some.mp hstep with ⟨hmem, hnext⟩
      obtain rfl := Option.some.inj hnext
      exact inv.handle hpositive hmem
  | caller =>
      rcases inv.caller with hwaiting | ⟨hfinished, -⟩
      · simp only [ParallelFor.step, ParallelFor.callerStep, hwaiting] at hstep
        rcases Option.ite_none_right_eq_some.mp hstep with ⟨hzero, hnext⟩
        obtain rfl := Option.some.inj hnext
        refine ⟨⟨.inr ⟨rfl, hzero⟩, inv.scheduled, inv.running, inv.blocks, inv.called,
          inv.counter⟩, ?_⟩
        simp only [work, hwaiting, callerWork]
        omega
      · simp [ParallelFor.step, ParallelFor.callerStep, hfinished] at hstep

/-- Until the caller returns, some thread can take a step. -/
theorem progress (hcaller : call.caller ≠ .finished) :
    ∃ action next, call.step total blockSize action = some next := by
  rcases inv.caller with hwaiting | ⟨hfinished, -⟩
  · cases hscheduled : call.scheduled with
    | cons range rest =>
        exact ⟨.start range, _, if_pos (by rw [hscheduled]; exact List.mem_cons_self)⟩
    | nil =>
        cases hrunning : call.running with
        | cons shard rest =>
            exact ⟨.handle shard, _, if_pos (by rw [hrunning]; exact List.mem_cons_self)⟩
        | nil =>
            -- with no closure left, all blocks have been called and have returned
            have hzero : call.counter = 0 := by
              have hblocks := inv.blocks.length_eq
              have hcalled := inv.called.length_eq
              have hcounter := inv.counter
              simp [hscheduled, hrunning] at hblocks hcalled hcounter
              omega
            refine ⟨.caller, { call with caller := .finished }, ?_⟩
            simp only [ParallelFor.step, ParallelFor.callerStep, hwaiting, if_pos hzero]
  · exact absurd hfinished hcaller

end

end ShardInv

theorem numShardsUsed_cases (numThreads total blockSize : ℕ) :
    numShardsUsedByFixedBlockSizeScheduling numThreads total blockSize = 1 ∨
      0 < blockSize ∧ blockSize < total ∧
        numShardsUsedByFixedBlockSizeScheduling numThreads total blockSize =
          (total + blockSize - 1) / blockSize := by
  unfold numShardsUsedByFixedBlockSizeScheduling
  split_ifs with hone
  · exact .inl rfl
  · exact .inr ⟨by omega, by omega, rfl⟩

theorem one_lt_numShardsUsed {numThreads total blockSize : ℕ}
    (hmany : numShardsUsedByFixedBlockSizeScheduling numThreads total blockSize ≠ 1) :
    1 < numShardsUsedByFixedBlockSizeScheduling numThreads total blockSize := by
  rcases numShardsUsed_cases numThreads total blockSize with hone | ⟨hpositive, hlong, hshards⟩
  · exact absurd hone hmany
  · rw [hshards]
    exact (Nat.le_div_iff_mul_le hpositive).mpr (by omega)

section Init

variable {numThreads total blockSize : ℕ}

/-- The sharded range starts as one closure, scheduled or run by the caller. -/
theorem shardInv_init
    (hmany : numShardsUsedByFixedBlockSizeScheduling numThreads total blockSize ≠ 1) :
    ShardInv total blockSize (numShardsUsedByFixedBlockSizeScheduling numThreads total blockSize)
        (parallelForFixedBlockSizeScheduling numThreads total blockSize) ∧
      work total blockSize (parallelForFixedBlockSizeScheduling numThreads total blockSize) ≤
        5 * numShardsUsedByFixedBlockSizeScheduling numThreads total blockSize := by
  rcases numShardsUsed_cases numThreads total blockSize with hone | ⟨hpositive, hlong, hshards⟩
  · exact absurd hone hmany
  · rcases aligned_whole hpositive (by omega : 0 < total) with ⟨haligned, hwhole⟩
    rw [← hshards] at hwhole
    have hone := one_lt_numShardsUsed hmany
    unfold parallelForFixedBlockSizeScheduling
    rw [if_neg hmany]
    split_ifs with hfew
    · refine ⟨⟨.inl rfl, List.forall_mem_nil _, List.forall_mem_singleton.mpr haligned, ?_,
        .refl _, ?_⟩, ?_⟩
      · simp [uncalled, hwhole]
      · simp [isReturned]
      · simp only [work, callerWork, shardWork, hwhole, List.map_nil, List.sum_nil, List.map_cons,
          List.sum_cons, List.length_map, List.length_range]
        omega
    · refine ⟨⟨.inl rfl, List.forall_mem_singleton.mpr haligned, List.forall_mem_nil _, ?_,
        .refl _, ?_⟩, ?_⟩
      · simp [hwhole]
      · simp
      · simp only [work, callerWork, scheduledWork, hwhole, List.map_nil, List.sum_nil,
          List.map_cons, List.sum_cons, List.length_map, List.length_range]
        omega

/-- The states of a run that calls the function once for the whole range. -/
inductive DirectStage (total : ℕ) : ParallelFor → Prop
  | before : DirectStage total { caller := .direct }
  | inside : DirectStage total { caller := .calling, called := [(0, total)] }
  | after : DirectStage total
      { caller := .finished, called := [(0, total)], returned := [(0, total)] }

theorem DirectStage.step {call next : ParallelFor} (stage : DirectStage total call)
    {action : ParallelFor.Action} (hstep : call.step total blockSize action = some next) :
    DirectStage total next ∧ work total blockSize next + 1 ≤ work total blockSize call := by
  cases action with
  | start range => cases stage <;> simp [ParallelFor.step] at hstep
  | handle shard => cases stage <;> simp [ParallelFor.step] at hstep
  | caller =>
      cases stage with
      | before =>
          obtain rfl := Option.some.inj hstep
          exact ⟨.inside, by simp [work, callerWork]⟩
      | inside =>
          obtain rfl := Option.some.inj hstep
          exact ⟨.after, by simp [work, callerWork]⟩
      | after => cases hstep

end Init

/-- What holds of the calls in every state of a run. -/
structure CalledOnce (numThreads total blockSize : ℕ) (call : ParallelFor) : Prop where
  /-- The function is called for blocks only, for each once at most. -/
  called : call.called.Subperm (fixedBlocks numThreads total blockSize)
  returned : call.returned.Subperm call.called
  /-- When the caller returns, every block has been called and has returned, and no
  closure is left. -/
  finished : call.caller = .finished →
    call.called.Perm (fixedBlocks numThreads total blockSize) ∧
      call.returned.Perm (fixedBlocks numThreads total blockSize) ∧
      call.scheduled = [] ∧ call.running = []
  /-- Until the caller returns, some thread can take a step. -/
  progress : call.caller ≠ .finished →
    ∃ action next, call.step total blockSize action = some next
  /-- The counter is ahead of the calls that have not returned by the threads that are
  about to decrement it. -/
  counter : 1 < numShardsUsedByFixedBlockSizeScheduling numThreads total blockSize →
    call.counter + call.returned.length =
      numShardsUsedByFixedBlockSizeScheduling numThreads total blockSize +
        call.running.countP isReturned
  /-- It is zero when the last call has returned and its closure has decremented it. -/
  zero : 1 < numShardsUsedByFixedBlockSizeScheduling numThreads total blockSize →
    (call.counter = 0 ↔ call.returned.Perm (fixedBlocks numThreads total blockSize) ∧
      call.scheduled = [] ∧ call.running = [])
  /-- When the last call has returned, nothing but decrements is left. -/
  last : 1 < numShardsUsedByFixedBlockSizeScheduling numThreads total blockSize →
    call.returned.Perm (fixedBlocks numThreads total blockSize) →
      call.scheduled = [] ∧ ∀ shard ∈ call.running, shard.phase = .returned

section CalledOnce

variable {numThreads total blockSize : ℕ} {call : ParallelFor}

theorem ShardInv.calledOnce
    (hmany : numShardsUsedByFixedBlockSizeScheduling numThreads total blockSize ≠ 1)
    (inv : ShardInv total blockSize
      (numShardsUsedByFixedBlockSizeScheduling numThreads total blockSize) call)
    (hpositive : 0 < blockSize) : CalledOnce numThreads total blockSize call := by
  have hblocks : fixedBlocks numThreads total blockSize =
      (List.range (numShardsUsedByFixedBlockSizeScheduling numThreads total blockSize)).map
        (block total blockSize) := if_pos (one_lt_numShardsUsed hmany)
  constructor
  · rw [hblocks]
    exact inv.called_subperm
  · exact inv.returned_subperm
  · rw [hblocks]
    intro hfinished
    rcases inv.caller with hwaiting | ⟨-, hzero⟩
    · rw [hwaiting] at hfinished
      cases hfinished
    · rcases (inv.counter_eq_zero_iff hpositive).mp hzero with ⟨hreturned, hscheduled, hrunning⟩
      have hcalled := inv.called
      rw [hrunning, List.flatMap_nil, List.append_nil] at hcalled
      exact ⟨hcalled.trans hreturned, hreturned, hscheduled, hrunning⟩
  · exact inv.progress
  · exact fun _ => inv.counter
  · rw [hblocks]
    exact fun _ => inv.counter_eq_zero_iff hpositive
  · rw [hblocks]
    intro _ hreturned
    have hlength := hreturned.length_eq
    rw [List.length_map, List.length_range] at hlength
    rcases inv.all_returned hpositive hlength.symm.le with ⟨hscheduled, hrunning, -, -⟩
    exact ⟨hscheduled, hrunning⟩

theorem DirectStage.calledOnce
    (hone : numShardsUsedByFixedBlockSizeScheduling numThreads total blockSize = 1)
    (stage : DirectStage total call) : CalledOnce numThreads total blockSize call := by
  have hblocks : fixedBlocks numThreads total blockSize = [(0, total)] := by
    rw [fixedBlocks, hone]
    rfl
  have hnever : ¬ 1 < numShardsUsedByFixedBlockSizeScheduling numThreads total blockSize := by
    omega
  constructor
  · rw [hblocks]
    cases stage with
    | before => exact List.nil_subperm
    | inside | after => exact List.Subperm.refl _
  · cases stage with
    | before | inside => exact List.nil_subperm
    | after => exact List.Subperm.refl _
  · rw [hblocks]
    intro hfinished
    cases stage with
    | before | inside => cases hfinished
    | after => exact ⟨.refl _, .refl _, rfl, rfl⟩
  · intro hcaller
    cases stage with
    | before | inside => exact ⟨.caller, _, rfl⟩
    | after => exact absurd rfl hcaller
  · exact fun hmany => absurd hmany hnever
  · exact fun hmany => absurd hmany hnever
  · exact fun hmany => absurd hmany hnever

end CalledOnce

theorem nodup_fixedBlocks (numThreads total : ℕ) {blockSize : ℕ} (hpositive : 0 < blockSize) :
    (fixedBlocks numThreads total blockSize).Nodup := by
  unfold fixedBlocks
  dsimp only
  split_ifs
  · refine List.Nodup.map (fun one other hequal => ?_) List.nodup_range
    exact Nat.mul_right_cancel hpositive (congrArg Prod.fst hequal)
  · exact List.nodup_singleton _

/-- **Fixed-size blocks.** However the closures are interleaved, the function is called
for every block once, the counter reaches zero when the last call has returned, and
the caller returns after a bounded number of steps. -/
theorem fixed_blocks_called_once (numThreads total blockSize : ℕ) (hpositive : 0 < blockSize) :
    (fixedBlocks numThreads total blockSize).Nodup ∧
      (∀ call, (ParallelFor.machine numThreads total blockSize).Reaches Machine.Unguarded call →
        CalledOnce numThreads total blockSize call) ∧
      ∀ actions call, (ParallelFor.machine numThreads total blockSize).run actions
          (parallelForFixedBlockSizeScheduling numThreads total blockSize) = some call →
        actions.length ≤
          5 * numShardsUsedByFixedBlockSizeScheduling numThreads total blockSize := by
  refine ⟨nodup_fixedBlocks numThreads total hpositive, ?_⟩
  by_cases hone : numShardsUsedByFixedBlockSizeScheduling numThreads total blockSize = 1
  · have hinit : DirectStage total
        (parallelForFixedBlockSizeScheduling numThreads total blockSize) := by
      rw [parallelForFixedBlockSizeScheduling, if_pos hone]
      exact .before
    constructor
    · intro call hreached
      exact (hreached.invariant (P := DirectStage total) hinit
        fun _ _ _ _ stage _ hstep => (stage.step hstep).1).calledOnce hone
    · intro actions call hrun
      have hlength := Machine.length_add_le_of_run (DirectStage total) (work total blockSize)
        (fun _ _ _ stage hstep => DirectStage.step stage hstep) hinit hrun
      rw [parallelForFixedBlockSizeScheduling, if_pos hone] at hlength
      simp only [work, callerWork, List.map_nil, List.sum_nil] at hlength
      omega
  · rcases shardInv_init hone with ⟨hinit, hwork⟩
    constructor
    · intro call hreached
      exact (hreached.invariant (P := ShardInv total blockSize _) hinit
        fun _ _ _ _ inv _ hstep => (inv.step hpositive hstep).1).calledOnce hone hpositive
    · intro actions call hrun
      have hlength :=
          Machine.length_add_le_of_run (ShardInv total blockSize _) (work total blockSize)
        (fun _ _ _ inv hstep => (ShardInv.step inv hpositive hstep).imp_right Nat.le_of_eq)
        hinit hrun
      omega

/-- Ten elements in blocks of four, with two threads. -/
theorem fixed_blocks_called_once_ten :
    (fixedBlocks 2 10 4).Nodup ∧
      (∀ call, (ParallelFor.machine 2 10 4).Reaches Machine.Unguarded call →
        CalledOnce 2 10 4 call) ∧
      ∀ actions call, (ParallelFor.machine 2 10 4).run actions
          (parallelForFixedBlockSizeScheduling 2 10 4) = some call →
        actions.length ≤ 5 * numShardsUsedByFixedBlockSizeScheduling 2 10 4 :=
  fixed_blocks_called_once 2 10 4 (by decide)

end ContainerScheduler.Analysis
