/-
# First fit

A block goes into the first gap between blocks that are sorted by their offsets: a gap begins where
all blocks before it have ended.
-/

import Mathlib.Algebra.Order.Group.Defs

namespace ContainerScheduler.Math

universe u

variable {α : Type u} [AddCommGroup α] [LinearOrder α] [IsOrderedAddMonoid α]

structure Block (α : Type u) where
  offset : α
  size : α

namespace Block

def stop (block : Block α) : α := block.offset + block.size

/-- One of the two blocks ends before the other begins. -/
def Apart (first second : Block α) : Prop :=
  first.stop ≤ second.offset ∨ second.stop ≤ first.offset

theorem Apart.symm {first second : Block α} (hapart : first.Apart second) : second.Apart first :=
  Or.symm hapart

end Block

/-- The first offset, from the given one on, where a block of this size fits between the blocks. -/
def firstFit (size : α) : α → List (Block α) → α
  | offset, [] => offset
  | offset, block :: blocks =>
      if size ≤ block.offset - offset then offset else firstFit size (max offset block.stop) blocks

section FirstFit

variable {size offset bound : α} {blocks : List (Block α)}

theorem le_firstFit : offset ≤ firstFit size offset blocks := by
  induction blocks generalizing offset with
  | nil => exact le_rfl
  | cons block blocks ih =>
      rw [firstFit]
      split_ifs
      · exact le_rfl
      · exact (le_max_left _ _).trans ih

theorem firstFit_le (hoffset : offset ≤ bound) (hblocks : ∀ block ∈ blocks, block.stop ≤ bound) :
    firstFit size offset blocks ≤ bound := by
  induction blocks generalizing offset with
  | nil => exact hoffset
  | cons block blocks ih =>
      obtain ⟨hblock, hrest⟩ := List.forall_mem_cons.mp hblocks
      rw [firstFit]
      split_ifs
      · exact hoffset
      · exact ih (max_le hoffset hblock) hrest

/-- The gap is apart from all blocks. -/
theorem firstFit_apart
    (hsorted : blocks.Pairwise fun first second => first.offset ≤ second.offset) :
    ∀ block ∈ blocks, (Block.mk (firstFit size offset blocks) size).Apart block := by
  induction blocks generalizing offset with
  | nil => exact fun block hmem => absurd hmem List.not_mem_nil
  | cons block blocks ih =>
      obtain ⟨hfirst, hrest⟩ := List.pairwise_cons.mp hsorted
      rw [firstFit]
      split_ifs with hfits
      · -- what comes later begins even later
        have hroom : offset + size ≤ block.offset := by
          rw [add_comm]
          exact le_sub_iff_add_le.mp hfits
        exact List.forall_mem_cons.mpr ⟨.inl hroom, fun later hmem =>
          .inl (hroom.trans (hfirst later hmem))⟩
      · exact List.forall_mem_cons.mpr ⟨.inr ((le_max_right _ _).trans le_firstFit), ih hrest⟩

end FirstFit

end ContainerScheduler.Math
