/-
# Array heaps

An array is a heap if no element is above one of the two behind twice its position. The first
element is then a lowest one. Exchanging a lowest element of a selection for a new one leaves nothing
out that is above what is selected.
-/

import Mathlib.Data.List.Perm.Basic
import Mathlib.Data.Nat.Notation
import Mathlib.Order.Defs.Unbundled
import Mathlib.Tactic.Common

namespace ContainerScheduler.Math

universe u

variable {α : Type u} {above : α → α → Prop}

def IsHeap (above : α → α → Prop) (heap : List α) : Prop :=
  ∀ i parent child, 0 < i → heap[(i - 1) / 2]? = some parent → heap[i]? = some child →
    ¬ above parent child

/-- An element of a list that is above no element of it. -/
def IsLowest (above : α → α → Prop) (lowest : α) (list : List α) : Prop :=
  lowest ∈ list ∧ ∀ a ∈ list, ¬ above lowest a

/-- Nothing that was left out is above what was selected. -/
def NoneAbove (above : α → α → Prop) (selected leftOut : List α) : Prop :=
  ∀ a ∈ selected, ∀ b ∈ leftOut, ¬ above b a

theorem IsLowest.of_perm {lowest : α} {list list' : List α} (hlowest : IsLowest above lowest list)
    (hperm : list.Perm list') : IsLowest above lowest list' :=
  ⟨hperm.mem_iff.mp hlowest.1, fun a ha => hlowest.2 a (hperm.mem_iff.mpr ha)⟩

theorem isHeap_of_pairwise {list : List α} (hsorted : list.Pairwise fun a b => ¬ above a b) :
    IsHeap above list := by
  intro i parent child hpositive hparent hchild
  obtain ⟨hi, rfl⟩ := List.getElem?_eq_some_iff.mp hchild
  obtain ⟨hp, rfl⟩ := List.getElem?_eq_some_iff.mp hparent
  exact List.pairwise_iff_getElem.mp hsorted _ _ hp hi (by omega)

theorem IsHeap.of_append {heap more : List α} (hheap : IsHeap above (heap ++ more)) :
    IsHeap above heap := by
  intro i parent child hpositive hparent hchild
  refine hheap i parent child hpositive ?_ ?_
  · exact List.getElem?_append_left (List.getElem?_eq_some_iff.mp hparent).1 ▸ hparent
  · exact List.getElem?_append_left (List.getElem?_eq_some_iff.mp hchild).1 ▸ hchild

section Order

variable [IsStrictWeakOrder α above]

theorem not_above_trans {a b c : α} (hab : ¬ above a b) (hbc : ¬ above b c) : ¬ above a c := by
  intro hac
  have hba : ¬ above b a := fun hba => hbc (IsTrans.trans b a c hba hac)
  have hcb : ¬ above c b := fun hcb => hab (IsTrans.trans a c b hac hcb)
  exact (IsStrictWeakOrder.incomp_trans a b c ⟨hab, hba⟩ ⟨hbc, hcb⟩).1 hac

theorem IsHeap.isLowest {front : α} {rest : List α} (hheap : IsHeap above (front :: rest)) :
    IsLowest above front (front :: rest) := by
  refine ⟨List.mem_cons_self, fun a ha => ?_⟩
  obtain ⟨i, hi⟩ := List.getElem?_of_mem ha
  induction i using Nat.strongRecOn generalizing a with
  | ind i ih =>
  by_cases hzero : i = 0
  · subst hzero
    obtain rfl : front = a := Option.some.inj hi
    exact irrefl front
  · have hlt : (i - 1) / 2 < (front :: rest).length := by
      have hbound := (List.getElem?_eq_some_iff.mp hi).1
      omega
    have hparent := List.getElem?_eq_getElem hlt
    exact not_above_trans (ih _ (by omega) _ (List.getElem_mem hlt) hparent)
      (hheap i _ _ (Nat.pos_of_ne_zero hzero) hparent hi)

/-- A lowest element is left out for a new one, or is the new one. -/
theorem NoneAbove.exchange {selected selected' leftOut : List α} {new lowest : α}
    (hnone : NoneAbove above selected leftOut)
    (hperm : (new :: selected).Perm (lowest :: selected'))
    (hlowest : IsLowest above lowest (new :: selected)) :
    NoneAbove above selected' (lowest :: leftOut) := by
  intro a ha b hb
  have hmem : a ∈ new :: selected := hperm.mem_iff.mpr (List.mem_cons_of_mem _ ha)
  rcases List.mem_cons.mp hb with rfl | hb
  · exact hlowest.2 a hmem
  rcases List.mem_cons.mp hlowest.1 with rfl | hselected
  · exact hnone a (hperm.cons_inv.mem_iff.mpr ha) b hb
  · exact not_above_trans (hnone lowest hselected b hb) (hlowest.2 a hmem)

end Order

end ContainerScheduler.Math
