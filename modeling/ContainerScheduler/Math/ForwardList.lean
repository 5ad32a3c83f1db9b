/-
# Singly linked lists

Each element of a list has a pointer to the next one. An element is put behind another one by
changing the pointers of these two.
-/

import Mathlib.Data.List.Nodup

namespace ContainerScheduler.Math

universe u

variable {α : Type u}

/-- From `start` on the pointers lead through the list, and end behind it. -/
def LeadsThrough (next : α → Option α) : Option α → List α → Prop
  | start, [] => start = none
  | start, a :: rest => start = some a ∧ LeadsThrough next (next a) rest

namespace LeadsThrough

variable {next next' : α → Option α} {start : Option α} {list front back : List α} {a b : α}

theorem congr (hleads : LeadsThrough next start list) (hnext : ∀ a ∈ list, next' a = next a) :
    LeadsThrough next' start list := by
  induction list generalizing start with
  | nil => exact hleads
  | cons a rest ih =>
      obtain ⟨hhead, hrest⟩ := List.forall_mem_cons.mp hnext
      exact ⟨hleads.1, hhead ▸ ih hleads.2 hrest⟩

theorem head?_eq (hleads : LeadsThrough next start list) : list.head? = start := by
  cases list with
  | nil => exact hleads.symm
  | cons a rest => exact hleads.1.symm

/-- What comes behind an element is where its pointer leads. -/
theorem behind (hleads : LeadsThrough next start (front ++ a :: back)) :
    LeadsThrough next (next a) back := by
  induction front generalizing start with
  | nil => exact hleads.2
  | cons c front ih => exact ih hleads.2

/-- An element is put behind the first one. -/
theorem insert [DecidableEq α] (hleads : LeadsThrough next (some a) (a :: back)) (ha : a ∉ back)
    (hb : b ∉ a :: back) :
    LeadsThrough (Function.update (Function.update next b (next a)) a (some b)) (some a)
      (a :: b :: back) := by
  obtain ⟨hne, hback⟩ := List.ne_and_not_mem_of_not_mem_cons hb
  refine ⟨rfl, Function.update_self _ _ _, ?_⟩
  rw [Function.update_of_ne hne, Function.update_self]
  refine hleads.2.congr fun c hc => ?_
  rw [Function.update_of_ne (ne_of_mem_of_not_mem hc ha),
    Function.update_of_ne (ne_of_mem_of_not_mem hc hback)]

end LeadsThrough

end ContainerScheduler.Math
