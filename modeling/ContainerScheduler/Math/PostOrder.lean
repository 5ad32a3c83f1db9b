/-
# Post-order by a stack of work

A depth-first search keeps on its stack what is to be visited and, for each node it has entered, a
record that it is to be left. The records lie below all that is visited on their behalf, so that a
node is left when nothing is pending above it.
-/

import Mathlib.Data.List.Nodup
import Mathlib.Data.List.Perm.Basic

namespace ContainerScheduler.Math

open Relation

universe u

variable {α : Type u}

structure Work (α : Type u) where
  node : α
  leave : Bool

/-- The nodes that are to be left. -/
def toLeave (stack : List (Work α)) : List α := (stack.filter Work.leave).map Work.node

theorem mem_toLeave {stack : List (Work α)} {a : α} : a ∈ toLeave stack ↔ ⟨a, true⟩ ∈ stack := by
  constructor
  · intro hmem
    obtain ⟨⟨node, leave⟩, hwork, rfl⟩ := List.mem_map.mp hmem
    obtain ⟨hwork, hleave⟩ := List.mem_filter.mp hwork
    obtain rfl : leave = true := hleave
    exact hwork
  · exact fun hmem => List.mem_map.mpr ⟨⟨a, true⟩, List.mem_filter.mpr ⟨hmem, rfl⟩, rfl⟩

/-- Visits are pushed, above a record for the node they are made for if it is to be left. -/
def pushVisits (records : Bool) (a : α) (pushed : List α) (stack : List (Work α)) : List (Work α) :=
  pushed.map (fun b => ⟨b, false⟩) ++ ((if records then [⟨a, true⟩] else []) ++ stack)

theorem mem_pushVisits {records : Bool} {a b : α} {pushed : List α} {stack : List (Work α)} :
    ⟨b, false⟩ ∈ pushVisits records a pushed stack ↔ b ∈ pushed ∨ ⟨b, false⟩ ∈ stack := by
  cases records <;> simp [pushVisits]

theorem toLeave_pushVisits {records : Bool} {a : α} {pushed : List α} {stack : List (Work α)} :
    toLeave (pushVisits records a pushed stack) =
      (if records then [a] else []) ++ toLeave stack := by
  have hnone : (pushed.map fun b => (⟨b, false⟩ : Work α)).filter Work.leave = [] :=
    List.filter_eq_nil_iff.mpr (List.forall_mem_map.mpr fun _ _ => Bool.false_ne_true)
  rw [toLeave, pushVisits, List.filter_append, hnone, List.nil_append, toLeave]
  cases records <;> rfl

/-! ## What is visited -/

section Visits

variable (next : α → α → Prop) (starts : List α)

def ReachedFrom (a : α) : Prop := ∃ start ∈ starts, ReflTransGen next start a

/-- The nodes entered and left so far, and the stack. -/
structure Visiting (records : Bool) (stack : List (Work α)) (entered left : List α) : Prop where
  nodup : entered.Nodup
  leaves : (left ++ toLeave stack).Perm (if records then entered else [])
  reached : ∀ a, a ∈ entered ∨ ⟨a, false⟩ ∈ stack → ReachedFrom next starts a
  started : ∀ a ∈ starts, a ∈ entered ∨ ⟨a, false⟩ ∈ stack
  closed : ∀ a ∈ entered, ∀ b, next a b → b ∈ entered ∨ ⟨b, false⟩ ∈ stack

variable {next starts} {records : Bool} {stack : List (Work α)} {entered left pushed : List α}
  {a : α}

theorem visiting_start (records : Bool) :
    Visiting next starts records (starts.reverse.map fun a => ⟨a, false⟩) [] [] := by
  refine ⟨List.nodup_nil, ?_, ?_, ?_, by simp⟩
  · have hnone : toLeave (starts.reverse.map fun a => (⟨a, false⟩ : Work α)) = [] := by
      rw [toLeave, List.filter_eq_nil_iff.mpr
        (List.forall_mem_map.mpr fun _ _ => Bool.false_ne_true), List.map_nil]
    rw [hnone]
    cases records <;> exact .refl _
  · rintro a (hmem | hmem)
    · cases hmem
    · exact ⟨a, by simpa using hmem, .refl⟩
  · exact fun a ha => .inr (by simpa using ha)

namespace Visiting

/-- A record is on top. -/
theorem leave (hvisiting : Visiting next starts records (⟨a, true⟩ :: stack) entered left) :
    Visiting next starts records stack entered (left ++ [a]) := by
  have hbelow : ∀ {b : α}, ⟨b, false⟩ ∈ (⟨a, true⟩ : Work α) :: stack → ⟨b, false⟩ ∈ stack :=
    fun hmem => (List.mem_cons.mp hmem).resolve_left (by simp)
  refine ⟨hvisiting.nodup, ?_, fun b hb => hvisiting.reached b (hb.imp_right (.tail _)),
    fun b hb => (hvisiting.started b hb).imp_right hbelow,
    fun b hb c hc => (hvisiting.closed b hb c hc).imp_right hbelow⟩
  rw [List.append_assoc]
  exact hvisiting.leaves

/-- A visit to a node that was entered is on top. -/
theorem skip (hvisiting : Visiting next starts records (⟨a, false⟩ :: stack) entered left)
    (ha : a ∈ entered) : Visiting next starts records stack entered left := by
  have hbelow : ∀ {b : α}, ⟨b, false⟩ ∈ (⟨a, false⟩ : Work α) :: stack →
      b ∈ entered ∨ ⟨b, false⟩ ∈ stack := by
    intro b hmem
    rcases List.mem_cons.mp hmem with heq | hmem
    · exact .inl ((Work.mk.inj heq).1 ▸ ha)
    · exact .inr hmem
  exact ⟨hvisiting.nodup, hvisiting.leaves,
    fun b hb => hvisiting.reached b (hb.imp_right (.tail _)),
    fun b hb => (hvisiting.started b hb).elim .inl hbelow,
    fun b hb c hc => (hvisiting.closed b hb c hc).elim .inl hbelow⟩

/-- A visit to a new node is on top. -/
theorem enter (hvisiting : Visiting next starts records (⟨a, false⟩ :: stack) entered left)
    (ha : a ∉ entered) (hpushed : ∀ b ∈ pushed, next a b)
    (hall : ∀ b, next a b → b ∈ entered ++ [a] ∨ b ∈ pushed) :
    Visiting next starts records (pushVisits records a pushed stack) (entered ++ [a]) left := by
  have hreached := hvisiting.reached a (.inr List.mem_cons_self)
  have hbelow : ∀ {b : α}, b ∈ entered ∨ ⟨b, false⟩ ∈ (⟨a, false⟩ : Work α) :: stack →
      b ∈ entered ++ [a] ∨ ⟨b, false⟩ ∈ pushVisits records a pushed stack := by
    rintro b (hmem | hmem)
    · exact .inl (List.mem_append_left _ hmem)
    · rcases List.mem_cons.mp hmem with heq | hmem
      · exact .inl ((Work.mk.inj heq).1 ▸ List.mem_append_right _ List.mem_cons_self)
      · exact .inr (mem_pushVisits.mpr (.inr hmem))
  refine ⟨?_, ?_, ?_, fun b hb => hbelow (hvisiting.started b hb), ?_⟩
  · exact List.nodup_append.mpr ⟨hvisiting.nodup, List.nodup_singleton a, fun b hb c hc heq =>
      ha (List.mem_singleton.mp hc ▸ heq ▸ hb)⟩
  · have hleaves : (left ++ toLeave stack).Perm (if records then entered else []) :=
      hvisiting.leaves
    rw [toLeave_pushVisits]
    cases records with
    | false => exact hleaves
    | true =>
        exact List.perm_middle.trans ((hleaves.cons a).trans (List.perm_append_singleton a _).symm)
  · rintro b (hmem | hmem)
    · rcases List.mem_append.mp hmem with hmem | hmem
      · exact hvisiting.reached b (.inl hmem)
      · exact List.mem_singleton.mp hmem ▸ hreached
    · rcases mem_pushVisits.mp hmem with hmem | hmem
      · obtain ⟨start, hstart, hpath⟩ := hreached
        exact ⟨start, hstart, hpath.tail (hpushed b hmem)⟩
      · exact hvisiting.reached b (.inr (List.mem_cons_of_mem _ hmem))
  · intro b hb c hc
    rcases List.mem_append.mp hb with hb | hb
    · exact hbelow (hvisiting.closed b hb c hc)
    · obtain rfl := List.mem_singleton.mp hb
      exact (hall c hc).imp_right fun hmem => mem_pushVisits.mpr (.inl hmem)

/-- At the end exactly the reachable nodes were entered, and were left if there were records. -/
theorem finish (hvisiting : Visiting next starts records [] entered left) :
    (∀ a, a ∈ entered ↔ ReachedFrom next starts a) ∧
      left.Perm (if records then entered else []) := by
  refine ⟨fun a => ⟨fun ha => hvisiting.reached a (.inl ha), ?_⟩, ?_⟩
  · rintro ⟨start, hstart, hpath⟩
    induction hpath with
    | refl => exact (hvisiting.started start hstart).resolve_right List.not_mem_nil
    | tail _ hedge ih => exact (hvisiting.closed _ ih _ hedge).resolve_right List.not_mem_nil
  · simpa [toLeave] using hvisiting.leaves

end Visiting

end Visits

/-! ## The order in which nodes are left -/

theorem pair_sublist_cons {a b c : α} {list : List α} :
    [a, b].Sublist (c :: list) ↔ [a, b].Sublist list ∨ a = c ∧ b ∈ list := by
  rw [List.sublist_cons_iff]
  refine or_congr_right ⟨?_, ?_⟩
  · rintro ⟨rest, heq, hrest⟩
    obtain ⟨rfl, rfl⟩ := List.cons.inj heq
    exact ⟨rfl, List.singleton_sublist.mp hrest⟩
  · rintro ⟨rfl, hmem⟩
    exact ⟨[b], rfl, List.singleton_sublist.mpr hmem⟩

/-- Two elements come one after the other. -/
theorem pair_sublist_or {a b : α} {list : List α} (ha : a ∈ list) (hb : b ∈ list) (hne : a ≠ b) :
    [a, b].Sublist list ∨ [b, a].Sublist list := by
  induction list with
  | nil => cases ha
  | cons c list ih =>
      rw [pair_sublist_cons, pair_sublist_cons]
      rcases List.mem_cons.mp ha with rfl | ha'
      · exact .inl (.inr ⟨rfl, (List.mem_cons.mp hb).resolve_left hne.symm⟩)
      · rcases List.mem_cons.mp hb with rfl | hb'
        · exact .inr (.inr ⟨rfl, ha'⟩)
        · exact (ih ha' hb').imp .inl .inl

section Order

variable (next : α → α → Prop)

/-- What lies above a record is visited on behalf of its node, and the successors of this node lie
there if they were not left. -/
structure Nested (stack : List (Work α)) (left : List α) : Prop where
  above : stack.Pairwise fun work below => below.leave = true → TransGen next below.node work.node
  covered : ∀ a ∈ toLeave stack, ∀ b, next a b →
    b ∈ left ∨ ∃ work : Work α, [work, ⟨a, true⟩].Sublist stack ∧ work.node = b
  before : ∀ a ∈ left, ∀ b, next a b → [b, a].Sublist left

variable {next} {starts : List α} {stack : List (Work α)} {entered left pushed : List α} {a : α}

theorem nested_start : Nested next (starts.reverse.map fun a => ⟨a, false⟩) [] := by
  refine ⟨?_, fun a ha => ?_, by simp⟩
  · refine List.pairwise_of_forall_mem_list fun work _ below hbelow hleave => ?_
    obtain ⟨_, _, rfl⟩ := List.mem_map.mp hbelow
    cases hleave
  · obtain ⟨_, _, heq⟩ := List.mem_map.mp (mem_toLeave.mp ha)
    cases heq

namespace Nested

theorem leave (hnested : Nested next (⟨a, true⟩ :: stack) left)
    (hvisiting : Visiting next starts true (⟨a, true⟩ :: stack) entered left) :
    Nested next stack (left ++ [a]) := by
  refine ⟨(List.pairwise_cons.mp hnested.above).2, fun b hb c hc => ?_, fun b hb c hc => ?_⟩
  · obtain hmem | ⟨work, hwork, rfl⟩ := hnested.covered b (List.mem_cons_of_mem _ hb) c hc
    · exact .inl (List.mem_append_left _ hmem)
    · obtain hwork | ⟨rfl, -⟩ := pair_sublist_cons.mp hwork
      · exact .inr ⟨work, hwork, rfl⟩
      · exact .inl (List.mem_append_right _ List.mem_cons_self)
  · rcases List.mem_append.mp hb with hb | hb
    · exact (hnested.before b hb c hc).trans (List.sublist_append_left _ _)
    · -- nothing lies above the record, and no other one is of this node
      obtain rfl := List.mem_singleton.mp hb
      have hnodup : (left ++ toLeave (⟨b, true⟩ :: stack)).Nodup :=
        hvisiting.leaves.nodup_iff.mpr hvisiting.nodup
      have honce : b ∉ toLeave stack :=
        (List.nodup_cons.mp (List.nodup_append.mp hnodup).2.1).1
      have hleft : c ∈ left := by
        refine (hnested.covered b List.mem_cons_self c hc).resolve_right ?_
        rintro ⟨work, hwork, -⟩
        have hmem : (⟨b, true⟩ : Work α) ∈ stack := by
          obtain hwork | ⟨-, hmem⟩ := pair_sublist_cons.mp hwork
          · exact hwork.subset (by simp)
          · exact hmem
        exact honce (mem_toLeave.mpr hmem)
      exact (List.singleton_sublist.mpr hleft).append (List.Sublist.refl [b])

/-- A node that was entered and not left has a record. -/
theorem mem_toLeave_of_entered
    (hvisiting : Visiting next starts true stack entered left) (ha : a ∈ entered)
    (hleft : a ∉ left) : a ∈ toLeave stack :=
  (List.mem_append.mp (hvisiting.leaves.mem_iff.mpr ha)).resolve_left hleft

theorem entered_of_mem_toLeave (hvisiting : Visiting next starts true stack entered left)
    (ha : a ∈ toLeave stack) : a ∈ entered :=
  hvisiting.leaves.mem_iff.mp (List.mem_append_right left ha)

theorem skip (hnested : Nested next (⟨a, false⟩ :: stack) left)
    (hvisiting : Visiting next starts true (⟨a, false⟩ :: stack) entered left) (ha : a ∈ entered)
    (hacyclic : ∀ b ∈ entered, ¬ TransGen next b b) : Nested next stack left := by
  obtain ⟨hfirst, habove⟩ := List.pairwise_cons.mp hnested.above
  refine ⟨habove, fun b hb c hc => ?_, hnested.before⟩
  have hentered : b ∈ entered := entered_of_mem_toLeave hvisiting hb
  obtain hmem | ⟨work, hwork, rfl⟩ := hnested.covered b hb c hc
  · exact .inl hmem
  · obtain hwork | ⟨rfl, -⟩ := pair_sublist_cons.mp hwork
    · exact .inr ⟨work, hwork, rfl⟩
    · -- the node was entered below, and its own record lies above the other one
      refine or_iff_not_imp_left.mpr fun hleft => ⟨⟨a, true⟩, ?_, rfl⟩
      have hbelow := mem_toLeave.mp (mem_toLeave_of_entered hvisiting ha hleft)
      have hrecord : (⟨a, true⟩ : Work α) ∈ stack :=
        (List.mem_cons.mp hbelow).resolve_left (by simp)
      have hne : (⟨a, true⟩ : Work α) ≠ ⟨b, true⟩ := fun heq =>
        hacyclic b hentered (.single ((Work.mk.inj heq).1 ▸ hc))
      refine (pair_sublist_or hrecord (mem_toLeave.mp hb) hne).resolve_right fun hpair => ?_
      have hpath := List.pairwise_iff_forall_sublist.mp habove hpair rfl
      exact hacyclic b hentered (.head hc hpath)

theorem enter (hnested : Nested next (⟨a, false⟩ :: stack) left)
    (hvisiting : Visiting next starts true (⟨a, false⟩ :: stack) entered left) (ha : a ∉ entered)
    (hpushed : ∀ b ∈ pushed, next a b)
    (hall : ∀ b, next a b → b ∈ entered ++ [a] ∨ b ∈ pushed)
    (hacyclic : ∀ b ∈ entered ++ [a], ¬ TransGen next b b) :
    Nested next (pushVisits true a pushed stack) left := by
  obtain ⟨hfirst, habove⟩ := List.pairwise_cons.mp hnested.above
  have hself : a ∈ entered ++ [a] := List.mem_append_right _ List.mem_cons_self
  have hstack : stack.Sublist (pushVisits true a pushed stack) :=
    (List.sublist_cons_self _ _).trans (List.sublist_append_right _ _)
  have hrecord : (⟨a, true⟩ : Work α) ∈ pushVisits true a pushed stack :=
    List.mem_append_right _ List.mem_cons_self
  refine ⟨?_, fun b hb c hc => ?_, hnested.before⟩
  · refine List.pairwise_append.mpr ⟨?_, List.pairwise_cons.mpr ⟨hfirst, habove⟩, ?_⟩
    · refine List.pairwise_of_forall_mem_list fun work _ below hbelow hleave => ?_
      obtain ⟨_, _, rfl⟩ := List.mem_map.mp hbelow
      cases hleave
    · intro work hwork below hbelow hleave
      obtain ⟨b, hb, rfl⟩ := List.mem_map.mp hwork
      rcases List.mem_cons.mp hbelow with rfl | hbelow
      · exact .single (hpushed b hb)
      · exact (hfirst below hbelow hleave).tail (hpushed b hb)
  · rw [toLeave_pushVisits] at hb
    rcases List.mem_cons.mp hb with rfl | hb
    · rcases hall c hc with hmem | hmem
      · refine or_iff_not_imp_left.mpr fun hleft => ?_
        rcases List.mem_append.mp hmem with hmem | hmem
        · -- a successor that was entered and not left would be on a cycle
          have hbelow := mem_toLeave.mp (mem_toLeave_of_entered hvisiting hmem hleft)
          have hbelow' := (List.mem_cons.mp hbelow).resolve_left (by simp)
          exact absurd (.head hc (hfirst _ hbelow' rfl)) (hacyclic b hself)
        · obtain rfl := List.mem_singleton.mp hmem
          exact absurd (.single hc) (hacyclic c hself)
      · refine .inr ⟨⟨c, false⟩, ?_, rfl⟩
        have hvisit : [(⟨c, false⟩ : Work α)].Sublist (pushed.map fun b => ⟨b, false⟩) :=
          List.singleton_sublist.mpr (List.mem_map_of_mem hmem)
        exact hvisit.append (List.singleton_sublist.mpr List.mem_cons_self)
    · obtain hmem | ⟨work, hwork, rfl⟩ := hnested.covered b hb c hc
      · exact .inl hmem
      · refine .inr ?_
        obtain hwork | ⟨rfl, hmem⟩ := pair_sublist_cons.mp hwork
        · exact ⟨work, hwork.trans hstack, rfl⟩
        · refine ⟨⟨a, true⟩, ?_, rfl⟩
          have hpair : [(⟨a, true⟩ : Work α), ⟨b, true⟩].Sublist (⟨a, true⟩ :: stack) :=
            (List.singleton_sublist.mpr hmem).cons_cons _
          exact hpair.trans (List.sublist_append_right _ _)

end Nested

end Order

end ContainerScheduler.Math
