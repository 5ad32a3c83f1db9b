/-
# The greatest elements are kept

Up to the limit all elements are kept, unsorted. Behind it they are a heap of the greatest ones, from
which a lowest one is dropped for each new element. The scan for the bottom keeps its index in an
`int`, so that it finds only one that is among the first 2^31 elements.
-/

import ContainerScheduler.Containers.TopN
import ContainerScheduler.Math.ArrayHeap
import ContainerScheduler.Math.Transition
import Mathlib.Data.List.Sort

namespace ContainerScheduler.Analysis

open Containers.TopN
open Math

universe u

variable {α : Type u}

/-- The first element is greater than the second one. -/
abbrev Above (cmp : α → α → Bool) (a b : α) : Prop := cmp a b = true

/-- From a lowest element on, upwards by the predicate, none is above the one in front of it. -/
abbrev Descending (cmp : α → α → Bool) (list : List α) : Prop :=
  list.Pairwise fun a b => ¬ Above cmp b a

/-- The specifications of the standard library. As `PushInternal` relies on, `pop_heap` exchanges the
first and the last element, and makes a heap of all but the last one if they were one. -/
structure Lawful (std : Algorithms α) (cmp : α → α → Bool) : Prop where
  makeHeap : ∀ list, (std.makeHeap list).Perm list ∧ IsHeap (Above cmp) (std.makeHeap list)
  popHeap : ∀ front rest, IsHeap (Above cmp) (front :: rest).dropLast →
    ∃ heap, std.popHeap (front :: rest) = heap ++ [front] ∧ heap.Perm rest ∧
      IsHeap (Above cmp) heap
  sort : ∀ list, (std.sort list).Perm list ∧ Descending cmp (std.sort list)
  sortHeap : ∀ list, IsHeap (Above cmp) list →
    (std.sortHeap list).Perm list ∧ Descending cmp (std.sortHeap list)

/-! ## Calls -/

inductive TopNCall (α : Type u)
  | push (v : α)
  | peekBottom
  | reset

/-- The elements with those that were pushed since the last reset. -/
def topNStep (std : Algorithms α) (cmp : α → α → Bool) (s : TopElements α × List α) :
    TopNCall α → Option (TopElements α × List α)
  | .push v => (pushInternal std cmp s.1 v).map fun result => (result.1, v :: s.2)
  | .peekBottom => (peekBottom cmp s.1).map fun result => (result.1, s.2)
  | .reset => some (reset s.1, [])

def topN (std : Algorithms α) (cmp : α → α → Bool) (limit : ℕ) :
    Machine (TopElements α × List α) (TopNCall α) where
  init := ({ limit }, [])
  step := topNStep std cmp

/-- A bottom of an unsorted vector has an index that is an `int`. -/
def BottomInInt (cmp : α → α → Bool) (t : TopElements α) : Prop :=
  t.state = .unordered →
    ∃ i < 2 ^ 31, ∃ bottom, t.elements[i]? = some bottom ∧ IsLowest (Above cmp) bottom t.elements

def PeeksInInt (cmp : α → α → Bool) (s : TopElements α × List α) : TopNCall α → Prop
  | .peekBottom => BottomInInt cmp s.1
  | _ => True

/-! ## The three representations -/

/-- How the elements that were pushed are kept. -/
inductive KeepsTop (cmp : α → α → Bool) : TopElements α → List α → Prop
  | none {t : TopElements α} {pushed : List α} (hlimit : t.limit = 0) (hempty : t.elements = [])
      (hstate : t.state = .unordered) : KeepsTop cmp t pushed
  | all {t : TopElements α} {pushed : List α} (hlimit : t.limit ≠ 0) (hstate : t.state ≠ .heapSorted)
      (hperm : t.elements.Perm pushed) (hshort : t.elements.length ≤ t.limit)
      (hbottom : t.state = .bottomKnown →
        ∃ front, t.elements[0]? = some front ∧ IsLowest (Above cmp) front t.elements) :
      KeepsTop cmp t pushed
  | greatest {t : TopElements α} {pushed : List α} {heap leftOut : List α} {unused : α}
      (hlimit : t.limit ≠ 0) (hstate : t.state = .heapSorted)
      (helements : t.elements = heap ++ [unused]) (hlength : heap.length = t.limit)
      (hheap : IsHeap (Above cmp) heap) (hperm : (heap ++ leftOut).Perm pushed)
      (hnone : NoneAbove (Above cmp) heap leftOut) : KeepsTop cmp t pushed

section Steps

variable {std : Algorithms α} {cmp : α → α → Bool} {t : TopElements α} {pushed : List α}

theorem unsorted_of_short (hshort : t.elements.length ≤ t.limit) : unsorted t = t.elements := by
  rw [unsorted, size, min_eq_left hshort, List.take_length]

theorem unsorted_of_heap {heap : List α} {unused : α} (helements : t.elements = heap ++ [unused])
    (hlength : heap.length = t.limit) : unsorted t = heap := by
  rw [unsorted, size, helements, List.length_append, List.length_singleton, hlength,
    min_eq_right (Nat.le_succ _), ← hlength, List.take_left]

theorem swapFront_perm {elements : List α} {index : ℕ} {element : α}
    (helement : elements[index]? = some element) :
    ∃ swapped, swapFront elements index = some swapped ∧ swapped.Perm elements ∧
      swapped[0]? = some element := by
  obtain ⟨hlt, rfl⟩ := List.getElem?_eq_some_iff.mp helement
  have hpositive : 0 < elements.length := (Nat.zero_le index).trans_lt hlt
  have hfront := List.getElem?_eq_getElem hpositive
  have hat : elementAt elements index = some elements[index] := by
    rw [elementAt, if_neg (by omega), Int.toNat_natCast]
    exact helement
  refine ⟨(elements.set 0 elements[index]).set index elements[0], ?_,
    List.set_set_perm hpositive hlt, ?_⟩
  · rw [swapFront, hfront, hat]
    rfl
  · by_cases hzero : index = 0
    · subst hzero
      rw [List.getElem?_set_self (by rwa [List.length_set])]
    · rw [List.getElem?_set_ne hzero, List.getElem?_set_self hpositive]

/-! ### Push -/

section Push

variable [IsStrictWeakOrder α (Above cmp)]

theorem pushUnsorted_spec (v : α)
    (hbottom : t.state = .bottomKnown →
      ∃ front, t.elements[0]? = some front ∧ IsLowest (Above cmp) front t.elements) :
    ∃ elements, pushUnsorted cmp t v = some elements ∧ elements.Perm (v :: t.elements) ∧
      (t.state = .bottomKnown →
        ∃ front, elements[0]? = some front ∧ IsLowest (Above cmp) front elements) := by
  have hlt : 0 < (t.elements ++ [v]).length := by simp
  have hfront := List.getElem?_eq_getElem hlt
  have hperm : (t.elements ++ [v]).Perm (v :: t.elements) := List.perm_append_singleton v _
  rw [pushUnsorted, hfront, Option.bind_some]
  split_ifs with hback
  · refine ⟨_, rfl, hperm, fun hknown => ?_⟩
    obtain ⟨front, hget, hlowest⟩ := hbottom hknown
    have hget' : (t.elements ++ [v])[0]? = some front :=
      List.getElem?_append_left (List.getElem?_eq_some_iff.mp hget).1 ▸ hget
    refine ⟨front, hget', List.mem_append_left _ hlowest.1, fun a ha => ?_⟩
    rcases List.mem_append.mp ha with ha | ha
    · exact hlowest.2 a ha
    · obtain rfl := List.mem_singleton.mp ha
      have habove : Above cmp a front := by
        rw [hget', Option.some.injEq] at hfront
        rw [← hfront] at hback
        exact hback.resolve_left fun hunordered => by rw [hunordered] at hknown; cases hknown
      exact asymm habove
  · obtain ⟨elements, hswap, hswapped, hzero⟩ := 
      @swapFront_perm _ (t.elements ++ [v]) t.elements.length _ List.getElem?_concat_length
    refine ⟨elements, hswap, hswapped.trans hperm, fun hknown => ⟨v, hzero, ?_, fun a ha => ?_⟩⟩
    · exact (hswapped.trans hperm).mem_iff.mpr List.mem_cons_self
    · obtain ⟨front, hget, hlowest⟩ := hbottom hknown
      have hget' : (t.elements ++ [v])[0]? = some front :=
        List.getElem?_append_left (List.getElem?_eq_some_iff.mp hget).1 ▸ hget
      rw [hget', Option.some.injEq] at hfront
      rw [← hfront, not_or] at hback
      rcases List.mem_cons.mp ((hswapped.trans hperm).mem_iff.mp ha) with rfl | ha
      · exact irrefl a
      · exact not_above_trans hback.2 (hlowest.2 a ha)

/-- What is stored in `dropped`: nothing up to the limit, then a lowest element. -/
structure DropsLowest (cmp : α → α → Bool) (t : TopElements α) (v : α) (dropped : Option α) :
    Prop where
  isNone : dropped = none ↔ (unsorted t).length < t.limit
  isLowest : ∀ lowest, dropped = some lowest → IsLowest (Above cmp) lowest (v :: unsorted t)

theorem push_spec (hlawful : Lawful std cmp) (v : α) (hkeeps : KeepsTop cmp t pushed) :
    ∃ after dropped, pushInternal std cmp t v = some (after, dropped) ∧
      after.limit = t.limit ∧ KeepsTop cmp after (v :: pushed) ∧ DropsLowest cmp t v dropped := by
  cases hkeeps with
  | none hlimit hempty hstate =>
      have hunsorted : unsorted t = [] := by
        rw [unsorted, hempty, List.take_nil]
      refine ⟨t, some v, if_pos hlimit, rfl, .none hlimit hempty hstate, ?_, ?_⟩
      · rw [hlimit]
        exact iff_of_false (by simp) (Nat.not_lt_zero _)
      · rintro lowest hlowest
        obtain rfl := Option.some.inj hlowest
        rw [hunsorted]
        exact ⟨List.mem_cons_self, fun a ha => List.mem_singleton.mp ha ▸ irrefl a⟩
  | all hlimit hstate hperm hshort hbottom =>
      obtain ⟨elements, hpush, helements, hfront⟩ := pushUnsorted_spec v hbottom
      have hlength : elements.length = t.elements.length + 1 := helements.length_eq
      have hunsorted := unsorted_of_short hshort
      rw [pushInternal, if_neg hlimit, if_pos hstate, hpush, Option.map_some]
      by_cases hfull : elements.length = t.limit + 1
      · rw [if_pos hfull]
        obtain ⟨hmake, hheap⟩ := hlawful.makeHeap elements
        cases hmade : std.makeHeap elements with
        | nil =>
            have hnil := hmake.length_eq
            rw [hmade, List.length_nil] at hnil
            omega
        | cons front rest =>
            rw [hmade] at hmake hheap
            have hlowest := hheap.isLowest
            obtain ⟨heap, hpop, hrest, hheap'⟩ := hlawful.popHeap front rest (by
              have hsplit := List.dropLast_concat_getLast (List.cons_ne_nil front rest)
              rw [← hsplit] at hheap
              exact hheap.of_append)
            have hall : (front :: rest).Perm (v :: unsorted t) := by
              rw [hunsorted]
              exact hmake.trans helements
            have hcount := hall.length_eq
            have hheapLength := hrest.length_eq
            rw [hunsorted, List.length_cons, List.length_cons] at hcount
            refine ⟨{ t with elements := heap ++ [front], state := .heapSorted }, some front, ?_, rfl,
              @KeepsTop.greatest _ _ _ _ _ [front] _ hlimit rfl rfl ?_ hheap' ?_ ?_, ?_, ?_⟩
            · rw [← hpop]
              rfl
            · change heap.length = t.limit
              omega
            · refine (List.perm_append_singleton front heap).trans ((hrest.cons front).trans ?_)
              exact hall.trans ((hunsorted ▸ hperm).cons v)
            · intro a ha b hb
              obtain rfl := List.mem_singleton.mp hb
              exact hlowest.2 a (List.mem_cons_of_mem _ (hrest.mem_iff.mp ha))
            · rw [hunsorted]
              exact iff_of_false (by simp) (by omega)
            · intro lowest heq
              obtain rfl := Option.some.inj heq
              exact hlowest.of_perm hall
      · rw [if_neg hfull]
        refine ⟨_, none, rfl, rfl, .all hlimit hstate (helements.trans (hperm.cons v)) ?_ hfront, ?_,
          fun lowest heq => by cases heq⟩
        · change elements.length ≤ t.limit
          omega
        · rw [hunsorted]
          exact iff_of_true rfl (by omega)
  | @greatest heap leftOut unused hlimit hstate helements hlength hheap hperm hnone =>
      have hunsorted := unsorted_of_heap helements hlength
      have hfull : ¬ (unsorted t).length < t.limit := by
        rw [hunsorted, hlength]
        exact lt_irrefl _
      cases heap with
      | nil => exact absurd hlength.symm hlimit
      | cons front rest =>
          have hlowest := hheap.isLowest
          have hfront : t.elements[0]? = some front := by
            rw [helements]
            rfl
          rw [pushInternal, if_neg hlimit, if_neg (not_not.mpr hstate), hfront, Option.map_some]
          by_cases habove : cmp v front = true
          · obtain ⟨heap', hpop, hrest, hheap'⟩ := hlawful.popHeap front (rest ++ [v]) (by
              rw [← List.cons_append, List.dropLast_concat]
              exact hheap)
            have hexchange : (v :: front :: rest).Perm (front :: heap') :=
              (List.Perm.swap front v rest).trans
                (((List.perm_append_singleton v rest).symm.trans hrest.symm).cons front)
            have hlowest' : IsLowest (Above cmp) front (v :: front :: rest) :=
              ⟨List.mem_cons_of_mem _ List.mem_cons_self,
                List.forall_mem_cons.mpr ⟨asymm habove, hlowest.2⟩⟩
            have hheapLength := hexchange.length_eq
            refine ⟨{ t with elements := heap' ++ [front] }, some front, ?_, rfl,
              .greatest hlimit hstate rfl ?_ hheap' ?_ (hnone.exchange hexchange hlowest'), ?_, ?_⟩
            · have hlast : (heap' ++ [front]).getLast? = some front := List.getLast?_concat
              rw [if_pos habove, helements, List.dropLast_concat, List.cons_append, hpop, ← hlast]
            · change heap'.length = t.limit
              have hrestLength : rest.length + 1 = t.limit := hlength
              rw [List.length_cons, List.length_cons, List.length_cons] at hheapLength
              omega
            · refine List.perm_middle.trans ?_
              have hmore := hexchange.symm.append_right leftOut
              exact hmore.trans (hperm.cons v)
            · exact iff_of_false (by simp) hfull
            · intro lowest heq
              obtain rfl := Option.some.inj heq
              rw [hunsorted]
              exact hlowest'
          · have hlowest' : IsLowest (Above cmp) v (v :: front :: rest) :=
              ⟨List.mem_cons_self, List.forall_mem_cons.mpr
                ⟨irrefl v, fun a ha => not_above_trans habove (hlowest.2 a ha)⟩⟩
            rw [if_neg habove]
            refine ⟨t, some v, rfl, rfl,
              .greatest hlimit hstate helements hlength hheap ?_
                (hnone.exchange (List.Perm.refl _) hlowest'), ?_, ?_⟩
            · exact List.perm_middle.trans (hperm.cons v)
            · exact iff_of_false (by simp) hfull
            · intro lowest heq
              obtain rfl := Option.some.inj heq
              rw [hunsorted]
              exact hlowest'

end Push

/-! ### Peek -/

section Peek

variable [IsStrictWeakOrder α (Above cmp)]

theorem toInt_of_lt {i : ℕ} (hlt : i < 2 ^ 31) : toInt i = i := Int.bmod_eq_of_le (by omega) (by omega)

/-- The scan finds a lowest element among those with an index that is an `int`. -/
theorem scanBottom_spec {elements before rest : List α} {j c : ℕ} {bottom candidate : α}
    (hj : j < 2 ^ 31) (hget : elements[j]? = some bottom)
    (hbottom : IsLowest (Above cmp) bottom elements) (hsplit : elements = before ++ rest)
    (hcandidate : elements[c]? = some candidate) (hlowest : IsLowest (Above cmp) candidate before) :
    ∃ (c' : ℕ) (lowest : α), scanBottom cmp elements before.length c rest = some (c' : ℤ) ∧
      elements[c']? = some lowest ∧ IsLowest (Above cmp) lowest elements := by
  induction rest generalizing before c candidate with
  | nil =>
      rw [List.append_nil] at hsplit
      exact ⟨c, candidate, rfl, hcandidate, hsplit ▸ hlowest⟩
  | cons element rest ih =>
      have hat : elementAt elements (c : ℤ) = some candidate := by
        rw [elementAt, if_neg (by omega), Int.toNat_natCast]
        exact hcandidate
      have hsplit' : elements = (before ++ [element]) ++ rest := by
        rw [hsplit, List.append_assoc]
        rfl
      have helement : elements[before.length]? = some element := by
        rw [hsplit, List.getElem?_append_right le_rfl, Nat.sub_self]
        rfl
      rw [scanBottom, hat, Option.bind_some]
      by_cases habove : cmp candidate element = true
      · have hlt : before.length < 2 ^ 31 := by
          by_contra hge
          -- the lowest element was passed before
          have hmem : bottom ∈ before := by
            rw [hsplit, List.getElem?_append_left (by omega)] at hget
            exact List.mem_of_getElem? hget
          exact not_above_trans (hlowest.2 bottom hmem)
            (hbottom.2 element (List.mem_of_getElem? helement)) habove
        rw [if_pos habove, toInt_of_lt hlt]
        have hnext := ih hsplit' helement
          ⟨List.mem_append_right _ List.mem_cons_self, fun a ha => ?_⟩
        · rwa [List.length_append] at hnext
        · rcases List.mem_append.mp ha with ha | ha
          · exact not_above_trans (asymm habove) (hlowest.2 a ha)
          · rw [List.mem_singleton.mp ha]
            exact irrefl element
      · rw [if_neg habove]
        have hnext := ih hsplit' hcandidate
          ⟨List.mem_append_left _ hlowest.1, fun a ha => ?_⟩
        · rwa [List.length_append] at hnext
        · rcases List.mem_append.mp ha with ha | ha
          · exact hlowest.2 a ha
          · exact List.mem_singleton.mp ha ▸ habove

/-- A lowest element is put in front. -/
theorem findBottom_spec (hstate : t.state = .unordered) (hbottom : BottomInInt cmp t) :
    ∃ elements front, findBottom cmp t = some { t with elements, state := .bottomKnown } ∧
      elements.Perm t.elements ∧ elements[0]? = some front ∧
        IsLowest (Above cmp) front t.elements := by
  obtain ⟨j, hj, bottom, hget, hlowest⟩ := hbottom hstate
  cases helements : t.elements with
  | nil =>
      rw [helements] at hget
      cases hget
  | cons first rest =>
      rw [helements] at hget hlowest
      obtain ⟨c, lowest, hscan, hcandidate, hfound⟩ := 
        @scanBottom_spec _ _ _ _ [first] _ _ 0 _ _ hj hget hlowest rfl rfl
        ⟨List.mem_cons_self, fun a ha => by rw [List.mem_singleton.mp ha]; exact irrefl first⟩
      have hscan' : scanBottom cmp (first :: rest) 1 0 rest = some (c : ℤ) := hscan
      rw [findBottom, if_pos hstate, helements, List.tail_cons, hscan', Option.bind_some]
      by_cases hzero : (c : ℤ) = 0
      · obtain rfl : c = 0 := Int.natCast_eq_zero.mp hzero
        rw [if_neg (not_not.mpr hzero)]
        exact ⟨first :: rest, lowest, rfl, List.Perm.refl _, hcandidate, hfound⟩
      · obtain ⟨swapped, hswap, hperm, hfront⟩ := swapFront_perm hcandidate
        rw [if_pos hzero, hswap]
        exact ⟨swapped, lowest, rfl, hperm, hfront, hfound⟩

theorem peek_spec (hkeeps : KeepsTop cmp t pushed) (hnonempty : size t ≠ 0)
    (hbottom : BottomInInt cmp t) :
    ∃ after bottom, peekBottom cmp t = some (after, bottom) ∧ after.limit = t.limit ∧
      KeepsTop cmp after pushed ∧ IsLowest (Above cmp) bottom (unsorted t) := by
  rw [peekBottom, if_neg hnonempty]
  cases hkeeps with
  | none hlimit hempty hstate =>
      rw [size, hempty, List.length_nil, Nat.zero_min] at hnonempty
      exact absurd rfl hnonempty
  | all hlimit hstate hperm hshort hfront =>
      rw [unsorted_of_short hshort]
      cases hcase : t.state with
      | heapSorted => exact absurd hcase hstate
      | bottomKnown =>
          obtain ⟨front, hget, hlowest⟩ := hfront hcase
          refine ⟨t, front, ?_, rfl, .all hlimit hstate hperm hshort hfront, hlowest⟩
          rw [findBottom, if_neg (by rw [hcase]; decide), Option.bind_some, hget, Option.map_some]
      | unordered =>
          obtain ⟨elements, front, hfound, hsame, hget, hlowest⟩ := findBottom_spec hcase hbottom
          refine ⟨{ t with elements, state := .bottomKnown }, front, ?_, rfl,
            .all hlimit State.noConfusion (hsame.trans hperm) (hsame.length_eq.trans_le hshort)
              (fun _ => ⟨front, hget, hlowest.of_perm hsame.symm⟩), hlowest⟩
          rw [hfound, Option.bind_some, hget, Option.map_some]
  | @greatest heap leftOut unused hlimit hstate helements hlength hheap hperm hnone =>
      rw [unsorted_of_heap helements hlength]
      cases heap with
      | nil => exact absurd hlength.symm hlimit
      | cons front rest =>
          have hfront : t.elements[0]? = some front := by
            rw [helements]
            rfl
          refine ⟨t, front, ?_, rfl, .greatest hlimit hstate helements hlength hheap hperm hnone,
            hheap.isLowest⟩
          rw [findBottom, if_neg (by rw [hstate]; decide), Option.bind_some, hfront, Option.map_some]

end Peek

/-! ### Extract -/

theorem extract_spec (hlawful : Lawful std cmp) (hkeeps : KeepsTop cmp t pushed) :
    (extractNondestructive std t).Perm (unsorted t) ∧
      Descending cmp (extractNondestructive std t) ∧
        extractUnsortedNondestructive t = unsorted t := by
  have hsort : t.state ≠ .heapSorted → t.elements.length ≤ t.limit →
      (extractNondestructive std t).Perm (unsorted t) ∧
        Descending cmp (extractNondestructive std t) ∧
          extractUnsortedNondestructive t = unsorted t := by
    intro hstate hshort
    rw [extractNondestructive, if_pos hstate, extractUnsortedNondestructive, if_neg hstate,
      unsorted_of_short hshort]
    exact ⟨(hlawful.sort _).1, (hlawful.sort _).2, rfl⟩
  cases hkeeps with
  | none hlimit hempty hstate =>
      exact hsort (by rw [hstate]; decide) (by rw [hempty]; exact Nat.zero_le _)
  | all hlimit hstate hperm hshort hfront => exact hsort hstate hshort
  | greatest hlimit hstate helements hlength hheap hperm hnone =>
      rw [extractNondestructive, if_neg (not_not.mpr hstate), extractUnsortedNondestructive,
        if_pos hstate, unsorted_of_heap helements hlength, helements, List.dropLast_concat]
      exact ⟨(hlawful.sortHeap _ hheap).1, (hlawful.sortHeap _ hheap).2, rfl⟩

end Steps

/-! ## Runs -/

/-- All that can be asked of the elements, when these were pushed. -/
structure AnswersRight (std : Algorithms α) (cmp : α → α → Bool) (limit : ℕ)
    (s : TopElements α × List α) : Prop where
  held : (unsorted s.1).length = min limit s.2.length
  leftOut : ∃ leftOut, (unsorted s.1 ++ leftOut).Perm s.2 ∧
    NoneAbove (Above cmp) (unsorted s.1) leftOut
  push : ∀ v, ∃ after dropped, pushInternal std cmp s.1 v = some (after, dropped) ∧
    (dropped = none ↔ (unsorted s.1).length < limit) ∧
      ∀ lowest, dropped = some lowest → IsLowest (Above cmp) lowest (v :: unsorted s.1)
  peekBottom : size s.1 ≠ 0 → BottomInInt cmp s.1 → ∃ after bottom,
    peekBottom cmp s.1 = some (after, bottom) ∧ IsLowest (Above cmp) bottom (unsorted s.1)
  extractNondestructive : (extractNondestructive std s.1).Perm (unsorted s.1) ∧
    Descending cmp (extractNondestructive std s.1)
  extract : (extract std s.1).2.Perm (unsorted s.1) ∧ Descending cmp (extract std s.1).2
  extractUnsortedNondestructive : extractUnsortedNondestructive s.1 = unsorted s.1

section Runs

variable {std : Algorithms α} {cmp : α → α → Bool} {limit : ℕ} {s : TopElements α × List α}

theorem keeps_of_reaches [IsStrictWeakOrder α (Above cmp)] (hlawful : Lawful std cmp)
    (hreached : (topN std cmp limit).Reaches (PeeksInInt cmp) s) :
    s.1.limit = limit ∧ KeepsTop cmp s.1 s.2 := by
  have hstart : ∀ t : TopElements α, t.elements = [] → t.state = .unordered → KeepsTop cmp t [] := by
    intro t helements hstate
    by_cases hlimit : t.limit = 0
    · exact .none hlimit helements hstate
    · refine .all hlimit (by rw [hstate]; decide) (helements ▸ List.Perm.refl _)
        (by rw [helements]; exact Nat.zero_le _) fun hknown => ?_
      rw [hstate] at hknown
      cases hknown
  refine hreached.invariant (P := fun s => s.1.limit = limit ∧ KeepsTop cmp s.1 s.2)
    ⟨rfl, hstart _ rfl rfl⟩ ?_
  rintro source label target - ⟨hlimit, hkeeps⟩ hguard htaken
  cases label with
  | push v =>
      obtain ⟨after, dropped, hpush, hsame, hafter, -⟩ := push_spec hlawful v hkeeps
      have hstep : topNStep std cmp source (.push v) = some (after, v :: source.2) := by
        rw [topNStep, hpush]
        rfl
      obtain rfl := Option.some.inj (hstep.symm.trans htaken)
      exact ⟨hsame.trans hlimit, hafter⟩
  | peekBottom =>
      by_cases hnonempty : size source.1 = 0
      · have hstep : topNStep std cmp source .peekBottom = none := by
          rw [topNStep, peekBottom, if_pos hnonempty]
          rfl
        cases hstep.symm.trans htaken
      · obtain ⟨after, bottom, hpeek, hsame, hafter, -⟩ := peek_spec hkeeps hnonempty hguard
        have hstep : topNStep std cmp source .peekBottom = some (after, source.2) := by
          rw [topNStep, hpeek]
          rfl
        obtain rfl := Option.some.inj (hstep.symm.trans htaken)
        exact ⟨hsame.trans hlimit, hafter⟩
  | reset =>
      obtain rfl := Option.some.inj htaken
      exact ⟨hlimit, hstart _ rfl rfl⟩

theorem held_of_keeps {t : TopElements α} {pushed : List α} (hkeeps : KeepsTop cmp t pushed) :
    (unsorted t).length = min t.limit pushed.length ∧
      ∃ leftOut, (unsorted t ++ leftOut).Perm pushed ∧ NoneAbove (Above cmp) (unsorted t) leftOut := by
  cases hkeeps with
  | none hlimit hempty hstate =>
      rw [unsorted, hempty, List.take_nil, hlimit]
      exact ⟨(Nat.zero_min _).symm, pushed, List.Perm.refl _, fun a ha => by cases ha⟩
  | all hlimit hstate hperm hshort hbottom =>
      rw [unsorted_of_short hshort, ← hperm.length_eq, min_eq_right hshort]
      exact ⟨rfl, [], by rwa [List.append_nil], fun _ _ b hb => by cases hb⟩
  | @greatest heap leftOut unused hlimit hstate helements hlength hheap hperm hnone =>
      have hle := hperm.length_eq
      rw [List.length_append] at hle
      rw [unsorted_of_heap helements hlength]
      exact ⟨by rw [min_eq_left (by omega), hlength], leftOut, hperm, hnone⟩

end Runs

/-- The greatest elements are kept in every run that asks for the bottom of an unsorted vector only
while one has an index that is an `int`. -/
theorem top_n_keeps_greatest {std : Algorithms α} {cmp : α → α → Bool}
    [IsStrictWeakOrder α (Above cmp)] (hlawful : Lawful std cmp) (limit : ℕ)
    {s : TopElements α × List α} (hreached : (topN std cmp limit).Reaches (PeeksInInt cmp) s) :
    AnswersRight std cmp limit s := by
  obtain ⟨hlimit, hkeeps⟩ := keeps_of_reaches hlawful hreached
  obtain ⟨hlength, hleftOut⟩ := held_of_keeps hkeeps
  obtain ⟨hextract, hdescending, hunsorted⟩ := extract_spec hlawful hkeeps
  refine ⟨hlimit ▸ hlength, hleftOut, fun v => ?_, fun hnonempty hbottom => ?_,
    ⟨hextract, hdescending⟩, ⟨hextract, hdescending⟩, hunsorted⟩
  · obtain ⟨after, dropped, hpush, -, -, hdrops⟩ := push_spec hlawful v hkeeps
    exact ⟨after, dropped, hpush, hlimit ▸ hdrops.isNone, hdrops.isLowest⟩
  · obtain ⟨after, bottom, hpeek, -, -, hlowest⟩ := peek_spec hkeeps hnonempty hbottom
    exact ⟨after, bottom, hpeek, hlowest⟩

/-! ## Numbers -/

def greater (a b : ℕ) : Bool := decide (b < a)

instance : IsStrictWeakOrder ℕ (Above greater) where
  irrefl a := by simp [greater]
  trans a b c := by
    simp only [Above, greater, decide_eq_true_eq]
    omega
  incomp_trans a b c := by
    simp only [Above, greater, decide_eq_true_eq, not_lt]
    omega

/-- Algorithms that sort by insertion. -/
def byInsertion : Algorithms ℕ where
  makeHeap list := list.insertionSort (· ≤ ·)
  popHeap
    | [] => []
    | front :: rest => rest.insertionSort (· ≤ ·) ++ [front]
  sort list := list.insertionSort (· ≥ ·)
  sortHeap list := list.insertionSort (· ≥ ·)

theorem byInsertion_lawful : Lawful byInsertion greater := by
  have hascending : ∀ list : List ℕ, IsHeap (Above greater) (list.insertionSort (· ≤ ·)) :=
    fun list => isHeap_of_pairwise ((List.pairwise_insertionSort (· ≤ ·) list).imp fun hle => by
      simpa [greater] using hle)
  have hdescending : ∀ list : List ℕ, Descending greater (list.insertionSort (· ≥ ·)) :=
    fun list => (List.pairwise_insertionSort (· ≥ ·) list).imp fun hle => by
      simpa [greater] using hle
  exact {
    makeHeap := fun list => ⟨List.perm_insertionSort _ list, hascending list⟩
    popHeap := fun front rest _ => ⟨_, rfl, List.perm_insertionSort _ rest, hascending rest⟩
    sort := fun list => ⟨List.perm_insertionSort _ list, hdescending list⟩
    sortHeap := fun list _ => ⟨List.perm_insertionSort _ list, hdescending list⟩ }

/-- A number is dropped for a greater one. -/
theorem top_one_keeps_greatest :
    ∃ s, s.1.elements = [3, 1] ∧ AnswersRight byInsertion greater 1 s := by
  obtain ⟨s, hreached, hs⟩ := @Machine.exists_reaches _ _
    (topN byInsertion greater 1) (PeeksInInt greater) [.push 3, .push 1]
    (fun s => decide (s.1.elements = [3, 1])) ⟨trivial, fun _ _ => ⟨trivial, fun _ _ => trivial⟩⟩
    (by decide)
  exact ⟨s, of_decide_eq_true hs, top_n_keeps_greatest byInsertion_lawful 1 hreached⟩

/-! ### Behind the range of an index -/

section Overflow

variable {limit n : ℕ}

/-- Numbers are appended up to the limit. -/
theorem step_push (elements pushed : List ℕ) (v : ℕ) (hlt : elements.length < limit) :
    (topN byInsertion greater limit).step ({ limit, elements }, pushed) (.push v) =
      some ({ limit, elements := elements ++ [v] }, v :: pushed) := by
  have hfront : ∃ front, (elements ++ [v])[0]? = some front := by
    cases elements with
    | nil => exact ⟨v, rfl⟩
    | cons front rest => exact ⟨front, rfl⟩
  obtain ⟨front, hfront⟩ := hfront
  have hpush : pushUnsorted greater { limit, elements } v = some (elements ++ [v]) := by
    rw [pushUnsorted, hfront, Option.bind_some, if_pos (.inl rfl)]
  have hshort : (elements ++ [v]).length ≠ limit + 1 := by
    rw [List.length_append, List.length_singleton]
    omega
  have hinternal : pushInternal byInsertion greater { limit, elements } v =
      some ({ limit, elements := elements ++ [v] }, none) := by
    have hstate : ({ limit, elements } : TopElements ℕ).state ≠ .heapSorted := State.noConfusion
    rw [pushInternal, if_neg (by change limit ≠ 0; omega), if_pos hstate, hpush, Option.map_some,
      if_neg hshort]
  change (pushInternal byInsertion greater { limit, elements } v).map _ = _
  rw [hinternal]
  rfl

theorem reaches_replicate (hn : n ≤ limit) :
    (topN byInsertion greater limit).Reaches Machine.Unguarded
      ({ limit, elements := List.replicate n 1 }, List.replicate n 1) := by
  induction n with
  | zero => exact .init
  | succ n ih =>
      have hpush := step_push (List.replicate n 1) (List.replicate n 1) 1
        (by rw [List.length_replicate]; exact hn)
      rw [← List.replicate_succ'] at hpush
      exact .step (ih (Nat.le_of_lt hn)) trivial hpush

/-- The scan passes equal numbers and takes the index of a lower one. -/
theorem scanBottom_replicate (elements : List ℕ) (i k : ℕ) (hfirst : elements[0]? = some 1) :
    scanBottom greater elements i 0 (List.replicate k 1 ++ [0]) = some (toInt (i + k)) := by
  have hat : elementAt elements 0 = some 1 := hfirst
  induction k generalizing i with
  | zero =>
      rw [List.replicate_zero, List.nil_append, scanBottom, hat, Option.bind_some,
        if_pos (by decide), scanBottom, Nat.add_zero]
  | succ k ih =>
      rw [List.replicate_succ, List.cons_append, scanBottom, hat, Option.bind_some,
        if_neg (by decide), ih, Nat.add_right_comm, Nat.add_assoc]

/-- A bottom with the index 2^31 is looked for in front of the vector. -/
theorem bottom_out_of_range :
    ∃ s, (topN byInsertion greater (2 ^ 31 + 1)).Reaches Machine.Unguarded s ∧ size s.1 ≠ 0 ∧
      peekBottom greater s.1 = none := by
  obtain ⟨n, hn⟩ : ∃ n, n = 2 ^ 31 - 1 := ⟨_, rfl⟩
  have hindex : toInt (1 + n) < 0 := by
    rw [hn]
    decide
  have hlimit : 2 ^ 31 + 1 = n + 2 := by omega
  rw [hlimit]
  have hpush := step_push (List.replicate (n + 1) 1) (List.replicate (n + 1) 1) 0
    (by rw [List.length_replicate]; exact Nat.lt_succ_self (n + 1))
  refine ⟨_, .step (reaches_replicate (Nat.le_succ (n + 1))) trivial hpush, ?_, ?_⟩
  · rw [size, List.length_append, List.length_replicate]
    change min (n + 1 + 1) (n + 2) ≠ 0
    omega
  · have hscan := scanBottom_replicate (List.replicate (n + 1) 1 ++ [0]) 1 n rfl
    have hfind : findBottom greater
        { limit := n + 2, elements := List.replicate (n + 1) 1 ++ [0] } = none := by
      have htail : (List.replicate (n + 1) 1 ++ [0]).tail = List.replicate n 1 ++ [0] := rfl
      have hswap : swapFront (List.replicate (n + 1) 1 ++ [0]) (toInt (1 + n)) = none := by
        rw [swapFront, elementAt, if_pos hindex]
        rfl
      rw [findBottom, if_pos rfl, htail, hscan, Option.bind_some, if_pos hindex.ne, hswap]
      rfl
    rw [peekBottom, hfind]
    exact ite_self _

end Overflow

end ContainerScheduler.Analysis
