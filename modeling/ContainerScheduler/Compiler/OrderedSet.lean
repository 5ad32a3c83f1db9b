/-
# A set that keeps an order

`OrderedSet` keeps its values in a vector and, for each one, its index there. Erasing a
value swaps it with the last one and pops it. The two parts agree by construction, so
that no value stands at two places.

Erasing assumes that the value is present: without it the code reads through the end
of the map. Here `erase` has no result then.
-/

import Mathlib.Algebra.Order.Ring.Int
import Mathlib.Data.List.Nodup

namespace ContainerScheduler.Compiler

universe u

variable {α : Type u}

/-- `OrderedSet`: the values in their order and the index of each. -/
structure OrderedSet (α : Type u) where
  valueSequence : List α
  valueToIndex : α → Option ℕ
  indexed : ∀ value index,
    valueToIndex value = some index ↔ valueSequence[index]? = some value

namespace OrderedSet

/-- The set without values, as constructed and as left by `Clear`. -/
def empty : OrderedSet α where
  valueSequence := []
  valueToIndex _ := none
  indexed := by simp

instance : Membership α (OrderedSet α) := ⟨fun set value => value ∈ set.valueSequence⟩

@[simp] theorem mem_valueSequence {set : OrderedSet α} {value : α} :
    value ∈ set.valueSequence ↔ value ∈ set := Iff.rfl

@[simp] theorem notMem_empty {value : α} : value ∉ (empty : OrderedSet α) := List.not_mem_nil

theorem mem_iff_index (set : OrderedSet α) {value : α} :
    value ∈ set ↔ ∃ index, set.valueToIndex value = some index := by
  rw [← mem_valueSequence, List.mem_iff_getElem?]
  exact exists_congr fun index => (set.indexed value index).symm

theorem index_eq_none {set : OrderedSet α} {value : α} :
    set.valueToIndex value = none ↔ value ∉ set := by
  rw [mem_iff_index, ← Option.ne_none_iff_exists', not_not]

/-- No value stands at two places. -/
theorem nodup (set : OrderedSet α) : set.valueSequence.Nodup := by
  refine List.pairwise_iff_getElem.mpr fun i j hi hj hlt heq => ?_
  have hfirst := (set.indexed _ i).mpr (List.getElem?_eq_getElem hi)
  have hsecond := (set.indexed _ j).mpr (List.getElem?_eq_getElem hj)
  rw [heq] at hfirst
  exact absurd (Option.some.inj (hfirst.symm.trans hsecond)) hlt.ne

/-- The two parts determine the set. -/
theorem ext_parts {set other : OrderedSet α} (hsequence : set.valueSequence = other.valueSequence)
    (hindex : set.valueToIndex = other.valueToIndex) : set = other := by
  cases set
  cases other
  cases hsequence
  cases hindex
  rfl

/-- `Contains`. -/
def contains (set : OrderedSet α) (value : α) : Bool := (set.valueToIndex value).isSome

@[simp] theorem contains_iff {set : OrderedSet α} {value : α} :
    set.contains value = true ↔ value ∈ set := by
  rw [contains, Option.isSome_iff_exists, mem_iff_index]

/-- The values left when the one at an index has been swapped with the last one and
popped. -/
def swapPop (values : List α) (index : ℕ) (last : α) : List α :=
  (values.set index last).dropLast

/-- What is left at each place. -/
theorem swapPop_getElem? (values : List α) (last : α) (index place : ℕ) :
    (swapPop values index last)[place]? =
      if place + 1 < values.length then if place = index then some last else values[place]?
      else none := by
  rw [swapPop, List.dropLast_eq_take, List.getElem?_take, List.length_set, List.getElem?_set]
  by_cases hplace : place + 1 < values.length
  · rw [if_pos (by omega), if_pos hplace]
    by_cases heq : place = index
    · subst heq
      rw [if_pos rfl, if_pos rfl, if_pos (by omega)]
    · rw [if_neg (Ne.symm heq), if_neg heq]
  · rw [if_neg (by omega), if_neg hplace]

variable [DecidableEq α]

/-- The index follows when a new value is put at the end. -/
theorem indexed_pushBack (set : OrderedSet α) {value : α} (hnew : set.valueToIndex value = none)
    (other : α) (index : ℕ) :
    Function.update set.valueToIndex value (some set.valueSequence.length) other = some index ↔
      (set.valueSequence ++ [value])[index]? = some other := by
  have hnot : value ∉ set.valueSequence := index_eq_none.mp hnew
  obtain hlt | rfl | hgt := Nat.lt_trichotomy index set.valueSequence.length
  · rw [List.getElem?_append_left hlt, ← set.indexed other index]
    by_cases hother : other = value
    · subst hother
      simp [hnew, hlt.ne']
    · rw [Function.update_of_ne hother]
  · by_cases hother : other = value
    · subst hother
      simp
    · rw [Function.update_of_ne hother, set.indexed]
      simp [Ne.symm hother]
  · rw [List.getElem?_eq_none (by simp; omega)]
    by_cases hother : other = value
    · subst hother
      simp [hgt.ne]
    · rw [Function.update_of_ne hother, set.indexed, List.getElem?_eq_none hgt.le]

/-- The set after a value that is not in it has been pushed back. -/
def pushBack (set : OrderedSet α) (value : α) (hnew : set.valueToIndex value = none) :
    OrderedSet α where
  valueSequence := set.valueSequence ++ [value]
  valueToIndex := Function.update set.valueToIndex value (some set.valueSequence.length)
  indexed := set.indexed_pushBack hnew

/-- `Insert`: whether the value is new, and the set with it. -/
def insert (set : OrderedSet α) (value : α) : Bool × OrderedSet α :=
  if hnew : set.valueToIndex value = none then (true, set.pushBack value hnew) else (false, set)

/-- The set without a value at a known index. -/
def swapErase (set : OrderedSet α) (value last : α) (index : ℕ)
    (hindex : set.valueToIndex value = some index)
    (hlast : set.valueSequence.getLast? = some last) : OrderedSet α where
  valueSequence := swapPop set.valueSequence index last
  valueToIndex :=
    Function.update (Function.update set.valueToIndex last (some index)) value none
  indexed := by
    intro other place
    have hat : set.valueSequence[index]? = some value := (set.indexed value index).mp hindex
    have hlength : 0 < set.valueSequence.length := by
      rw [List.length_pos_iff]
      intro hnil
      rw [hnil] at hlast
      exact absurd hlast (by simp)
    have hend : set.valueSequence[set.valueSequence.length - 1]? = some last := by
      rw [← List.getLast?_eq_getElem?, hlast]
    have hendIndex := (set.indexed last _).mpr hend
    have hindexLt : index < set.valueSequence.length :=
      (List.getElem?_eq_some_iff.mp hat).1
    rw [swapPop_getElem?]
    by_cases hvalue : other = value
    · -- the erased value
      subst hvalue
      rw [Function.update_self]
      refine iff_of_false (by simp) fun hget => ?_
      split_ifs at hget with hlt heq
      · -- the last value takes its place, and is another one
        obtain rfl := Option.some.inj hget
        have := Option.some.inj (hindex.symm.trans hendIndex)
        omega
      · have := Option.some.inj (((set.indexed other place).mpr hget).symm.trans hindex)
        omega
    rw [Function.update_of_ne hvalue]
    by_cases hother : other = last
    · subst hother
      rw [Function.update_self]
      have hne : index ≠ set.valueSequence.length - 1 := by
        intro heq
        rw [heq, hend] at hat
        exact hvalue (Option.some.inj hat)
      constructor
      · intro hplace
        obtain rfl := Option.some.inj hplace
        rw [if_pos (by omega), if_pos rfl]
      · intro hget
        split_ifs at hget with hlt heq
        · rw [heq]
        · have := Option.some.inj (((set.indexed other place).mpr hget).symm.trans hendIndex)
          omega
    rw [Function.update_of_ne hother, set.indexed]
    constructor
    · intro hget
      have hne : place ≠ index := by
        rintro rfl
        exact hvalue (Option.some.inj (hget.symm.trans hat))
      have hlt : place < set.valueSequence.length := (List.getElem?_eq_some_iff.mp hget).1
      have hnotEnd : place ≠ set.valueSequence.length - 1 := by
        rintro rfl
        exact hother (Option.some.inj (hget.symm.trans hend))
      rw [if_pos (by omega), if_neg hne, hget]
    · intro hget
      split_ifs at hget with hlt heq
      · exact absurd (Option.some.inj hget).symm hother
      · exact hget

/-- `Erase`; there is no result when the value is not in the set. -/
def erase (set : OrderedSet α) (value : α) : Option (OrderedSet α) :=
  match hindex : set.valueToIndex value, hlast : set.valueSequence.getLast? with
  | some index, some last => some (set.swapErase value last index hindex hlast)
  | _, _ => none

variable {set : OrderedSet α} {value : α}

/-- What an insertion does. -/
theorem insert_spec (set : OrderedSet α) (value : α) :
    ((set.insert value).1 = true ↔ value ∉ set) ∧
      ∀ other, other ∈ (set.insert value).2 ↔ other ∈ set ∨ other = value := by
  rw [insert]
  split_ifs with hnew
  · refine ⟨iff_of_true rfl (index_eq_none.mp hnew), fun other => ?_⟩
    rw [← mem_valueSequence, pushBack, List.mem_append, List.mem_singleton, mem_valueSequence]
  · have hmem : value ∈ set := not_not.mp (index_eq_none.not.mp hnew)
    refine ⟨iff_of_false (by simp) (not_not.mpr hmem), fun other => ?_⟩
    exact ⟨.inl, fun hother => hother.elim id fun heq => heq ▸ hmem⟩

theorem erase_spec (hmem : value ∈ set) :
    ∃ erased, set.erase value = some erased ∧
      ∀ other, other ∈ erased ↔ other ∈ set ∧ other ≠ value := by
  obtain ⟨index, hindex⟩ := (mem_iff_index set).mp hmem
  have hne : set.valueSequence ≠ [] := List.ne_nil_of_mem hmem
  have hlast := List.getLast?_eq_some_getLast hne
  refine ⟨set.swapErase value _ index hindex hlast, ?_, fun other => ?_⟩
  · rw [erase]
    split
    · rename_i index' last' hindex' hlast'
      obtain rfl := Option.some.inj (hindex.symm.trans hindex')
      obtain rfl := Option.some.inj (hlast.symm.trans hlast')
      rfl
    · rename_i hnot
      exact absurd hlast (hnot _ _ hindex)
  · rw [mem_iff_index]
    simp only [swapErase]
    by_cases hvalue : other = value
    · subst hvalue
      simp
    · rw [Function.update_of_ne hvalue, and_iff_left hvalue, mem_iff_index]
      by_cases hother : other = set.valueSequence.getLast hne
      · subst hother
        simp [(mem_iff_index set).mp (List.getLast_mem hne)]
      · rw [Function.update_of_ne hother]

/-- A value that is not there cannot. -/
theorem erase_eq_none (hnot : value ∉ set) : set.erase value = none := by
  have hnone := index_eq_none.mpr hnot
  rw [erase]
  split
  · rename_i index last hindex hlast
    rw [hnone] at hindex
    exact absurd hindex (by simp)
  · rfl

/-- Erasing a value that has just been inserted restores the set, with its order. -/
theorem erase_insert (hnot : value ∉ set) : (set.insert value).2.erase value = some set := by
  have hnew := index_eq_none.mpr hnot
  rw [insert, dif_pos hnew, erase]
  have hindex : (set.pushBack value hnew).valueToIndex value = some set.valueSequence.length :=
    Function.update_self _ _ _
  have hlast : (set.pushBack value hnew).valueSequence.getLast? = some value := by
    rw [pushBack, List.getLast?_concat]
  split
  · rename_i index' last' hindex' hlast'
    obtain rfl := Option.some.inj (hindex.symm.trans hindex')
    obtain rfl := Option.some.inj (hlast.symm.trans hlast')
    refine congrArg some (ext_parts ?_ ?_)
    · simp [swapErase, swapPop, pushBack]
    · simp only [swapErase, pushBack, Function.update_idem]
      exact Function.update_eq_self_iff.mpr hnew.symm
  · rename_i hnot'
    exact absurd hlast (hnot' _ _ hindex)

end OrderedSet

end ContainerScheduler.Compiler
