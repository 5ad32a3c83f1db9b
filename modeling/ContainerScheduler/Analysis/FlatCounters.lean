/-
# The counters of the flat hash map

Every call keeps the counters right and leaves an empty slot, except a clearing that forgets
deleted slots. After one that does the counters are wrong.
-/

import ContainerScheduler.Analysis.FlatProbing

namespace ContainerScheduler.Analysis

open Math
open Containers

variable {K V : Type} {rep rep' : FlatRep K V} {k : K} {hash : K → ℕ} {equal : K → K → Bool}

/-- What the calls rely on. -/
structure Tallied (rep : FlatRep K V) : Prop where
  sized : Sized rep
  notEmpty : rep.notEmpty = rep.slots.countP fun entry => !entry.isEmpty
  deleted : rep.deleted = rep.slots.countP Slot.isDeleted
  room : rep.notEmpty < rep.slots.length
  grow : rep.grow = 0 ∨ rep.grow = FlatRep.growAt rep.slots.length
  shrink : rep.shrink = if rep.slots.length = 8 then 0 else 2 * FlatRep.growAt rep.slots.length / 5

/-- The counters agree with the markers, and a slot is empty. -/
def CountsRight (rep : FlatRep K V) : Prop :=
  rep.notEmpty = (rep.slots.countP fun entry => !entry.isEmpty) ∧
    rep.deleted = rep.slots.countP Slot.isDeleted ∧ ∃ entry ∈ rep.slots, entry.isEmpty = true

theorem Sized.eight_le (hsized : Sized rep) : 8 ≤ rep.slots.length := by
  obtain ⟨lg, -, hlength⟩ := hsized
  rw [hlength]
  exact Nat.le_mul_of_pos_left 8 (Nat.two_pow_pos lg)

theorem Tallied.exists_empty (hcounted : Tallied rep) :
    ∃ entry ∈ rep.slots, entry.isEmpty = true := by
  by_contra hnone
  have hall : rep.slots.countP (fun entry => !entry.isEmpty) = rep.slots.length := by
    rw [List.countP_eq_length]
    intro entry hentry
    rw [Bool.not_eq_true']
    exact Bool.not_eq_true _ ▸ fun hempty => hnone ⟨entry, hentry, hempty⟩
  have hroom := hcounted.room
  rw [hcounted.notEmpty, hall] at hroom
  exact lt_irrefl _ hroom

theorem Tallied.size_eq (hcounted : Tallied rep) : rep.size = rep.slots.countP Slot.isFull := by
  have hsplit := count_notEmpty rep.slots
  have hroom := hcounted.room
  have hle := hcounted.sized.le
  rw [← hcounted.notEmpty, ← hcounted.deleted] at hsplit
  rw [FlatRep.size, hsplit]
  have hsum : rep.deleted + rep.slots.countP Slot.isFull + (2 ^ 64 - rep.deleted) =
      rep.slots.countP Slot.isFull + 2 ^ 64 := by omega
  rw [hsum, Nat.add_mod_right, Nat.mod_eq_of_lt (by omega)]

/-! ## The loops end -/

section Ends

variable (hsized : Sized rep) (hempty : ∃ entry ∈ rep.slots, entry.isEmpty = true)

include hsized hempty

theorem exists_probe_empty (hash : K → ℕ) (k : K) :
    ∃ j < rep.slots.length, (rep.slot (probe hash rep k j)).isEmpty = true := by
  obtain ⟨entry, hentry, hempty⟩ := hempty
  obtain ⟨index, hindex, rfl⟩ := List.getElem_of_mem hentry
  obtain ⟨j, hj, heq⟩ := exists_probe_eq k hash hsized hindex
  refine ⟨j, hj, ?_⟩
  rwa [heq, FlatRep.slot, List.getElem?_eq_getElem hindex]

theorem find_ends (hash : K → ℕ) (equal : K → K → Bool) (k : K) :
    ∃ result, rep.find hash equal k = .ok result ∧
      ∀ index, result = some index → index < rep.slots.length ∧
        FlatRep.holds hash equal k (rep.slot index) = true := by
  obtain ⟨i, -, hstop⟩ | ⟨hall, -⟩ := findLoop_spec k hash equal hsized rep.slots.length 0
    (Nat.zero_add _) fun i hi => absurd hi (Nat.not_lt_zero i)
  · rw [FlatRep.find, firstIndex_eq hsized]
    obtain ⟨hholds, hresult⟩ | ⟨-, hresult⟩ := hstop
    · refine ⟨_, hresult, fun index hindex => ?_⟩
      obtain rfl := Option.some.inj hindex
      exact ⟨probe_lt hsized i, hholds⟩
    · exact ⟨_, hresult, by simp⟩
  · obtain ⟨j, hj, hempty⟩ := exists_probe_empty hsized hempty hash k
    exact absurd hempty (by simp [(hall j hj).2])

theorem findOrInsertLoop_ends (hash : K → ℕ) (equal : K → K → Bool) (k : K) :
    ∃ place, rep.findOrInsertLoop hash equal k rep.slots.length (rep.firstIndex hash k) 1 none =
        .ok place ∧
      (∀ index, place = .found index → index < rep.slots.length ∧
        FlatRep.holds hash equal k (rep.slot index) = true) ∧
      (∀ index, place = .reuse index → index < rep.slots.length ∧
        (rep.slot index).isDeleted = true) ∧
      ∀ index, place = .fresh index → index < rep.slots.length ∧
        (rep.slot index).isEmpty = true := by
  obtain ⟨i, -, hstop⟩ | ⟨hall, -⟩ := findOrInsertLoop_spec k hash equal hsized
    rep.slots.length 0 (Nat.zero_add _) (fun i hi => absurd hi (Nat.not_lt_zero i))
    none (by simp)
  · rw [firstIndex_eq hsized]
    obtain ⟨hholds, hresult⟩ | ⟨hstopped, ⟨d, -, hdeleted, hresult⟩ | hresult⟩ := hstop
    · refine ⟨_, hresult, fun index hindex => ?_, by simp, by simp⟩
      obtain rfl := FlatRep.Place.found.inj hindex
      exact ⟨probe_lt hsized i, hholds⟩
    · refine ⟨_, hresult, by simp, fun index hindex => ?_, by simp⟩
      obtain rfl := FlatRep.Place.reuse.inj hindex
      exact ⟨probe_lt hsized d, hdeleted⟩
    · refine ⟨_, hresult, by simp, by simp, fun index hindex => ?_⟩
      obtain rfl := FlatRep.Place.fresh.inj hindex
      exact ⟨probe_lt hsized i, hstopped⟩
  · obtain ⟨j, hj, hempty⟩ := exists_probe_empty hsized hempty hash k
    exact absurd hempty (by simp [(hall j hj).2])

theorem freshInsertLoop_ends (hash : K → ℕ) (k : K) :
    ∃ index, rep.freshInsertLoop rep.slots.length (rep.firstIndex hash k) 1 = .ok index ∧
      index < rep.slots.length ∧ (rep.slot index).isEmpty = true := by
  obtain ⟨i, -, hstopped, hresult⟩ | ⟨hall, -⟩ := freshInsertLoop_spec k hash hsized
    rep.slots.length 0 (Nat.zero_add _) fun i hi => absurd hi (Nat.not_lt_zero i)
  · rw [firstIndex_eq hsized]
    exact ⟨_, hresult, probe_lt hsized i, hstopped⟩
  · obtain ⟨j, hj, hempty⟩ := exists_probe_empty hsized hempty hash k
    exact absurd hempty (by simp [hall j hj])

end Ends

/-! ## The calls -/

/-- A call does not return only because a table would be too large. -/
def Ends {α : Type} (outcome : Except Fault α) (P : α → Prop) : Prop :=
  outcome = .error .tooLarge ∨ ∃ value, outcome = .ok value ∧ P value

theorem Ends.bind {α β : Type} {outcome : Except Fault α} {next : α → Except Fault β}
    {P : α → Prop} {Q : β → Prop} (hends : Ends outcome P)
    (hnext : ∀ value, P value → Ends (next value) Q) : Ends (outcome >>= next) Q := by
  obtain rfl | ⟨value, rfl, hvalue⟩ := hends
  · exact .inl rfl
  · exact hnext value hvalue

theorem Ends.pure {α : Type} {P : α → Prop} {value : α} (hvalue : P value) :
    Ends (pure value) P :=
  .inr ⟨value, rfl, hvalue⟩

theorem Ends.mono {α : Type} {outcome : Except Fault α} {P Q : α → Prop} (hends : Ends outcome P)
    (hweaker : ∀ value, P value → Q value) : Ends outcome Q :=
  hends.imp_right fun ⟨value, heq, hvalue⟩ => ⟨value, heq, hweaker value hvalue⟩

/-- A new table is empty and large enough. -/
theorem init_ends (N : ℕ) : Ends (FlatRep.init (K := K) (V := V) N) fun rep =>
    Tallied rep ∧ rep.notEmpty = 0 ∧ N < rep.slots.length := by
  refine Ends.bind (P := fun lg => lg < 29 ∧ 5 * N < 4 * (2 ^ lg * 8)) ?_ fun lg hlg => .pure ?_
  · rw [FlatRep.initLg]
    cases hfind : (List.range 29).find? fun lg => 5 * N < 4 * (2 ^ lg * 8) with
    | none => exact .inl rfl
    | some lg =>
        have hlarge := List.find?_some hfind
        exact .pure ⟨List.mem_range.mp (List.mem_of_find?_eq_some hfind), of_decide_eq_true hlarge⟩
  · have hpos := Nat.two_pow_pos lg
    refine ⟨⟨⟨lg, hlg.1, by simp⟩, ?_, ?_, ?_, .inr (by simp), ?_⟩, rfl, ?_⟩
    · simp [List.countP_replicate]
    · simp [List.countP_replicate]
    · simp
    · have hone : 2 ^ lg * 8 = 8 ↔ lg = 0 := by
        constructor
        · intro heq
          by_contra hne
          have htwo : 2 ^ 1 ≤ 2 ^ lg := Nat.pow_le_pow_right (by decide) (by omega)
          omega
        · rintro rfl
          rfl
      simp [hone]
    · have hlarge := hlg.2
      simp only [List.length_replicate]
      omega

/-- A new key goes into a slot. -/
theorem Tallied.put (hcounted : Tallied rep) {index : ℕ} (hindex : index < rep.slots.length)
    {x : ℕ} {v : V} (hslots : rep'.slots = rep.slots.set index (.full x k v))
    (hnotEmpty : rep'.notEmpty =
      rep.notEmpty + if (rep.slot index).isEmpty = true then 1 else 0)
    (hdeleted : rep'.deleted + (if (rep.slot index).isDeleted = true then 1 else 0) = rep.deleted)
    (hroom : rep'.notEmpty < rep.slots.length)
    (hlimits : rep'.grow = rep.grow ∧ rep'.shrink = rep.shrink) : Tallied rep' := by
  have hlength : rep'.slots.length = rep.slots.length := by rw [hslots, List.length_set]
  obtain ⟨lg, hlg, hsize⟩ := hcounted.sized
  refine ⟨⟨lg, hlg, hlength.trans hsize⟩, ?_, ?_, hlength.symm ▸ hroom, ?_, ?_⟩
  · have hcount := count_set (fun entry => !entry.isEmpty) hindex (.full x k v)
    rw [hnotEmpty, hcounted.notEmpty, hslots]
    cases hempty : (rep.slot index).isEmpty <;> simp [hempty] at hcount ⊢ <;> omega
  · have hcount := count_set Slot.isDeleted hindex (.full x k v)
    rw [hcounted.deleted] at hdeleted
    rw [hslots]
    simp only [Slot.isDeleted_full, Bool.false_eq_true, if_false] at hcount
    omega
  · rw [hlimits.1, hlength]
    exact hcounted.grow
  · rw [hlimits.2, hlength]
    exact hcounted.shrink

/-- `FreshInsert` with room for another key. -/
theorem freshInsert_ends (hcounted : Tallied rep) (hroom : rep.notEmpty + 1 < rep.slots.length)
    (hash : K → ℕ) (k : K) (v : V) : Ends (rep.freshInsert hash k v) fun rep' =>
      Tallied rep' ∧ rep'.notEmpty = rep.notEmpty + 1 ∧ rep'.slots.length = rep.slots.length := by
  obtain ⟨index, hloop, hindex, hempty⟩ :=
    freshInsertLoop_ends hcounted.sized hcounted.exists_empty hash k
  rw [FlatRep.freshInsert, hloop]
  have hdeleted := Slot.isDeleted_of_isEmpty hempty
  exact .pure ⟨hcounted.put hindex rfl (by simp [hempty]) (by simp [hdeleted]) hroom ⟨rfl, rfl⟩,
    rfl, by simp⟩

/-- `CopyEntries` with room for all full entries. -/
theorem copyEntries_ends (entries : List (Slot K V)) (hcounted : Tallied rep) (hash : K → ℕ)
    (hroom : rep.notEmpty + entries.countP Slot.isFull < rep.slots.length) :
    Ends (rep.copyEntries hash entries) fun rep' => Tallied rep' ∧
      rep'.notEmpty = rep.notEmpty + entries.countP Slot.isFull ∧
        rep'.slots.length = rep.slots.length := by
  induction entries generalizing rep with
  | nil => exact .pure ⟨hcounted, rfl, rfl⟩
  | cons entry entries ih =>
      rw [FlatRep.copyEntries, List.foldlM_cons]
      cases entry with
      | full x key val =>
          rw [List.countP_cons_of_pos rfl] at hroom ⊢
          refine (freshInsert_ends hcounted (by omega) hash key val).bind fun rep' hrep' => ?_
          obtain ⟨hcounted', hnotEmpty, hlength⟩ := hrep'
          refine (ih hcounted' (by omega)).mono fun rep'' hrep'' => ?_
          exact ⟨hrep''.1, by omega, by omega⟩
      | empty =>
          rw [List.countP_cons_of_neg (by simp)] at hroom ⊢
          exact ih hcounted hroom
      | deleted =>
          rw [List.countP_cons_of_neg (by simp)] at hroom ⊢
          exact ih hcounted hroom

/-- A table is rebuilt for at least as many keys as it has. -/
theorem rebuild_ends (hash : K → ℕ) {N : ℕ} (hN : rep.slots.countP Slot.isFull ≤ N) :
    Ends (do (← FlatRep.init N).copyEntries hash rep.slots) fun rep' =>
      Tallied rep' ∧ rep'.notEmpty = rep.slots.countP Slot.isFull ∧ N < rep'.slots.length := by
  refine (init_ends N).bind fun fresh hfresh => ?_
  obtain ⟨hcounted, hnotEmpty, hlarge⟩ := hfresh
  refine (copyEntries_ends rep.slots hcounted hash (by omega)).mono fun rep' hrep' => ?_
  exact ⟨hrep'.1, by omega, by omega⟩

/-- After `MaybeResize` there is room for another key. -/
theorem maybeResize_ends (hcounted : Tallied rep) (hash : K → ℕ) :
    Ends (rep.maybeResize hash) fun rep' =>
      Tallied rep' ∧ rep'.notEmpty + 1 < rep'.slots.length := by
  have height := hcounted.sized.eight_le
  have hresize : Ends (rep.resize hash (rep.size + 1)) fun rep' =>
      Tallied rep' ∧ rep'.notEmpty + 1 < rep'.slots.length := by
    refine (rebuild_ends hash (by rw [hcounted.size_eq]; omega)).mono fun rep' hrep' => ?_
    refine ⟨hrep'.1, ?_⟩
    rw [hrep'.2.1, ← hcounted.size_eq]
    exact hrep'.2.2
  rw [FlatRep.maybeResize]
  split_ifs with hbelow hshrink
  · refine .pure ⟨hcounted, ?_⟩
    obtain hgrow | hgrow := hcounted.grow
    · omega
    · rw [FlatRep.growAt] at hgrow
      omega
  · simp only
    have hcounted' : Tallied { rep with grow := FlatRep.growAt rep.slots.length } :=
      { hcounted with grow := .inr rfl }
    split_ifs with hbelow'
    · refine .pure ⟨hcounted', ?_⟩
      rw [FlatRep.growAt] at hbelow'
      exact (by omega : rep.notEmpty + 1 < rep.slots.length)
    · exact hresize
  · exact hresize

/-- `FindOrInsert` with room for another key. -/
theorem findOrInsert_ends (hcounted : Tallied rep) (hroom : rep.notEmpty + 1 < rep.slots.length)
    (hash : K → ℕ) (equal : K → K → Bool) (k : K) (v : V) :
    Ends (rep.findOrInsert hash equal k v) fun result => Tallied result.2.2 := by
  obtain ⟨place, hloop, hfound, hreuse, hfresh⟩ :=
    findOrInsertLoop_ends hcounted.sized hcounted.exists_empty hash equal k
  rw [FlatRep.findOrInsert, hloop]
  cases place with
  | found index => exact .pure hcounted
  | reuse index =>
      obtain ⟨hindex, hdeleted⟩ := hreuse index rfl
      have hempty := Slot.isEmpty_of_isDeleted hdeleted
      have hpos : 0 < rep.deleted := by
        have hcount := count_set Slot.isDeleted hindex .empty
        rw [hcounted.deleted]
        simp only [hdeleted, Slot.isDeleted_empty, if_true, Bool.false_eq_true, if_false] at hcount
        omega
      have hle : rep.deleted ≤ rep.slots.length := by
        rw [hcounted.deleted]
        exact List.countP_le_length
      have hlimit := hcounted.sized.le
      have hless : (rep.deleted + (2 ^ 64 - 1)) % 2 ^ 64 = rep.deleted - 1 := by
        rw [show rep.deleted + (2 ^ 64 - 1) = rep.deleted - 1 + 2 ^ 64 by omega,
          Nat.add_mod_right, Nat.mod_eq_of_lt (by omega)]
      refine .pure (hcounted.put hindex rfl (by simp [hempty]) ?_ hcounted.room ⟨rfl, rfl⟩)
      simp only [hless, hdeleted, if_true]
      omega
  | fresh index =>
      obtain ⟨hindex, hempty⟩ := hfresh index rfl
      have hdeleted := Slot.isDeleted_of_isEmpty hempty
      exact .pure (hcounted.put hindex rfl (by simp [hempty]) (by simp [hdeleted]) hroom
        ⟨rfl, rfl⟩)

/-- A slot that holds a key is full. -/
theorem isFull_of_holds {slot : Slot K V}
    (hholds : FlatRep.holds hash equal k slot = true) : slot.isFull = true := by
  cases slot with
  | full => rfl
  | empty => cases hholds
  | deleted => cases hholds

theorem erase_counted (hcounted : Tallied rep) {index : ℕ} (hindex : index < rep.slots.length)
    (hfull : (rep.slot index).isFull = true) : Tallied (rep.erase index) := by
  obtain ⟨hempty, hdeleted⟩ := Slot.of_isFull hfull
  have hlength : (rep.erase index).slots.length = rep.slots.length := List.length_set
  have hroom := hcounted.room
  have hle := hcounted.sized.le
  have hkept := count_set (fun entry => !entry.isEmpty) hindex .deleted
  have hmore := count_set Slot.isDeleted hindex .deleted
  have hbound : (rep.slots.set index .deleted).countP Slot.isDeleted ≤ rep.slots.length :=
    List.countP_le_length.trans_eq List.length_set
  obtain ⟨lg, hlg, hsize⟩ := hcounted.sized
  refine ⟨⟨lg, hlg, hlength.trans hsize⟩, ?_, ?_, hlength.symm ▸ hroom, .inl rfl,
    hlength.symm ▸ hcounted.shrink⟩
  · simp only [hempty, Slot.isEmpty_deleted, Bool.not_false, if_true] at hkept
    simp only [FlatRep.erase, hcounted.notEmpty]
    omega
  · simp only [hdeleted, Slot.isDeleted_deleted, Bool.false_eq_true, if_false, if_true] at hmore
    simp only [FlatRep.erase, hcounted.deleted]
    rw [Nat.mod_eq_of_lt (by omega)]
    omega

theorem write_counted (hcounted : Tallied rep) (index : ℕ) (val : V) :
    Tallied (rep.write index val) := by
  rw [FlatRep.write]
  split
  · next x key old hslot =>
    have hindex : index < rep.slots.length := by
      by_contra hge
      rw [FlatRep.slot, List.getElem?_eq_none (Nat.le_of_not_lt hge)] at hslot
      cases hslot
    exact hcounted.put hindex rfl (by simp [hslot]) (by simp [hslot]) hcounted.room ⟨rfl, rfl⟩
  · exact hcounted

/-- Clearing a table without deleted slots. -/
theorem clearNoResize_counted (hcounted : Tallied rep)
    (hnone : rep.slots.countP Slot.isDeleted = 0) : Tallied rep.clearNoResize := by
  have hlength : rep.clearNoResize.slots.length = rep.slots.length := List.length_map _
  have hempty : ∀ entry ∈ rep.clearNoResize.slots, entry.isEmpty = true := by
    intro entry hentry
    obtain ⟨old, hold, rfl⟩ := List.mem_map.mp hentry
    have hnot := List.countP_eq_zero.mp hnone old hold
    cases old with
    | empty => rfl
    | full => rfl
    | deleted => exact absurd rfl hnot
  have hroom := hcounted.room
  obtain ⟨lg, hlg, hsize⟩ := hcounted.sized
  refine ⟨⟨lg, hlg, hlength.trans hsize⟩, ?_, ?_, Nat.lt_of_le_of_lt (Nat.zero_le _)
    (hlength.symm ▸ hroom), hlength.symm ▸ hcounted.grow, hlength.symm ▸ hcounted.shrink⟩
  · rw [eq_comm, List.countP_eq_zero.mpr fun entry hentry => by simp [hempty entry hentry]]
    rfl
  · rw [eq_comm, List.countP_eq_zero.mpr fun entry hentry => by
      simp [Slot.isDeleted_of_isEmpty (hempty entry hentry)]]
    rfl

theorem size_clear (rep : FlatRep K V) : { rep.clearNoResize with grow := 0 }.size = 0 := by
  simp [FlatRep.size, FlatRep.clearNoResize]

/-- `clear` makes a table of one bucket of a larger one. -/
theorem clear_resized (hshrink : rep.shrink ≠ 0) :
    rep.clear hash = rep.clearNoResize.resize hash 1 := by
  rw [FlatRep.clear, FlatRep.maybeResize, size_clear]
  simp [FlatRep.clearNoResize, hshrink, FlatRep.resize]

theorem countP_isFull_clear : rep.clearNoResize.slots.countP Slot.isFull = 0 := by
  rw [List.countP_eq_zero]
  intro entry hentry
  obtain ⟨old, -, rfl⟩ := List.mem_map.mp hentry
  cases old <;> simp

/-- Nothing that is deleted is forgotten. -/
def ClearsWhole (rep : FlatRep K V) : Call K V → Prop
  | .clearNoResize => rep.slots.countP Slot.isDeleted = 0
  | .clear => rep.slots.countP Slot.isDeleted = 0 ∨ rep.slots.length ≠ 8
  | _ => True

instance (rep : FlatRep K V) : (call : Call K V) → Decidable (ClearsWhole rep call)
  | .clearNoResize => inferInstanceAs (Decidable (_ = _))
  | .clear => inferInstanceAs (Decidable (_ ∨ _))
  | .insert .. => inferInstanceAs (Decidable True)
  | .indexOp .. => inferInstanceAs (Decidable True)
  | .erase _ => inferInstanceAs (Decidable True)
  | .find _ => inferInstanceAs (Decidable True)
  | .count _ => inferInstanceAs (Decidable True)
  | .size => inferInstanceAs (Decidable True)
  | .reserve _ => inferInstanceAs (Decidable True)
  | .copy => inferInstanceAs (Decidable True)

/-- The smallest table is the one that does not shrink. -/
theorem Tallied.shrink_eq_zero (hcounted : Tallied rep) :
    rep.shrink = 0 ↔ rep.slots.length = 8 := by
  have height := hcounted.sized.eight_le
  rw [hcounted.shrink, FlatRep.growAt]
  split_ifs with hone
  · exact iff_of_true rfl hone
  · exact iff_of_false (by omega) hone

theorem clear_ends (hcounted : Tallied rep) (hash : K → ℕ)
    (hwhole : rep.slots.countP Slot.isDeleted = 0 ∨ rep.slots.length ≠ 8) :
    Ends (rep.clear hash) Tallied := by
  by_cases hshrink : rep.shrink = 0
  · have hnone := hwhole.resolve_right fun hne => hne (hcounted.shrink_eq_zero.mp hshrink)
    have hcleared := clearNoResize_counted hcounted hnone
    have hcleared' : Tallied { rep.clearNoResize with grow := 0 } :=
      { hcleared with grow := .inl rfl }
    exact (maybeResize_ends hcleared' hash).mono fun _ h => h.1
  · rw [clear_resized hshrink]
    exact (rebuild_ends hash (by rw [countP_isFull_clear]; exact Nat.zero_le 1)).mono fun _ h => h.1

variable [Inhabited V]

/-- **Each call** that forgets nothing keeps the counters right. -/
theorem exec_ends (hcounted : Tallied rep) (hash : K → ℕ) (equal : K → K → Bool) (call : Call K V)
    (hwhole : ClearsWhole rep call) :
    Ends (call.exec hash equal rep) fun result => Tallied result.1 := by
  have hfind := find_ends hcounted.sized hcounted.exists_empty hash equal
  cases call with
  | insert key val =>
      refine (maybeResize_ends hcounted hash).bind fun rep' hrep' => ?_
      refine (findOrInsert_ends hrep'.1 hrep'.2 hash equal key val).bind fun result hresult => ?_
      exact .pure hresult
  | indexOp key write =>
      refine (maybeResize_ends hcounted hash).bind fun rep' hrep' => ?_
      refine (findOrInsert_ends hrep'.1 hrep'.2 hash equal key default).bind fun result hresult =>
        ?_
      refine .pure ?_
      cases write with
      | none => exact hresult
      | some val => exact write_counted hresult _ val
  | erase key =>
      obtain ⟨found, hresult, hfound⟩ := hfind key
      rw [Call.exec, hresult]
      cases found with
      | none => exact .pure hcounted
      | some index =>
          obtain ⟨hindex, hholds⟩ := hfound index rfl
          exact .pure (erase_counted hcounted hindex (isFull_of_holds hholds))
  | find key =>
      obtain ⟨found, hresult, -⟩ := hfind key
      rw [Call.exec, hresult]
      cases found <;> exact .pure hcounted
  | count key =>
      obtain ⟨found, hresult, -⟩ := hfind key
      rw [Call.exec, hresult]
      cases found <;> exact .pure hcounted
  | size => exact .pure hcounted
  | reserve N =>
      have hN : rep.slots.countP Slot.isFull ≤ max N rep.size :=
        hcounted.size_eq.symm.le.trans (le_max_right N rep.size)
      exact (rebuild_ends hash hN).bind fun rep' hrep' => .pure hrep'.1
  | copy =>
      exact (rebuild_ends hash hcounted.size_eq.symm.le).bind fun rep' hrep' => .pure hrep'.1
  | clear => exact (clear_ends hcounted hash hwhole).bind fun rep' hrep' => .pure hrep'
  | clearNoResize => exact .pure (clearNoResize_counted hcounted hwhole)

/-- A clearing that forgets deleted slots returns, with wrong counters. -/
theorem exec_forgetting (hcounted : Tallied rep) (hash : K → ℕ) (equal : K → K → Bool)
    (call : Call K V) (hforgets : ¬ ClearsWhole rep call) :
    ∃ rep', call.exec hash equal rep = .ok (rep', .nothing) ∧ rep'.deleted = 0 ∧
      rep'.slots.countP Slot.isDeleted ≠ 0 := by
  have hkept : rep.clearNoResize.slots.countP Slot.isDeleted = rep.slots.countP Slot.isDeleted := by
    rw [FlatRep.clearNoResize, List.countP_map]
    refine List.countP_congr fun entry _ => ?_
    cases entry <;> simp
  cases call with
  | clearNoResize => exact ⟨_, rfl, rfl, hkept.symm ▸ hforgets⟩
  | clear =>
      obtain ⟨hsome, hone⟩ := not_or.mp hforgets
      have hlength : rep.slots.length = 8 := not_not.mp hone
      have hshrink := hcounted.shrink_eq_zero.mpr hlength
      refine ⟨{ rep.clearNoResize with grow := FlatRep.growAt rep.clearNoResize.slots.length }, ?_,
        rfl, hkept.symm ▸ hsome⟩
      have hgrow : FlatRep.growAt rep.slots.length ≠ 0 := by
        simp [hlength, FlatRep.growAt]
      have hclear : rep.clear hash = .ok
          { rep.clearNoResize with grow := FlatRep.growAt rep.clearNoResize.slots.length } := by
        rw [FlatRep.clear, FlatRep.maybeResize, size_clear]
        simp [FlatRep.clearNoResize, hshrink, hgrow, pure, Except.pure]
      rw [Call.exec, hclear]
      rfl
  | insert => exact absurd trivial hforgets
  | indexOp => exact absurd trivial hforgets
  | erase => exact absurd trivial hforgets
  | find => exact absurd trivial hforgets
  | count => exact absurd trivial hforgets
  | size => exact absurd trivial hforgets
  | reserve => exact absurd trivial hforgets
  | copy => exact absurd trivial hforgets

/-! ## Every sequence of calls -/

omit [Inhabited V] in
theorem counted_emptyMap : Tallied (emptyMap : FlatRep K V) :=
  ⟨⟨0, by decide, rfl⟩, rfl, rfl, by simp [emptyMap], .inr rfl, rfl⟩

/-- Where clearings forget nothing, the counters are right. -/
theorem Tallied.of_reaches (hreached : (flatMap hash equal).Reaches ClearsWhole rep) :
    Tallied rep := by
  refine hreached.invariant counted_emptyMap fun source call target _ hcounted hwhole htaken => ?_
  obtain hlarge | ⟨result, hresult, hcounted'⟩ := exec_ends hcounted hash equal call hwhole
  · simp [flatMap, hlarge, Except.toOption] at htaken
  · simp only [flatMap, hresult, Except.toOption, Option.map_some, Option.some.injEq] at htaken
    exact htaken ▸ hcounted'

theorem Ends.not_spins {α : Type} {outcome : Except Fault α} {P : α → Prop}
    (hends : Ends outcome P) : outcome ≠ .error .spins := by
  obtain rfl | ⟨value, rfl, -⟩ := hends <;> simp

/-- **Probing ends.** In every sequence of calls whose clearings forget no deleted slot, the
counters are right, there is an empty slot, and neither a loop for a key nor a call goes on
forever. After a clearing that forgets a deleted slot the counters are wrong. -/
theorem probing_ends (hreached : (flatMap hash equal).Reaches ClearsWhole rep) :
    CountsRight rep ∧
      (∀ (k : K) (v : V), rep.find hash equal k ≠ .error .spins ∧
        rep.findOrInsert hash equal k v ≠ .error .spins ∧
        rep.freshInsert hash k v ≠ .error .spins) ∧
      (∀ call : Call K V, call.exec hash equal rep ≠ .error .spins) ∧
      ∀ (call : Call K V) (rep' : FlatRep K V), ¬ ClearsWhole rep call →
        (flatMap hash equal).step rep call = some rep' → ¬ CountsRight rep' := by
  have hcounted := Tallied.of_reaches hreached
  have hempty := hcounted.exists_empty
  refine ⟨⟨hcounted.notEmpty, hcounted.deleted, hempty⟩, fun k v => ⟨?_, ?_, ?_⟩, fun call => ?_,
    fun call rep' hforgets htaken hright => ?_⟩
  · obtain ⟨found, hfound, -⟩ := find_ends hcounted.sized hempty hash equal k
    simp [hfound]
  · obtain ⟨place, hplace, -⟩ :=
      findOrInsertLoop_ends hcounted.sized hempty hash equal k
    rw [FlatRep.findOrInsert, hplace]
    cases place <;> exact Ends.not_spins (P := fun _ => True) (.pure trivial)
  · obtain ⟨index, hindex, -⟩ := freshInsertLoop_ends hcounted.sized hempty hash k
    rw [FlatRep.freshInsert, hindex]
    exact Ends.not_spins (P := fun _ => True) (.pure trivial)
  · by_cases hwhole : ClearsWhole rep call
    · exact (exec_ends hcounted hash equal call hwhole).not_spins
    · obtain ⟨rep', hresult, -⟩ := exec_forgetting hcounted hash equal call hwhole
      simp [hresult]
  · obtain ⟨rep'', hresult, hzero, hsome⟩ := exec_forgetting hcounted hash equal call hforgets
    simp only [flatMap, hresult, Except.toOption, Option.map_some, Option.some.injEq] at htaken
    subst htaken
    exact hsome (hright.2.1.symm.trans hzero)

/-- Keys that go to one slot after the other. -/
def spread (k : ℕ) : ℕ := k <<< 8

/-- A key is erased and the next one takes its slot. -/
theorem erased_slot_reused :
    ∃ rep : FlatRep ℕ ℕ, (flatMap spread (· == ·)).Reaches ClearsWhole rep ∧
      rep.slot 1 = .full 2 9 90 ∧ CountsRight rep ∧
        rep.find spread (· == ·) 17 ≠ .error .spins := by
  have hmeets : (flatMap (V := ℕ) spread (· == ·)).RunMeets ClearsWhole
      [.insert 0 10, .clear, .insert 1 10, .insert 2 20, .erase 1, .insert 9 90]
      (flatMap (V := ℕ) spread (· == ·)).init := by
    decide +kernel
  obtain ⟨rep, hreached, hslot⟩ := Machine.exists_reaches _
    (Q := fun rep => rep.slot 1 = .full 2 9 90) hmeets (by decide +kernel)
  obtain ⟨hright, hends, -⟩ := probing_ends hreached
  exact ⟨rep, hreached, of_decide_eq_true hslot, hright, (hends 17 0).1⟩

/-- Five erased slots are forgotten, the three others are filled, and a lookup does not end. -/
theorem forgotten_slots_spin :
    ∃ rep : FlatRep ℕ ℕ, (flatMap spread (· == ·)).Reaches Machine.Unguarded rep ∧
      ¬ CountsRight rep ∧ rep.find spread (· == ·) 8 = .error .spins := by
  obtain ⟨rep, hreached, hslots⟩ := (flatMap (V := ℕ) spread (· == ·)).exists_reaches_unguarded
    [.insert 0 0, .insert 1 0, .insert 2 0, .insert 3 0, .insert 4 0,
      .erase 0, .erase 1, .erase 2, .erase 3, .erase 4, .clearNoResize,
      .insert 5 0, .insert 6 0, .insert 7 0]
    (Q := fun rep => decide (rep.deleted ≠ rep.slots.countP Slot.isDeleted ∧
      rep.find spread (· == ·) 8 = .error .spins)) (by decide +kernel)
  obtain ⟨hwrong, hspins⟩ := of_decide_eq_true hslots
  exact ⟨rep, hreached, fun hright => hwrong hright.2.1, hspins⟩

end ContainerScheduler.Analysis
