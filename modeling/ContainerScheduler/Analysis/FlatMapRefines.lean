/-
# The flat hash map is a finite map

Every key is found on the way of its probes: its slot is met before any empty one. A lookup that
meets an empty slot has therefore met every slot in which an equal key can be, and an
insertion adds a key that is not there. This does not depend on the counters, but on their
difference for the size.
-/

import ContainerScheduler.Analysis.FlatProbing

namespace ContainerScheduler.Analysis

open Math
open Containers

variable {K V : Type}

/-! ## Finite maps -/

section FiniteMaps

variable (equal : K → K → Bool)

/-- The equality of the keys is an equivalence, and equal keys have the same hash. -/
structure KeyEquality (hash : K → ℕ) (equal : K → K → Bool) : Prop where
  refl : ∀ k, equal k k = true
  symm : ∀ k k', equal k k' = true → equal k' k = true
  trans : ∀ k k' k'', equal k k' = true → equal k' k'' = true → equal k k'' = true
  hash_eq : ∀ k k', equal k k' = true → hash k = hash k'

/-- A finite map is a list of entries whose keys are all different. -/
def Apart (entries : List (K × V)) : Prop :=
  entries.Pairwise fun first second => equal first.1 second.1 = false

def lookup (entries : List (K × V)) (k : K) : Option (K × V) :=
  entries.find? fun entry => equal entry.1 k

/-- What a call does to a finite map, and what it returns. -/
def onEntries [Inhabited V] (entries : List (K × V)) : Call K V → List (K × V) × Result K V
  | .insert key val =>
      match lookup equal entries key with
      | some entry => (entries, .inserted (some entry) false)
      | none => ((key, val) :: entries, .inserted (some (key, val)) true)
  | .indexOp key write =>
      let entries := if lookup equal entries key = none then (key, default) :: entries else entries
      (write.elim entries fun val =>
          entries.map fun entry => if equal entry.1 key then (entry.1, val) else entry,
        .value ((lookup equal entries key).elim default Prod.snd))
  | .erase key => (entries.filter fun entry => !equal entry.1 key,
      .number (if (lookup equal entries key).isSome then 1 else 0))
  | .find key => (entries, .entry (lookup equal entries key))
  | .count key => (entries, .number (if (lookup equal entries key).isSome then 1 else 0))
  | .size => (entries, .number entries.length)
  | .reserve _ => (entries, .nothing)
  | .copy => (entries, .nothing)
  | .clear => ([], .nothing)
  | .clearNoResize => ([], .nothing)

variable {equal} {hash : K → ℕ} {entries : List (K × V)} {entry : K × V} {k : K}

theorem lookup_eq_none (habsent : ∀ entry ∈ entries, equal entry.1 k = false) :
    lookup equal entries k = none := by
  rw [lookup, List.find?_eq_none]
  exact fun entry hentry => Bool.eq_false_iff.mp (habsent entry hentry)

variable (heq : KeyEquality hash equal)

include heq

theorem Apart.perm {entries' : List (K × V)} (hapart : Apart equal entries)
    (hperm : entries.Perm entries') : Apart equal entries' := by
  refine hperm.pairwise hapart fun {first second} h => ?_
  rw [← Bool.not_eq_true] at h ⊢
  exact fun hback => h (heq.symm _ _ hback)

/-- The entry of a key is the only one whose key is equal to it. -/
theorem apart_cons (hapart : Apart equal (entry :: entries)) (hentry : equal entry.1 k = true) :
    ∀ other ∈ entries, equal other.1 k = false := by
  intro other hother
  have hne := (List.pairwise_cons.mp hapart).1 other hother
  rw [← Bool.not_eq_true] at hne ⊢
  exact fun hk => hne (heq.trans _ _ _ hentry (heq.symm _ _ hk))

theorem lookup_eq_some {rest : List (K × V)} (hapart : Apart equal entries)
    (hperm : entries.Perm (entry :: rest)) (hentry : equal entry.1 k = true) :
    lookup equal entries k = some entry := by
  have hothers := apart_cons heq (hapart.perm heq hperm) hentry
  have hmem := hperm.mem_iff.mpr List.mem_cons_self
  cases hfind : lookup equal entries k with
  | none => exact absurd hentry (List.find?_eq_none.mp hfind entry hmem)
  | some found =>
      have hfound := List.find?_some hfind
      obtain rfl | hother := List.mem_cons.mp (hperm.mem_iff.mp (List.mem_of_find?_eq_some hfind))
      · rfl
      · exact absurd hfound (Bool.eq_false_iff.mp (hothers found hother))

/-- Writing the value of one entry. -/
theorem perm_overwrite {rest : List (K × V)} {key : K} {old : V} (hapart : Apart equal entries)
    (hperm : entries.Perm ((key, old) :: rest)) (hkey : equal key k = true) (val : V) :
    ((key, val) :: rest).Perm
      (entries.map fun entry => if equal entry.1 k then (entry.1, val) else entry) := by
  have hothers := apart_cons heq (hapart.perm heq hperm) hkey
  refine .trans (.of_eq ?_) (hperm.map _).symm
  rw [List.map_cons, if_pos hkey]
  have hsame : (rest.map fun entry => if equal entry.1 k then (entry.1, val) else entry) =
      rest.map id := List.map_congr_left fun entry hentry => by simp [hothers entry hentry]
  rw [hsame, List.map_id]

omit heq in
theorem apart_overwrite (hapart : Apart equal entries) (val : V) :
    Apart equal (entries.map fun entry => if equal entry.1 k then (entry.1, val) else entry) := by
  have hkey : ∀ entry : K × V, (if equal entry.1 k then (entry.1, val) else entry).1 = entry.1 := by
    intro entry
    split_ifs <;> rfl
  refine List.pairwise_map.mpr (hapart.imp fun h => ?_)
  rw [hkey, hkey]
  exact h

end FiniteMaps

/-! ## What a table stores -/

section Stored

variable {rep rep' : FlatRep K V}

/-- The entries in the slots. -/
def stored (rep : FlatRep K V) : List (K × V) := rep.slots.filterMap Slot.entry

theorem mem_stored {entry : K × V} :
    entry ∈ stored rep ↔ ∃ index x, rep.slot index = .full x entry.1 entry.2 := by
  rw [stored, List.mem_filterMap]
  constructor
  · rintro ⟨slot, hslot, hentry⟩
    obtain ⟨index, hindex⟩ := List.getElem?_of_mem hslot
    cases slot with
    | empty => cases hentry
    | deleted => cases hentry
    | full x key val =>
        obtain rfl := Option.some.inj hentry
        exact ⟨index, x, by rw [FlatRep.slot, hindex, Option.getD_some]⟩
  · rintro ⟨index, x, hslot⟩
    refine ⟨_, ?_, congrArg Slot.entry hslot⟩
    cases hindex : rep.slots[index]? with
    | none =>
        rw [FlatRep.slot, hindex] at hslot
        cases hslot
    | some slot =>
        rw [FlatRep.slot, hindex, Option.getD_some]
        exact List.mem_of_getElem? hindex

/-- Changing a slot exchanges what it stores. -/
theorem stored_set (rep' : FlatRep K V) {index : ℕ} (hindex : index < rep.slots.length)
    {slot : Slot K V}
    (hslots : rep'.slots = rep.slots.set index slot) :
    ((rep.slot index).entry.toList ++ stored rep').Perm (slot.entry.toList ++ stored rep) := by
  have hsplit : rep.slots =
      rep.slots.take index ++ rep.slot index :: rep.slots.drop (index + 1) := by
    rw [FlatRep.slot, List.getElem?_eq_getElem hindex, Option.getD_some,
      ← List.drop_eq_getElem_cons hindex, List.take_append_drop]
  have hcons : ∀ (slot : Slot K V) (slots : List (Slot K V)),
      (slot :: slots).filterMap Slot.entry = slot.entry.toList ++ slots.filterMap Slot.entry := by
    intro slot slots
    cases slot <;> rfl
  have hbefore : stored rep = (rep.slots.take index).filterMap Slot.entry ++
      ((rep.slot index).entry.toList ++ (rep.slots.drop (index + 1)).filterMap Slot.entry) := by
    rw [← hcons, ← List.filterMap_append, ← hsplit, stored]
  have hafter : stored rep' = (rep.slots.take index).filterMap Slot.entry ++
      (slot.entry.toList ++ (rep.slots.drop (index + 1)).filterMap Slot.entry) := by
    rw [← hcons, ← List.filterMap_append, stored, hslots, List.set_eq_take_append_cons_drop,
      if_pos hindex]
  rw [hbefore, hafter]
  refine (List.perm_append_comm_assoc _ _ _).trans (.trans ?_ (List.perm_append_comm_assoc _ _ _))
  exact (List.perm_append_comm_assoc _ _ _).append_left _

/-- A table that stores a finite map: each key is on the way of its probes, before any empty
slot. -/
structure HoldsMap (hash : K → ℕ) (rep : FlatRep K V) (entries : List (K × V)) : Prop where
  sized : Sized rep
  size : rep.size = entries.length
  bound : rep.deleted < 2 ^ 64
  perm : (stored rep).Perm entries
  placed : ∀ index x key val, rep.slot index = .full x key val → x = FlatRep.marker hash key ∧
    ∃ j, probe hash rep key j = index ∧ ∀ i < j, (rep.slot (probe hash rep key i)).isEmpty = false

variable {hash : K → ℕ} {equal : K → K → Bool} {entries : List (K × V)} {k : K} {v : V}

theorem HoldsMap.length_le (hstores : HoldsMap hash rep entries) : entries.length ≤ 2 ^ 31 := by
  rw [← hstores.perm.length_eq]
  exact (List.length_filterMap_le _ _).trans hstores.sized.le

theorem HoldsMap.congr {entries' : List (K × V)} (hstores : HoldsMap hash rep entries)
    (hperm : entries.Perm entries') : HoldsMap hash rep entries' :=
  { hstores with
    size := hstores.size.trans hperm.length_eq
    perm := hstores.perm.trans hperm }

/-- What probes without a match and then an empty slot tell: no key is equal. -/
theorem HoldsMap.absent (hstores : HoldsMap hash rep entries) (heq : KeyEquality hash equal) {i : ℕ}
    (hpassed : ∀ i' < i, Passes hash equal rep k i')
    (hempty : (rep.slot (probe hash rep k i)).isEmpty = true) :
    ∀ entry ∈ entries, equal entry.1 k = false := by
  intro entry hentry
  obtain ⟨index, x, hslot⟩ := mem_stored.mp (hstores.perm.mem_iff.mpr hentry)
  obtain ⟨rfl, j, hj, hbefore⟩ := hstores.placed index x _ _ hslot
  rw [← Bool.not_eq_true]
  intro hequal
  have hhash := heq.hash_eq _ _ hequal
  have hprobe : ∀ j, probe hash rep entry.1 j = probe hash rep k j := fun j => by
    rw [probe, probe, hhash]
  rw [hprobe] at hj
  simp only [hprobe] at hbefore
  obtain hlt | rfl | hgt := Nat.lt_trichotomy j i
  · have hpasses := (hpassed j hlt).1
    rw [hj, hslot, FlatRep.holds, hequal] at hpasses
    simp [FlatRep.marker, hhash] at hpasses
  · rw [hj, hslot] at hempty
    cases hempty
  · exact absurd hempty (by simp [hbefore i hgt])

/-- What a slot that holds a key stores. -/
theorem entry_of_holds {slot : Slot K V} (hholds : FlatRep.holds hash equal k slot = true) :
    ∃ x key val, slot = .full x key val ∧ equal key k = true := by
  cases slot with
  | empty => cases hholds
  | deleted => cases hholds
  | full x key val =>
      rw [FlatRep.holds, Bool.and_eq_true] at hholds
      exact ⟨x, key, val, rfl, hholds.2⟩

section

variable (hstores : HoldsMap hash rep entries)

include hstores

/-- The entry in a slot, and the others. -/
theorem HoldsMap.perm_cons {index x : ℕ} {key : K} {val : V}
    (hslot : rep.slot index = .full x key val) : index < rep.slots.length ∧
      entries.Perm ((key, val) :: stored (rep.erase index)) := by
  have hindex : index < rep.slots.length := by
    by_contra hge
    rw [FlatRep.slot, List.getElem?_eq_none (Nat.le_of_not_lt hge)] at hslot
    cases hslot
  have herase := stored_set (rep.erase index) hindex rfl
  rw [hslot] at herase
  exact ⟨hindex, hstores.perm.symm.trans herase.symm⟩

/-- A new key is put into a slot that its probes meet before any empty one. -/
theorem HoldsMap.put {index j : ℕ} (hnone : (rep.slot index).entry = none)
    (hj : probe hash rep k j = index)
    (hbefore : ∀ i < j, (rep.slot (probe hash rep k i)).isEmpty = false)
    (hslots : rep'.slots = rep.slots.set index (.full (FlatRep.marker hash k) k v))
    (hsize : rep'.size = (rep.size + 1) % 2 ^ 64) (hbound : rep'.deleted < 2 ^ 64) :
    HoldsMap hash rep' ((k, v) :: entries) := by
  have hindex : index < rep.slots.length := hj ▸ probe_lt hstores.sized j
  have hlength : rep'.slots.length = rep.slots.length := by rw [hslots, List.length_set]
  have hslot := slot_set hindex _ hslots
  have hprobe : ∀ key i, probe hash rep' key i = probe hash rep key i := fun key i => by
    rw [probe, probe, hlength]
  have hkept : ∀ other, (rep.slot other).isEmpty = false → (rep'.slot other).isEmpty = false := by
    intro other hother
    rw [hslot]
    split_ifs
    · rfl
    · exact hother
  have hstored := stored_set rep' hindex hslots
  rw [hnone] at hstored
  obtain ⟨lg, hlg, hlg'⟩ := hstores.sized
  have hle := hstores.length_le
  refine ⟨⟨lg, hlg, hlength.trans hlg'⟩, ?_, hbound, hstored.trans (hstores.perm.cons _),
    fun other x key val hother => ?_⟩
  · rw [hsize, hstores.size, List.length_cons, Nat.mod_eq_of_lt (by omega)]
  · rw [hslot] at hother
    simp only [hprobe]
    split_ifs at hother with hsame
    · obtain ⟨rfl, rfl, rfl⟩ := Slot.full.inj hother
      exact ⟨rfl, j, hj.trans hsame.symm, fun i hi => hkept _ (hbefore i hi)⟩
    · obtain ⟨hx, j', hj', hbefore'⟩ := hstores.placed other x key val hother
      exact ⟨hx, j', hj', fun i hi => hkept _ (hbefore' i hi)⟩

/-- `Find`. -/
theorem HoldsMap.find (heq : KeyEquality hash equal) {found : Option ℕ}
    (hfind : rep.find hash equal k = .ok found) :
    found = none ∧ (∀ entry ∈ entries, equal entry.1 k = false) ∨
      ∃ index x key val, found = some index ∧ rep.slot index = .full x key val ∧
        equal key k = true := by
  rw [FlatRep.find, firstIndex_eq hstores.sized] at hfind
  obtain ⟨i, hpassed, ⟨hholds, hresult⟩ | ⟨hempty, hresult⟩⟩ | ⟨-, hresult⟩ :=
    findLoop_spec k hash equal hstores.sized rep.slots.length 0 (Nat.zero_add _)
      fun i hi => absurd hi (Nat.not_lt_zero i)
  · obtain rfl := Except.ok.inj (hfind.symm.trans hresult)
    obtain ⟨x, key, val, hslot, hequal⟩ := entry_of_holds hholds
    exact .inr ⟨_, x, key, val, rfl, hslot, hequal⟩
  · obtain rfl := Except.ok.inj (hfind.symm.trans hresult)
    exact .inl ⟨rfl, hstores.absent heq hpassed hempty⟩
  · cases hfind.symm.trans hresult

/-- `FindOrInsert`. -/
theorem HoldsMap.findOrInsert (heq : KeyEquality hash equal) {isNew : Bool} {index : ℕ}
    (hinsert : rep.findOrInsert hash equal k v = .ok (isNew, index, rep')) :
    (isNew = false ∧ rep' = rep ∧ ∃ x key val, rep.slot index = .full x key val ∧
        equal key k = true) ∨
      isNew = true ∧ (∀ entry ∈ entries, equal entry.1 k = false) ∧
        rep'.slot index = .full (FlatRep.marker hash k) k v ∧
          HoldsMap hash rep' ((k, v) :: entries) := by
  rw [FlatRep.findOrInsert, firstIndex_eq hstores.sized] at hinsert
  have hbound := hstores.bound
  obtain ⟨i, hpassed, ⟨hholds, hresult⟩ | ⟨hempty, ⟨d, hd, hdeleted, hresult⟩ | hresult⟩⟩ |
      ⟨-, hresult⟩ :=
    findOrInsertLoop_spec k hash equal hstores.sized rep.slots.length 0 (Nat.zero_add _)
      (fun i hi => absurd hi (Nat.not_lt_zero i)) none (by simp)
  · rw [hresult] at hinsert
    obtain ⟨rfl, rfl, rfl⟩ : false = isNew ∧ probe hash rep k i = index ∧ rep = rep' := by
      simpa [bind, Except.bind, pure, Except.pure] using hinsert
    obtain ⟨x, key, val, hslot, hequal⟩ := entry_of_holds hholds
    exact .inl ⟨rfl, rfl, x, key, val, hslot, hequal⟩
  · rw [hresult] at hinsert
    obtain ⟨rfl, rfl, rfl⟩ : true = isNew ∧ probe hash rep k d = index ∧
        { rep with
          slots := rep.slots.set (probe hash rep k d) (.full (FlatRep.marker hash k) k v)
          deleted := (rep.deleted + (2 ^ 64 - 1)) % 2 ^ 64 } = rep' := by
      simpa [bind, Except.bind, pure, Except.pure] using hinsert
    refine .inr ⟨rfl, hstores.absent heq hpassed hempty, ?_, ?_⟩
    · rw [slot_set (probe_lt hstores.sized d) _ rfl, if_pos rfl]
    · refine hstores.put ?_ rfl (fun i' hi' => (hpassed i' (by omega)).2) rfl ?_
        (Nat.mod_lt _ (by decide))
      · cases hslot : rep.slot (probe hash rep k d) with
        | empty => rfl
        | deleted => rfl
        | full => rw [hslot] at hdeleted; cases hdeleted
      · simp only [FlatRep.size]
        omega
  · rw [hresult] at hinsert
    obtain ⟨rfl, rfl, rfl⟩ : true = isNew ∧ probe hash rep k i = index ∧
        { rep with
          slots := rep.slots.set (probe hash rep k i) (.full (FlatRep.marker hash k) k v)
          notEmpty := rep.notEmpty + 1 } = rep' := by
      simpa [bind, Except.bind, pure, Except.pure] using hinsert
    refine .inr ⟨rfl, hstores.absent heq hpassed hempty, ?_, ?_⟩
    · rw [slot_set (probe_lt hstores.sized i) _ rfl, if_pos rfl]
    · refine hstores.put ?_ rfl (fun i' hi' => (hpassed i' hi').2) rfl ?_ hbound
      · cases hslot : rep.slot (probe hash rep k i) with
        | empty => rfl
        | deleted => rfl
        | full => rw [hslot] at hempty; cases hempty
      · simp only [FlatRep.size]
        omega
  · rw [hresult] at hinsert
    cases hinsert

/-- `Erase` of a full slot. -/
theorem HoldsMap.erase {index x : ℕ} {key : K} {val : V}
    (hslot : rep.slot index = .full x key val) :
    HoldsMap hash (rep.erase index) (stored (rep.erase index)) := by
  obtain ⟨hindex, hperm⟩ := hstores.perm_cons hslot
  have hlength : (rep.erase index).slots.length = rep.slots.length := List.length_set
  have hafter : ∀ other, (rep.erase index).slot other =
      if other = index then .deleted else rep.slot other := slot_set hindex .deleted rfl
  have hprobe : ∀ key i, probe hash (rep.erase index) key i = probe hash rep key i :=
    fun key i => by rw [probe, probe, hlength]
  have hbound := hstores.bound
  have hsize := hstores.size
  have hcount := hperm.length_eq
  have hle := hstores.length_le
  obtain ⟨lg, hlg, hlg'⟩ := hstores.sized
  refine ⟨⟨lg, hlg, hlength.trans hlg'⟩, ?_, Nat.mod_lt _ (by decide), .refl _,
    fun other x key val hother => ?_⟩
  · rw [List.length_cons] at hcount
    rw [FlatRep.size] at hsize ⊢
    simp only [FlatRep.erase] at hcount ⊢
    omega
  · rw [hafter] at hother
    simp only [hprobe]
    split_ifs at hother with hsame
    obtain ⟨hx, j, hj, hbefore⟩ := hstores.placed other x key val hother
    refine ⟨hx, j, hj, fun i hi => ?_⟩
    rw [hafter]
    split_ifs
    · rfl
    · exact hbefore i hi

/-- A value is written into a full slot. -/
theorem HoldsMap.write {index x : ℕ} {key : K} {old : V}
    (hslot : rep.slot index = .full x key old) (val : V) :
    HoldsMap hash (rep.write index val) ((key, val) :: stored (rep.erase index)) := by
  obtain ⟨hindex, hperm⟩ := hstores.perm_cons hslot
  have hwrite : rep.write index val =
      { rep with slots := rep.slots.set index (.full x key val) } := by
    rw [FlatRep.write, hslot]
  rw [hwrite]
  have hafter : ∀ other,
      { rep with slots := rep.slots.set index (.full x key val) }.slot other =
        if other = index then .full x key val else rep.slot other :=
    slot_set hindex (.full x key val) rfl
  have hstored := stored_set { rep with slots := rep.slots.set index (.full x key val) } hindex rfl
  rw [hslot] at hstored
  obtain ⟨lg, hlg, hlg'⟩ := hstores.sized
  refine ⟨⟨lg, hlg, by simpa using hlg'⟩, ?_, hstores.bound, ?_,
    fun other x' key' val' hother => ?_⟩
  · exact hstores.size.trans hperm.length_eq
  · have hrest : (stored rep).Perm ((key, old) :: stored (rep.erase index)) :=
      hstores.perm.trans hperm
    have hboth := hstored.trans (hrest.append_left [(key, val)])
    refine (List.perm_cons (key, old)).mp (hboth.trans ?_)
    exact List.Perm.swap _ _ _
  · have hprobe : ∀ k' i,
        probe hash { rep with slots := rep.slots.set index (.full x key val) } k' i =
          probe hash rep k' i := fun k' i => by simp [probe]
    have hkept : ∀ other, (rep.slot other).isEmpty = false →
        (if other = index then .full x key val else rep.slot other).isEmpty = false := by
      intro other hother
      split_ifs
      · rfl
      · exact hother
    simp only [hprobe, hafter] at hother ⊢
    split_ifs at hother with hsame
    · obtain ⟨rfl, rfl, -⟩ := Slot.full.inj hother
      obtain ⟨hx, j, hj, hbefore⟩ := hstores.placed index x key old hslot
      exact ⟨hx, j, hj.trans hsame.symm, fun i hi => hkept _ (hbefore i hi)⟩
    · obtain ⟨hx, j, hj, hbefore⟩ := hstores.placed other x' key' val' hother
      exact ⟨hx, j, hj, fun i hi => hkept _ (hbefore i hi)⟩

end

/-! ## The calls -/

/-- The part before a bind that returned has returned. -/
theorem of_bind_eq_ok {α β : Type} {outcome : Except Fault α} {next : α → Except Fault β}
    {result : β} (hresult : (outcome >>= next) = .ok result) :
    ∃ value, outcome = .ok value ∧ next value = .ok result := by
  cases outcome with
  | error fault => cases hresult
  | ok value => exact ⟨value, rfl, hresult⟩

variable {N : ℕ}

/-- A new table stores nothing. -/
theorem holdsMap_init (hinit : FlatRep.init N = .ok rep) : HoldsMap hash rep [] := by
  obtain ⟨lg, hlg, hrep⟩ := of_bind_eq_ok hinit
  obtain rfl := Except.ok.inj hrep
  have hlt : lg < 29 := by
    rw [FlatRep.initLg] at hlg
    cases hfind : (List.range 29).find? fun lg => 5 * N < 4 * (2 ^ lg * 8) with
    | none => simp [hfind] at hlg
    | some found =>
        rw [hfind] at hlg
        obtain rfl := Except.ok.inj hlg
        exact List.mem_range.mp (List.mem_of_find?_eq_some hfind)
  refine ⟨⟨lg, hlt, by simp⟩, by simp [FlatRep.size], by simp, ?_, fun index x key val hslot => ?_⟩
  · simp [stored, Slot.entry, List.filterMap_replicate]
  · simp [FlatRep.slot, List.getElem?_replicate] at hslot
    split_ifs at hslot <;> cases hslot

/-- `FreshInsert` of a key that is not there. -/
theorem HoldsMap.freshInsert (hstores : HoldsMap hash rep entries)
    (hinsert : rep.freshInsert hash k v = .ok rep') : HoldsMap hash rep' ((k, v) :: entries) := by
  have hbound := hstores.bound
  rw [FlatRep.freshInsert, firstIndex_eq hstores.sized] at hinsert
  obtain ⟨index, hloop, hrep'⟩ := of_bind_eq_ok hinsert
  obtain rfl := Except.ok.inj hrep'
  obtain ⟨i, hpassed, hempty, hresult⟩ | ⟨-, hresult⟩ :=
    freshInsertLoop_spec k hash hstores.sized rep.slots.length 0 (Nat.zero_add _)
      fun i hi => absurd hi (Nat.not_lt_zero i)
  · obtain rfl := Except.ok.inj (hloop.symm.trans hresult)
    refine hstores.put ?_ rfl hpassed rfl ?_ hbound
    · cases hslot : rep.slot (probe hash rep k i) with
      | empty => rfl
      | deleted => rfl
      | full => rw [hslot] at hempty; cases hempty
    · simp only [FlatRep.size]
      omega
  · cases hloop.symm.trans hresult

/-- `CopyEntries`. -/
theorem HoldsMap.copyEntries (slots : List (Slot K V)) (hstores : HoldsMap hash rep entries)
    (hcopy : rep.copyEntries hash slots = .ok rep') :
    HoldsMap hash rep' (slots.filterMap Slot.entry ++ entries) := by
  induction slots generalizing rep entries with
  | nil =>
      obtain rfl := Except.ok.inj hcopy
      exact hstores
  | cons slot slots ih =>
      rw [FlatRep.copyEntries, List.foldlM_cons] at hcopy
      cases slot with
      | empty => exact ih hstores hcopy
      | deleted => exact ih hstores hcopy
      | full x key val =>
          obtain ⟨next, hinsert, hrest⟩ := of_bind_eq_ok hcopy
          exact (ih (hstores.freshInsert hinsert) hrest).congr List.perm_middle

theorem HoldsMap.rebuild (hstores : HoldsMap hash rep entries)
    (hrebuild : (do (← FlatRep.init N).copyEntries hash rep.slots) = .ok rep') :
    HoldsMap hash rep' entries := by
  obtain ⟨fresh, hinit, hcopy⟩ := of_bind_eq_ok hrebuild
  have hcopied := (holdsMap_init hinit).copyEntries rep.slots hcopy
  rw [List.append_nil] at hcopied
  exact hcopied.congr hstores.perm

/-- `MaybeResize`. -/
theorem HoldsMap.maybeResize (hstores : HoldsMap hash rep entries)
    (hresize : rep.maybeResize hash = .ok rep') : HoldsMap hash rep' entries := by
  rw [FlatRep.maybeResize] at hresize
  split_ifs at hresize with hbelow hshrink
  · obtain rfl := Except.ok.inj hresize
    exact hstores
  · simp only at hresize
    split_ifs at hresize with hbelow'
    · obtain rfl := Except.ok.inj hresize
      exact { hstores with }
    · have hgrown : HoldsMap hash { rep with grow := FlatRep.growAt rep.slots.length } entries :=
        { hstores with }
      exact hgrown.rebuild hresize
  · exact hstores.rebuild hresize

theorem HoldsMap.clearNoResize (hstores : HoldsMap hash rep entries) :
    HoldsMap hash rep.clearNoResize [] := by
  obtain ⟨lg, hlg, hlength⟩ := hstores.sized
  have hentry : ∀ slot ∈ rep.clearNoResize.slots, slot.entry = none := by
    intro slot hslot
    obtain ⟨old, -, rfl⟩ := List.mem_map.mp hslot
    cases old <;> rfl
  refine ⟨⟨lg, hlg, (List.length_map _).trans hlength⟩,
    by simp [FlatRep.size, FlatRep.clearNoResize], Nat.two_pow_pos 64, ?_,
    fun index x key val hslot => ?_⟩
  · rw [stored, List.filterMap_eq_nil_iff.mpr hentry]
  · have hmem : (key, val) ∈ stored rep.clearNoResize := mem_stored.mpr ⟨index, x, hslot⟩
    rw [stored, List.filterMap_eq_nil_iff.mpr hentry] at hmem
    cases hmem

theorem HoldsMap.clear (hstores : HoldsMap hash rep entries) (hclear : rep.clear hash = .ok rep') :
    HoldsMap hash rep' [] := by
  have hcleared : HoldsMap hash { rep.clearNoResize with grow := 0 } [] :=
    { hstores.clearNoResize with }
  exact hcleared.maybeResize hclear

/-! ## Iterating -/

/-- From an index on, the iterator shows what the slots store. -/
theorem flatIterate_eq (rep : FlatRep K V) (left index : ℕ)
    (hleft : rep.slots.length ≤ index + left) :
    rep.iterate left (rep.skipUnused (rep.slots.length - index) index) =
      (rep.slots.drop index).filterMap Slot.entry := by
  induction hrest : rep.slots.length - index generalizing left index with
  | zero =>
      have hge : rep.slots.length ≤ index := Nat.sub_eq_zero_iff_le.mp hrest
      have hslot : rep.slot index = .empty := by
        rw [FlatRep.slot, List.getElem?_eq_none hge, Option.getD_none]
      rw [List.drop_eq_nil_of_le hge, FlatRep.skipUnused]
      cases left with
      | zero => rfl
      | succ left => rw [FlatRep.iterate, hslot]; rfl
  | succ rest ih =>
      have hlt : index < rep.slots.length := by omega
      have hnext : rep.slots.length - (index + 1) = rest := by omega
      have hslot : rep.slots[index] = rep.slot index := by
        rw [FlatRep.slot, List.getElem?_eq_getElem hlt, Option.getD_some]
      rw [List.drop_eq_getElem_cons hlt, hslot, FlatRep.skipUnused]
      by_cases hfull : (rep.slot index).isFull = true
      · obtain ⟨left, rfl⟩ := Nat.exists_eq_add_one_of_ne_zero (n := left) (by omega)
        have htail := ih left (index + 1) (by omega) hnext
        rw [if_pos hfull, FlatRep.iterate]
        cases hentry : rep.slot index with
        | full x key val =>
            rw [hnext, htail]
            rfl
        | empty => rw [hentry] at hfull; cases hfull
        | deleted => rw [hentry] at hfull; cases hfull
      · have htail := ih left (index + 1) (by omega) hnext
        have hentry : (rep.slot index).entry = none := by
          cases hkind : rep.slot index with
          | full => rw [hkind] at hfull; exact absurd rfl hfull
          | empty => rfl
          | deleted => rfl
        rw [if_neg hfull, htail, List.filterMap_cons_none hentry]

/-- **Iterating shows each stored entry once.** -/
theorem entries_eq (rep : FlatRep K V) : rep.entries = stored rep :=
  flatIterate_eq rep rep.slots.length 0 (Nat.le_add_left _ _)

/-! ## Every sequence of calls -/

variable [Inhabited V]

/-- **Each call** does to the table what it does to the finite map, and returns the same. -/
theorem HoldsMap.exec (hstores : HoldsMap hash rep entries) (heq : KeyEquality hash equal)
    (hapart : Apart equal entries) {call : Call K V} {result : Result K V}
    (hexec : call.exec hash equal rep = .ok (rep', result)) :
    (onEntries equal entries call).2 = result ∧
      HoldsMap hash rep' (onEntries equal entries call).1 ∧
        Apart equal (onEntries equal entries call).1 := by
  cases call with
  | insert key val =>
      obtain ⟨resized, hresize, hexec⟩ := of_bind_eq_ok hexec
      obtain ⟨⟨isNew, index, inserted⟩, hinsert, hexec⟩ := of_bind_eq_ok hexec
      obtain ⟨rfl, rfl⟩ := Prod.mk.inj (Except.ok.inj hexec)
      have hresized := hstores.maybeResize hresize
      obtain ⟨rfl, rfl, x, key', val', hslot, hequal⟩ | ⟨rfl, habsent, hslot, hinserted⟩ :=
        hresized.findOrInsert heq hinsert
      · have hlookup := lookup_eq_some heq hapart (hresized.perm_cons hslot).2 hequal
        rw [onEntries, hlookup, hslot]
        exact ⟨rfl, hresized, hapart⟩
      · rw [onEntries, lookup_eq_none habsent, hslot]
        refine ⟨rfl, hinserted, List.pairwise_cons.mpr ⟨fun entry hentry => ?_, hapart⟩⟩
        have hne := habsent entry hentry
        rw [← Bool.not_eq_true] at hne ⊢
        exact fun hback => hne (heq.symm _ _ hback)
  | indexOp key write =>
      obtain ⟨resized, hresize, hexec⟩ := of_bind_eq_ok hexec
      obtain ⟨⟨isNew, index, inserted⟩, hinsert, hexec⟩ := of_bind_eq_ok hexec
      obtain ⟨rfl, rfl⟩ := Prod.mk.inj (Except.ok.inj hexec)
      have hresized := hstores.maybeResize hresize
      -- the slot of the key, and the entries before the caller writes
      obtain ⟨x, key', val', hslot, hequal, hinserted, hapart'⟩ : ∃ x key' val',
          inserted.slot index = .full x key' val' ∧ equal key' key = true ∧
            HoldsMap hash inserted
              (if lookup equal entries key = none then (key, default) :: entries else entries) ∧
            Apart equal
              (if lookup equal entries key = none then (key, default) :: entries else entries) := by
        obtain ⟨rfl, rfl, x, key', val', hslot, hequal⟩ | ⟨rfl, habsent, hslot, hinserted⟩ :=
          hresized.findOrInsert heq hinsert
        · have hlookup := lookup_eq_some heq hapart (hresized.perm_cons hslot).2 hequal
          rw [hlookup, if_neg (by simp)]
          exact ⟨x, key', val', hslot, hequal, hresized, hapart⟩
        · rw [lookup_eq_none habsent, if_pos rfl]
          refine ⟨_, key, default, hslot, heq.refl key, hinserted,
            List.pairwise_cons.mpr ⟨fun entry hentry => ?_, hapart⟩⟩
          have hne := habsent entry hentry
          rw [← Bool.not_eq_true] at hne ⊢
          exact fun hback => hne (heq.symm _ _ hback)
      have hperm := (hinserted.perm_cons hslot).2
      rw [onEntries, hslot]
      simp only [lookup_eq_some heq hapart' hperm hequal]
      refine ⟨rfl, ?_⟩
      cases write with
      | none => exact ⟨hinserted, hapart'⟩
      | some val =>
          refine ⟨(hinserted.write hslot val).congr ?_, apart_overwrite hapart' val⟩
          exact perm_overwrite heq hapart' hperm hequal val
  | erase key =>
      obtain ⟨found, hfind, hexec⟩ := of_bind_eq_ok hexec
      obtain ⟨rfl, habsent⟩ | ⟨index, x, key', val, rfl, hslot, hequal⟩ := hstores.find heq hfind
      · obtain ⟨rfl, rfl⟩ := Prod.mk.inj (Except.ok.inj hexec)
        have hkept : entries.filter (fun entry => !equal entry.1 key) = entries :=
          List.filter_eq_self.mpr fun entry hentry => by simp [habsent entry hentry]
        rw [onEntries, lookup_eq_none habsent, hkept]
        exact ⟨rfl, hstores, hapart⟩
      · obtain ⟨rfl, rfl⟩ := Prod.mk.inj (Except.ok.inj hexec)
        have hperm := (hstores.perm_cons hslot).2
        have hothers := apart_cons heq (hapart.perm heq hperm) hequal
        have hkept : (entries.filter fun entry => !equal entry.1 key).Perm
            (stored (rep.erase index)) := by
          refine (hperm.filter _).trans ?_
          rw [List.filter_cons_of_neg (by simp [hequal]), List.filter_eq_self.mpr
            fun entry hentry => by simp [hothers entry hentry]]
        rw [onEntries, lookup_eq_some heq hapart hperm hequal]
        exact ⟨rfl, (hstores.erase hslot).congr hkept.symm, hapart.sublist List.filter_sublist⟩
  | find key =>
      obtain ⟨found, hfind, hexec⟩ := of_bind_eq_ok hexec
      obtain ⟨rfl, habsent⟩ | ⟨index, x, key', val, rfl, hslot, hequal⟩ := hstores.find heq hfind
      · obtain ⟨rfl, rfl⟩ := Prod.mk.inj (Except.ok.inj hexec)
        rw [onEntries, lookup_eq_none habsent]
        exact ⟨rfl, hstores, hapart⟩
      · obtain ⟨rfl, rfl⟩ := Prod.mk.inj (Except.ok.inj hexec)
        rw [onEntries, lookup_eq_some heq hapart (hstores.perm_cons hslot).2 hequal, hslot]
        exact ⟨rfl, hstores, hapart⟩
  | count key =>
      obtain ⟨found, hfind, hexec⟩ := of_bind_eq_ok hexec
      obtain ⟨rfl, habsent⟩ | ⟨index, x, key', val, rfl, hslot, hequal⟩ := hstores.find heq hfind
      · obtain ⟨rfl, rfl⟩ := Prod.mk.inj (Except.ok.inj hexec)
        rw [onEntries, lookup_eq_none habsent]
        exact ⟨rfl, hstores, hapart⟩
      · obtain ⟨rfl, rfl⟩ := Prod.mk.inj (Except.ok.inj hexec)
        rw [onEntries, lookup_eq_some heq hapart (hstores.perm_cons hslot).2 hequal]
        exact ⟨rfl, hstores, hapart⟩
  | size =>
      obtain ⟨rfl, rfl⟩ := Prod.mk.inj (Except.ok.inj hexec)
      exact ⟨congrArg Result.number hstores.size.symm, hstores, hapart⟩
  | reserve N =>
      obtain ⟨resized, hresize, hexec⟩ := of_bind_eq_ok hexec
      obtain ⟨rfl, rfl⟩ := Prod.mk.inj (Except.ok.inj hexec)
      exact ⟨rfl, hstores.rebuild hresize, hapart⟩
  | copy =>
      obtain ⟨copied, hcopy, hexec⟩ := of_bind_eq_ok hexec
      obtain ⟨rfl, rfl⟩ := Prod.mk.inj (Except.ok.inj hexec)
      exact ⟨rfl, hstores.rebuild hcopy, hapart⟩
  | clear =>
      obtain ⟨cleared, hclear, hexec⟩ := of_bind_eq_ok hexec
      obtain ⟨rfl, rfl⟩ := Prod.mk.inj (Except.ok.inj hexec)
      exact ⟨rfl, hstores.clear hclear, .nil⟩
  | clearNoResize =>
      obtain ⟨rfl, rfl⟩ := Prod.mk.inj (Except.ok.inj hexec)
      exact ⟨rfl, hstores.clearNoResize, .nil⟩

/-- The calls made to a map, and what they return. -/
def runCalls (hash : K → ℕ) (equal : K → K → Bool) :
    List (Call K V) → FlatRep K V → Except Fault (FlatRep K V × List (Result K V))
  | [], rep => return (rep, [])
  | call :: calls, rep => do
      let (rep, result) ← call.exec hash equal rep
      let (rep, results) ← runCalls hash equal calls rep
      return (rep, result :: results)

/-- The same calls to a finite map. -/
def callEntries (equal : K → K → Bool) :
    List (Call K V) → List (K × V) → List (K × V) × List (Result K V)
  | [], entries => (entries, [])
  | call :: calls, entries =>
      let after := onEntries equal entries call
      let rest := callEntries equal calls after.1
      (rest.1, after.2 :: rest.2)

theorem HoldsMap.runCalls (calls : List (Call K V)) {results : List (Result K V)}
    (hstores : HoldsMap hash rep entries) (heq : KeyEquality hash equal)
    (hapart : Apart equal entries) (hrun : runCalls hash equal calls rep = .ok (rep', results)) :
    (callEntries equal calls entries).2 = results ∧
      HoldsMap hash rep' (callEntries equal calls entries).1 ∧
        Apart equal (callEntries equal calls entries).1 := by
  induction calls generalizing rep entries results with
  | nil =>
      obtain ⟨rfl, rfl⟩ := Prod.mk.inj (Except.ok.inj hrun)
      exact ⟨rfl, hstores, hapart⟩
  | cons call calls ih =>
      obtain ⟨⟨next, result⟩, hexec, hrun⟩ := of_bind_eq_ok hrun
      obtain ⟨⟨last, rest⟩, hrest, hrun⟩ := of_bind_eq_ok hrun
      obtain ⟨rfl, rfl⟩ := Prod.mk.inj (Except.ok.inj hrun)
      obtain ⟨hresult, hnext, hapart'⟩ := hstores.exec heq hapart hexec
      obtain ⟨hresults, hlast, hapart''⟩ := ih hnext hapart' hrest
      rw [callEntries, hresult, hresults]
      exact ⟨rfl, hlast, hapart''⟩

omit [Inhabited V] in
theorem holdsMap_emptyMap (hash : K → ℕ) : HoldsMap hash (emptyMap : FlatRep K V) [] := by
  refine ⟨⟨0, by decide, rfl⟩, by simp [FlatRep.size, emptyMap], Nat.two_pow_pos 64, .refl _,
    fun index x key val hslot => ?_⟩
  have hmem : (key, val) ∈ stored (emptyMap : FlatRep K V) := mem_stored.mpr ⟨index, x, hslot⟩
  cases hmem

/-- **The flat hash map is a finite map.** Calls that all return give the results that they give for
a finite map, and iterating then shows each of its entries once. -/
theorem flatMap_refines (heq : KeyEquality hash equal) {calls : List (Call K V)}
    {results : List (Result K V)} (hrun : runCalls hash equal calls emptyMap = .ok (rep, results)) :
    results = (callEntries equal calls []).2 ∧
      rep.entries.Perm (callEntries equal calls []).1 ∧ Apart equal rep.entries := by
  obtain ⟨hresults, hstores, hapart⟩ := (holdsMap_emptyMap hash).runCalls calls heq .nil hrun
  rw [entries_eq]
  exact ⟨hresults.symm, hstores.perm, hapart.perm heq hstores.perm.symm⟩

/-- Numbers that are equal modulo 3 as keys: one is erased and put back as another. -/
theorem reinserted_key_refines :
    ∃ rep : FlatRep ℕ ℕ, runCalls (fun k => (k % 3) <<< 8) (fun k k' => k % 3 == k' % 3)
        [.insert 1 10, .insert 4 40, .indexOp 2 (some 20), .erase 7, .insert 4 50, .find 1, .size]
        emptyMap =
      .ok (rep, [.inserted (some (1, 10)) true, .inserted (some (1, 10)) false, .value 0, .number 1,
        .inserted (some (4, 50)) true, .entry (some (4, 50)), .number 2]) ∧
      rep.entries.Perm [(4, 50), (2, 20)] := by
  have heq : KeyEquality (fun k => (k % 3) <<< 8) (fun k k' : ℕ => k % 3 == k' % 3) := by
    refine ⟨?_, ?_, ?_, ?_⟩ <;> simp +contextual
  obtain ⟨⟨rep, results⟩, hrun, rfl⟩ : ∃ outcome : FlatRep ℕ ℕ × List (Result ℕ ℕ),
      runCalls (fun k => (k % 3) <<< 8) (fun k k' => k % 3 == k' % 3)
        [.insert 1 10, .insert 4 40, .indexOp 2 (some 20), .erase 7, .insert 4 50, .find 1, .size]
        emptyMap = .ok outcome ∧
      outcome.2 = [.inserted (some (1, 10)) true, .inserted (some (1, 10)) false, .value 0,
        .number 1, .inserted (some (4, 50)) true, .entry (some (4, 50)), .number 2] :=
    ⟨_, by rfl, by rfl⟩
  exact ⟨rep, hrun, (flatMap_refines heq hrun).2.1⟩

end Stored

end ContainerScheduler.Analysis
