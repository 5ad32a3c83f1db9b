/-
# Greedy plans do not overlap

The list of the placed buffers is sorted by their offsets. The search for a gap visits those that
are needed at the same time, which are sorted too, and takes the first fit between them.
-/

import ContainerScheduler.Arena.GreedyMemoryPlanner
import ContainerScheduler.Math.FirstFit
import ContainerScheduler.Math.ForwardList
import Mathlib.Algebra.Order.BigOperators.Group.List
import Mathlib.Data.List.GetD

namespace ContainerScheduler.Analysis

open Arena
open Math

theorem asInt_inRange {result : ℤ} (hlow : -2 ^ 31 ≤ result) (hhigh : result < 2 ^ 31) :
    asInt result = .ok result := if_pos ⟨hlow, hhigh⟩

theorem readAt_eq {α : Type} {array : List α} {index : ℕ} {value : α}
    (hvalue : array[index]? = some value) : readAt array index = .ok value := by
  rw [readAt, hvalue]

/-! ## The list in the order of the offsets -/

/-- The intervals of time meet. -/
def NeededTogether (first second : BufferRequirements) : Prop :=
  first.firstTimeUsed ≤ second.lastTimeUsed ∧ second.firstTimeUsed ≤ first.lastTimeUsed

instance (first second : BufferRequirements) : Decidable (NeededTogether first second) :=
  inferInstanceAs (Decidable (_ ∧ _))

theorem NeededTogether.symm {first second : BufferRequirements}
    (htogether : NeededTogether first second) : NeededTogether second first :=
  And.symm htogether

section Entries

variable (requirements : List BufferRequirements) (entries : List ListEntry)

/-- What an entry is placed for. -/
def requirementsOf (entry : ListEntry) : BufferRequirements :=
  requirements.getD entry.requirementsIndex ⟨0, 0, 0⟩

def blockOf
    (entry : ListEntry) : Block ℤ := ⟨entry.offset, (requirementsOf requirements entry).size⟩

def entryAt (index : ℕ) : ListEntry := entries.getD index ⟨0, 0, none⟩

def nextAt (index : ℕ) : Option ℕ := (entryAt entries index).nextEntryIndex

/-- All entries are in the list, in the order of their offsets. -/
structure OffsetOrder (order : List ℕ) : Prop where
  leads : LeadsThrough (nextAt entries) (some 0) order
  perm : order.Perm (List.range entries.length)
  sorted : order.Pairwise fun i j => (entryAt entries i).offset ≤ (entryAt entries j).offset

/-- What holds of the entries, however they are linked. -/
structure WellPlaced (offsets : List ℤ) : Prop where
  index_lt : ∀ entry ∈ entries, entry.requirementsIndex < requirements.length
  offset_eq : ∀ entry ∈ entries, offsets[entry.requirementsIndex]? = some entry.offset
  nonneg : ∀ entry ∈ entries, 0 ≤ entry.offset
  apart : entries.Pairwise fun first second =>
    NeededTogether (requirementsOf requirements first) (requirementsOf requirements second) →
      (blockOf requirements first).Apart (blockOf requirements second)
  stop_le : ∀ entry ∈ entries, (blockOf requirements entry).stop ≤
    (entries.map fun entry => (requirementsOf requirements entry).size).sum

end Entries

section Search

variable {requirements : List BufferRequirements} {entries : List ListEntry} {order rest : List ℕ}
  {wanted : BufferRequirements} {index : ℕ}

theorem readAt_entry (hindex : index < entries.length) :
    readAt entries index = .ok (entryAt entries index) := by
  refine readAt_eq ?_
  rw [entryAt, List.getD_eq_getElem?_getD, List.getElem?_eq_getElem hindex, Option.getD_some]

theorem entryAt_mem (hindex : index < entries.length) : entryAt entries index ∈ entries := by
  rw [entryAt, List.getD_eq_getElem?_getD, List.getElem?_eq_getElem hindex, Option.getD_some]
  exact List.getElem_mem hindex

theorem readAt_requirements {entry : ListEntry}
    (hindex : entry.requirementsIndex < requirements.length) :
    readAt requirements entry.requirementsIndex = .ok (requirementsOf requirements entry) := by
  refine readAt_eq ?_
  rw [requirementsOf, List.getD_eq_getElem?_getD, List.getElem?_eq_getElem hindex, Option.getD_some]

/-- The entry is needed at the same time as what is wanted. -/
def activeAt (requirements : List BufferRequirements) (entries : List ListEntry)
    (wanted : BufferRequirements) (index : ℕ) : Bool :=
  NeededTogether (requirementsOf requirements (entryAt entries index)) wanted

theorem doesEntryOverlapInTime_eq {entry : ListEntry}
    (hindex : entry.requirementsIndex < requirements.length) :
    doesEntryOverlapInTime requirements entry wanted.firstTimeUsed wanted.lastTimeUsed =
      .ok (decide (NeededTogether (requirementsOf requirements entry) wanted)) := by
  rw [doesEntryOverlapInTime, readAt_requirements hindex, Except.map]
  congr 1
  split_ifs <;> simp only [NeededTogether] <;> grind

/-- The next active entry is the first one of those behind. -/
theorem activeFrom_eq (hindex : ∀ entry ∈ entries, entry.requirementsIndex < requirements.length)
    (hleads : LeadsThrough (nextAt entries) (some index) (index :: rest))
    (hmem : ∀ i ∈ index :: rest, i < entries.length) {fuel : ℕ} (hfuel : rest.length < fuel) :
    activeFrom requirements entries wanted.firstTimeUsed wanted.lastTimeUsed fuel index =
      .ok ((index :: rest).find? (activeAt requirements entries wanted)) := by
  induction rest generalizing index fuel with
  | nil =>
      obtain ⟨fuel, rfl⟩ := Nat.exists_eq_succ_of_ne_zero (Nat.pos_iff_ne_zero.mp hfuel)
      have hlt := hmem index List.mem_cons_self
      have hnext : (entryAt entries index).nextEntryIndex = none := hleads.2
      rw [activeFrom, readAt_entry hlt, Except.bind,
        doesEntryOverlapInTime_eq (hindex _ (entryAt_mem hlt)), Except.bind]
      by_cases hactive : activeAt requirements entries wanted index = true
      · rw [List.find?_cons_of_pos hactive]
        exact if_pos hactive
      · rw [List.find?_cons_of_neg hactive, hnext]
        exact if_neg hactive
  | cons next rest ih =>
      obtain ⟨fuel, rfl⟩ := Nat.exists_eq_succ_of_ne_zero (Nat.ne_zero_of_lt hfuel)
      have hlt := hmem index List.mem_cons_self
      have hnext : (entryAt entries index).nextEntryIndex = some next := hleads.2.1
      rw [activeFrom, readAt_entry hlt, Except.bind,
        doesEntryOverlapInTime_eq (hindex _ (entryAt_mem hlt)), Except.bind]
      by_cases hactive : activeAt requirements entries wanted index = true
      · rw [List.find?_cons_of_pos hactive]
        exact if_pos hactive
      · rw [List.find?_cons_of_neg hactive, hnext]
        refine (if_neg hactive).trans (ih ⟨rfl, hleads.2.2⟩ ?_ (Nat.lt_of_succ_lt_succ hfuel))
        exact fun i hi => hmem i (List.mem_cons_of_mem _ hi)

/-- Where the search goes on behind an entry, or begins. -/
def followers (entries : List ListEntry) : Option ℕ → Option ℕ
  | none => some 0
  | some prior => nextAt entries prior

theorem nextSimultaneouslyActiveBuffer_eq {start : Option ℕ}
    (hindex : ∀ entry ∈ entries, entry.requirementsIndex < requirements.length)
    (hstart : ∀ prior ∈ start, prior < entries.length)
    (hleads : LeadsThrough (nextAt entries) (followers entries start) rest)
    (hmem : ∀ i ∈ rest, i < entries.length) (hlength : rest.length ≤ entries.length) :
    nextSimultaneouslyActiveBuffer requirements entries start wanted.firstTimeUsed
      wanted.lastTimeUsed = .ok (rest.find? (activeAt requirements entries wanted)) := by
  cases start with
  | none =>
      cases rest with
      | nil => cases hleads
      | cons first rest =>
          obtain ⟨hfirst, hrest⟩ := hleads
          obtain rfl : 0 = first := Option.some.inj hfirst
          exact activeFrom_eq hindex ⟨rfl, hrest⟩ hmem hlength
  | some prior =>
      rw [nextSimultaneouslyActiveBuffer, readAt_entry (hstart prior rfl), Except.bind]
      have hnext : (entryAt entries prior).nextEntryIndex = rest.head? := hleads.head?_eq.symm
      cases rest with
      | nil => rw [hnext]; rfl
      | cons first rest =>
          rw [hnext]
          exact activeFrom_eq hindex ⟨rfl, hleads.2⟩ hmem hlength

/-- The offset behind the prior entry. -/
def behindEntry (requirements : List BufferRequirements) (entries : List ListEntry) (offset : ℤ) :
    Option ℕ → ℤ
  | none => offset
  | some prior => max offset (blockOf requirements (entryAt entries prior)).stop

variable {offset bound : ℤ}

theorem behindPrior_eq {prior : Option ℕ}
    (hindex : ∀ entry ∈ entries, entry.requirementsIndex < requirements.length)
    (hnonneg : ∀ entry ∈ entries, 0 ≤ (blockOf requirements entry).stop)
    (hstop : ∀ entry ∈ entries, (blockOf requirements entry).stop < 2 ^ 31)
    (hprior : ∀ index ∈ prior, index < entries.length) :
    behindPrior requirements entries prior offset =
      .ok (behindEntry requirements entries offset prior) := by
  cases prior with
  | none => rfl
  | some index =>
      have hlt := hprior index rfl
      have hmem := entryAt_mem hlt
      have hint := asInt_inRange (le_trans (by decide) (hnonneg _ hmem)) (hstop _ hmem)
      rw [blockOf, Block.stop] at hint
      rw [behindPrior, readAt_entry hlt, Except.bind, readAt_requirements (hindex _ hmem),
        Except.bind, hint, Except.map, behindEntry, blockOf, Block.stop]
      congr 1
      split_ifs with hlarger
      · exact (max_eq_right hlarger.le).symm
      · exact (max_eq_left (not_lt.mp hlarger)).symm

theorem filter_of_find?_eq_some {p : ℕ → Bool} (hfind : rest.find? p = some index) :
    ∃ front back, rest = front ++ index :: back ∧ rest.filter p = index :: back.filter p := by
  obtain ⟨hactive, front, back, rfl, hfront⟩ := List.find?_eq_some_iff_append.mp hfind
  refine ⟨front, back, rfl, ?_⟩
  rw [List.filter_append, List.filter_cons_of_pos hactive,
    List.filter_eq_nil_iff.mpr fun i hi => by simpa using hfront i hi, List.nil_append]

/-- The search finds the first fit between the active entries that are left. -/
theorem findGap_eq (hindex : ∀ entry ∈ entries, entry.requirementsIndex < requirements.length)
    (hnonneg : ∀ entry ∈ entries, 0 ≤ entry.offset)
    (hsize : ∀ entry ∈ entries, 0 ≤ (requirementsOf requirements entry).size)
    (hstop : ∀ entry ∈ entries, (blockOf requirements entry).stop < 2 ^ 31)
    (fuel : ℕ) {prior : Option ℕ} (hprior : ∀ index ∈ prior, index < entries.length)
    (hleads : LeadsThrough (nextAt entries) (followers entries prior) rest)
    (hmem : ∀ i ∈ rest, i < entries.length) (hlength : rest.length ≤ entries.length)
    (hfuel : rest.length < fuel) (hoffset : 0 ≤ offset) (hlt : offset < 2 ^ 31) :
    findGap requirements entries wanted fuel prior offset =
      .ok (firstFit wanted.size (behindEntry requirements entries offset prior)
        ((rest.filter (activeAt requirements entries wanted)).map fun i =>
          blockOf requirements (entryAt entries i))) := by
  induction fuel generalizing rest prior offset with
  | zero => exact absurd hfuel (Nat.not_lt_zero _)
  | succ fuel ih =>
      have hstop_nonneg : ∀ entry ∈ entries, 0 ≤ (blockOf requirements entry).stop :=
        fun entry hentry => add_nonneg (hnonneg entry hentry) (hsize entry hentry)
      have hbehind : 0 ≤ behindEntry requirements entries offset prior ∧
          behindEntry requirements entries offset prior < 2 ^ 31 := by
        cases prior with
        | none => exact ⟨hoffset, hlt⟩
        | some index =>
            have hentry := entryAt_mem (hprior index rfl)
            exact ⟨hoffset.trans (le_max_left _ _), max_lt hlt (hstop _ hentry)⟩
      rw [findGap, nextSimultaneouslyActiveBuffer_eq hindex hprior hleads hmem hlength, Except.bind,
        behindPrior_eq hindex hstop_nonneg hstop hprior, Except.bind]
      rcases hfind : rest.find? (activeAt requirements entries wanted) with _ | index
      · have hnone : rest.filter (activeAt requirements entries wanted) = [] :=
          List.filter_eq_nil_iff.mpr (List.find?_eq_none.mp hfind)
        rw [hnone]
        rfl
      · obtain ⟨front, back, hsplit, hfilter⟩ := filter_of_find?_eq_some hfind
        have hlast := hmem index (hsplit ▸ List.mem_append_right front List.mem_cons_self)
        have hentry := entryAt_mem hlast
        have hends : (entryAt entries index).offset < 2 ^ 31 := by
          have hstop' := hstop _ hentry
          have hsize' := hsize _ hentry
          simp only [Block.stop, blockOf] at hstop'
          omega
        have hbegins := hnonneg _ hentry
        rw [hfilter, List.map_cons, firstFit]
        simp only
        rw [readAt_entry hlast, Except.bind, asInt_inRange (by omega) (by omega), Except.bind,
          show (blockOf requirements (entryAt entries index)).offset =
            (entryAt entries index).offset from rfl]
        by_cases hfits : wanted.size ≤
            (entryAt entries index).offset - behindEntry requirements entries offset prior
        · rw [if_pos hfits, if_pos hfits]
        · rw [if_neg hfits, if_neg hfits]
          have hback : back.length < rest.length := by
            rw [hsplit, List.length_append, List.length_cons]
            omega
          refine ih (fun i hi => Option.some.inj hi ▸ hlast) ?_ ?_ (hback.le.trans hlength)
            (by omega) hbehind.1 hbehind.2
          · rw [hsplit] at hleads
            exact hleads.behind
          · exact fun i hi => hmem i
              (hsplit ▸ List.mem_append_right front (List.mem_cons_of_mem index hi))

end Search

/-! ## The new entry is linked -/

section Links

variable {entries : List ListEntry} {index other : ℕ} {next : Option ℕ}

theorem entryAt_setNext (hindex : index < entries.length) :
    entryAt (setNext entries index next) other =
      if other = index then { entryAt entries index with nextEntryIndex := next }
      else entryAt entries other := by
  simp only [entryAt, setNext, List.getD_eq_getElem?_getD, List.getElem?_modify]
  by_cases heq : other = index
  · subst heq
    rw [if_pos rfl, List.getElem?_eq_getElem hindex]
    simp
  · simp [heq, Ne.symm heq]

theorem nextAt_setNext (hindex : index < entries.length) :
    nextAt (setNext entries index next) = Function.update (nextAt entries) index next := by
  funext other
  rw [nextAt, entryAt_setNext hindex, Function.update_apply, nextAt]
  split_ifs <;> rfl

/-- What the entries are but for their links. -/
def withoutLinks (entries : List ListEntry) : List ListEntry :=
  entries.map fun entry => { entry with nextEntryIndex := none }

theorem withoutLinks_setNext : withoutLinks
    (setNext entries index next) = withoutLinks entries := by
  refine List.ext_getElem? fun i => ?_
  simp only [withoutLinks, setNext, List.getElem?_map, List.getElem?_modify]
  by_cases heq : index = i
  · cases entries[i]? <;> simp [heq]
  · simp [heq]

theorem length_of_withoutLinks {entries' : List ListEntry}
    (hsame : withoutLinks entries' = withoutLinks entries) : entries'.length = entries.length := by
  simpa [withoutLinks] using congrArg List.length hsame

theorem entryAt_of_withoutLinks {entries' : List ListEntry}
    (hsame : withoutLinks entries' = withoutLinks entries) (index : ℕ) :
    (entryAt entries' index).offset = (entryAt entries index).offset := by
  have hentry := congrArg (fun list : List ListEntry => (list[index]?).map ListEntry.offset) hsame
  simp only [withoutLinks, List.getElem?_map, Option.map_map] at hentry
  rw [entryAt, entryAt, List.getD_eq_getElem?_getD, List.getD_eq_getElem?_getD,
    ← Option.getD_map ListEntry.offset, ← Option.getD_map ListEntry.offset]
  exact congrArg (Option.getD · 0) hentry

/-- Two links were changed: that of the new entry and that of the one before it. -/
theorem leadsThrough_behind {entries' : List ListEntry} {new current : ℕ} {rest : List ℕ}
    (hleads : LeadsThrough (nextAt entries) (some current) (current :: rest))
    (hcurrent : current ∉ rest) (hfresh : new ∉ current :: rest)
    (hnext : nextAt entries' = Function.update (Function.update (nextAt entries) new
      (nextAt entries current)) current (some new)) :
    LeadsThrough (nextAt entries') (some current) (current :: new :: rest) ∧
      ∀ i, i ≠ new → i ∉ [current] → nextAt entries' i = nextAt entries i := by
  rw [hnext]
  refine ⟨hleads.insert hcurrent hfresh, fun i hi hi' => ?_⟩
  rw [Function.update_of_ne (mt List.mem_singleton.mpr hi'), Function.update_of_ne hi]

/-- The new entry comes behind those whose offsets are not larger. -/
theorem insertEntry_spec {new current fuel : ℕ} {offset : ℤ} {rest : List ℕ}
    (hleads : LeadsThrough (nextAt entries) (some current) (current :: rest))
    (hnodup : (current :: rest).Nodup) (hmem : ∀ i ∈ current :: rest, i < entries.length)
    (hnew : new < entries.length) (hfresh : new ∉ current :: rest) (hfuel : rest.length < fuel) :
    ∃ entries' before after, insertEntry entries new offset fuel current = .ok entries' ∧
      rest = before ++ after ∧ (∀ i ∈ before, (entryAt entries i).offset ≤ offset) ∧
      (∀ i ∈ after.head?, offset < (entryAt entries i).offset) ∧
      LeadsThrough (nextAt entries') (some current) (current :: (before ++ new :: after)) ∧
      withoutLinks entries' = withoutLinks entries ∧
      ∀ i, i ≠ new → i ∉ current :: before → nextAt entries' i = nextAt entries i := by
  obtain ⟨fuel, rfl⟩ := Nat.exists_eq_succ_of_ne_zero (Nat.ne_zero_of_lt hfuel)
  induction rest generalizing current fuel with
  | nil =>
      have hlt := hmem current List.mem_cons_self
      have hne : current ≠ new := fun heq => hfresh (heq ▸ List.mem_cons_self)
      have hempty : (entryAt entries current).nextEntryIndex = none := hleads.2
      have hlength : (setNext entries current (some new)).length = entries.length := by
        rw [setNext, List.length_modify]
      have hnext : nextAt (setNext (setNext entries current (some new)) new none) =
          Function.update (Function.update (nextAt entries) new (nextAt entries current)) current
            (some new) := by
        rw [nextAt_setNext (hlength ▸ hnew), nextAt_setNext hlt, show nextAt entries current = none
          from hempty, Function.update_comm hne]
      obtain ⟨hleads', hframe⟩ := leadsThrough_behind hleads List.not_mem_nil hfresh hnext
      refine ⟨_, [], [], ?_, rfl, by simp, by simp, hleads', ?_, hframe⟩
      · rw [insertEntry, readAt_entry hlt, Except.bind, hempty]
      · rw [withoutLinks_setNext, withoutLinks_setNext]
  | cons next rest ih =>
      obtain ⟨hcurrent, hrest⟩ := List.nodup_cons.mp hnodup
      have hlt := hmem current List.mem_cons_self
      have hne : current ≠ new := fun heq => hfresh (heq ▸ List.mem_cons_self)
      have hnextLt := hmem next (List.mem_cons_of_mem _ List.mem_cons_self)
      have hsome : (entryAt entries current).nextEntryIndex = some next := hleads.2.1
      have hrun : insertEntry entries new offset (fuel + 1) current =
          if (entryAt entries next).offset > offset then
            .ok (setNext (setNext entries new (some next)) current (some new))
          else insertEntry entries new offset fuel next := by
        rw [insertEntry, readAt_entry hlt, Except.bind, hsome]
        simp only
        rw [readAt_entry hnextLt, Except.bind]
      by_cases hlarger : (entryAt entries next).offset > offset
      · have hlength : (setNext entries new (some next)).length = entries.length := by
          rw [setNext, List.length_modify]
        have hnext : nextAt (setNext (setNext entries new (some next)) current (some new)) =
            Function.update (Function.update (nextAt entries) new (nextAt entries current)) current
              (some new) := by
          rw [nextAt_setNext (hlength ▸ hlt), nextAt_setNext hnew,
            show nextAt entries current = some next from hsome]
        obtain ⟨hleads', hframe⟩ := leadsThrough_behind hleads hcurrent hfresh hnext
        refine ⟨_, [], next :: rest, hrun.trans (if_pos hlarger), rfl, by simp, ?_, hleads', ?_,
          hframe⟩
        · exact fun i hi => Option.some.inj hi ▸ hlarger
        · rw [withoutLinks_setNext, withoutLinks_setNext]
      · have hroom : rest.length < fuel := Nat.lt_of_succ_lt_succ hfuel
        obtain ⟨fuel, rfl⟩ := Nat.exists_eq_succ_of_ne_zero (Nat.ne_zero_of_lt hroom)
        obtain ⟨entries', before, after, hok, hsplit, hbefore, hafter, hleads', hsame, hframe⟩ :=
          ih ⟨rfl, hleads.2.2⟩ hrest (fun i hi => hmem i (List.mem_cons_of_mem _ hi))
            (List.not_mem_of_not_mem_cons hfresh) fuel hroom
        refine ⟨entries', next :: before, after, hrun.trans ((if_neg hlarger).trans hok),
          congrArg (next :: ·) hsplit, ?_, hafter, ⟨rfl, ?_⟩, hsame, fun i hi hi' => ?_⟩
        · exact List.forall_mem_cons.mpr ⟨not_lt.mp hlarger, hbefore⟩
        · have hkept : current ∉ next :: before := fun hmem' => by
            refine hcurrent ?_
            rw [hsplit]
            exact List.mem_append_left after hmem'
          rw [hframe current hne hkept, show nextAt entries current = some next from hsome]
          exact hleads'
        · exact hframe i hi (List.not_mem_of_not_mem_cons hi')

end Links

/-! ## One buffer is placed -/

section Places

variable {requirements : List BufferRequirements} {entries entries' : List ListEntry}
  {offsets : List ℤ} {order ids : List ℕ}

/-- Links do not matter. -/
theorem wellPlaced_withoutLinks :
    WellPlaced requirements (withoutLinks entries) offsets ↔
      WellPlaced requirements entries offsets := by
  have hall : ∀ P : ListEntry → Prop, (∀ entry ∈ withoutLinks entries, P entry) ↔
      ∀ entry ∈ entries, P { entry with nextEntryIndex := none } := fun P => List.forall_mem_map
  have hsum : ((withoutLinks entries).map fun entry => (requirementsOf requirements entry).size) =
      entries.map fun entry => (requirementsOf requirements entry).size := List.map_map
  constructor
  · rintro ⟨hindex, hoffset, hnonneg, hapart, hstop⟩
    exact ⟨(hall _).mp hindex, (hall _).mp hoffset, (hall _).mp hnonneg,
      List.pairwise_map.mp hapart, hsum ▸ (hall _).mp hstop⟩
  · rintro ⟨hindex, hoffset, hnonneg, hapart, hstop⟩
    exact ⟨(hall _).mpr hindex, (hall _).mpr hoffset, (hall _).mpr hnonneg,
      List.pairwise_map.mpr hapart, hsum.symm ▸ (hall _).mpr hstop⟩

theorem WellPlaced.congr (hplaced : WellPlaced requirements entries offsets)
    (hsame : withoutLinks entries' = withoutLinks entries) :
    WellPlaced requirements entries' offsets :=
  wellPlaced_withoutLinks.mp (hsame ▸ wellPlaced_withoutLinks.mpr hplaced)

/-- What is placed behind the others, apart from those that are needed at the same time. -/
theorem WellPlaced.concat {entry : ListEntry} (hplaced : WellPlaced requirements entries offsets)
    (hsizes : ∀ wanted ∈ requirements, 0 ≤ wanted.size)
    (hindex : entry.requirementsIndex < requirements.length)
    (hlength : offsets.length = requirements.length)
    (hfresh : entry.requirementsIndex ∉ entries.map ListEntry.requirementsIndex)
    (hoffset : 0 ≤ entry.offset)
    (hle : entry.offset ≤
      (entries.map fun entry => (requirementsOf requirements entry).size).sum)
    (hapart : ∀ other ∈ entries,
      NeededTogether (requirementsOf requirements other) (requirementsOf requirements entry) →
        (blockOf requirements other).Apart (blockOf requirements entry)) :
    WellPlaced requirements (entries ++ [entry])
      (offsets.set entry.requirementsIndex entry.offset) := by
  have hsize : 0 ≤ (requirementsOf requirements entry).size := by
    rw [requirementsOf, List.getD_eq_getElem?_getD, List.getElem?_eq_getElem hindex,
      Option.getD_some]
    exact hsizes _ (List.getElem_mem hindex)
  have hconcat : ∀ P : ListEntry → Prop, (∀ other ∈ entries, P other) → P entry →
      ∀ other ∈ entries ++ [entry], P other := by
    intro P hold hnew other hmem
    rcases List.mem_append.mp hmem with hmem | hmem
    · exact hold other hmem
    · rwa [List.mem_singleton.mp hmem]
  refine ⟨hconcat _ hplaced.index_lt hindex, hconcat _ (fun other hmem => ?_) ?_,
    hconcat _ hplaced.nonneg hoffset, ?_, ?_⟩
  · have hne : entry.requirementsIndex ≠ other.requirementsIndex := fun heq =>
      hfresh (heq ▸ List.mem_map_of_mem hmem)
    rw [List.getElem?_set_ne hne, hplaced.offset_eq other hmem]
  · rw [List.getElem?_set_self (hlength ▸ hindex)]
  · refine List.pairwise_append.mpr ⟨hplaced.apart, List.pairwise_singleton _ _, ?_⟩
    intro other hmem last hlast
    rw [List.mem_singleton.mp hlast]
    exact hapart other hmem
  · rw [List.map_append, List.sum_append, List.map_singleton, List.sum_singleton]
    refine hconcat _ (fun other hmem => (hplaced.stop_le other hmem).trans ?_) ?_
    · exact le_add_of_nonneg_right hsize
    · exact Int.add_le_add_right hle _

/-- The plan after the buffers in `ids` were placed, in this order. -/
structure Placement (requirements : List BufferRequirements) (plan : List ListEntry × List ℤ)
    (ids : List ℕ) : Prop where
  placed : WellPlaced requirements plan.1 plan.2
  ordered : ∃ order, OffsetOrder plan.1 order
  first_eq : (entryAt plan.1 0).offset = 0
  ids_eq : plan.1.map ListEntry.requirementsIndex = ids
  length_eq : plan.2.length = requirements.length

theorem OffsetOrder.mem_iff (horder : OffsetOrder entries order) {index : ℕ} :
    index ∈ order ↔ index < entries.length :=
  horder.perm.mem_iff.trans List.mem_range

theorem entryAt_concat {entry : ListEntry} {index : ℕ} (hindex : index < entries.length) :
    entryAt (entries ++ [entry]) index = entryAt entries index := by
  rw [entryAt, entryAt, List.getD_append _ _ _ _ hindex]

theorem entryAt_last {entry : ListEntry} : entryAt (entries ++ [entry]) entries.length = entry := by
  rw [entryAt, List.getD_append_right _ _ _ _ le_rfl, Nat.sub_self]
  rfl

theorem pairwise_between {α : Type} {R : α → α → Prop} {front back : List α} {a : α}
    (hpairwise : (front ++ back).Pairwise R) (hfront : ∀ b ∈ front, R b a)
    (hback : ∀ b ∈ back, R a b) : (front ++ a :: back).Pairwise R := by
  obtain ⟨hleft, hright, hboth⟩ := List.pairwise_append.mp hpairwise
  refine List.pairwise_append.mpr ⟨hleft, List.pairwise_cons.mpr ⟨hback, hright⟩, ?_⟩
  intro b hb c hc
  rcases List.mem_cons.mp hc with rfl | hc
  · exact hfront b hb
  · exact hboth b hb c hc

theorem insertEntry_order {entry : ListEntry} (horder : OffsetOrder entries order)
    (hfirst : (entryAt entries 0).offset = 0) (hoffset : 0 ≤ entry.offset) :
    ∃ entries' order', insertEntry (entries ++ [entry]) entries.length entry.offset
        (entries.length + 1) 0 = .ok entries' ∧
      OffsetOrder entries' order' ∧ withoutLinks entries' = withoutLinks (entries ++ [entry]) := by
  have hlt : ∀ i ∈ order, i < entries.length := fun i hi => horder.mem_iff.mp hi
  have hnodup : order.Nodup := horder.perm.nodup_iff.mpr List.nodup_range
  have hlength : order.length = entries.length := by
    rw [horder.perm.length_eq, List.length_range]
  have hlast : (entries ++ [entry]).length = entries.length + 1 := by
    rw [List.length_append, List.length_singleton]
  have hleads : LeadsThrough (nextAt (entries ++ [entry])) (some 0) order :=
    horder.leads.congr fun i hi => by rw [nextAt, entryAt_concat (hlt i hi), nextAt]
  have hsorted : order.Pairwise fun i j => (entryAt (entries ++ [entry]) i).offset ≤
      (entryAt (entries ++ [entry]) j).offset :=
    horder.sorted.imp_of_mem fun hi hj hle => by
      rwa [entryAt_concat (hlt _ hi), entryAt_concat (hlt _ hj)]
  have hfresh : entries.length ∉ order := fun hmem => (hlt _ hmem).false
  have hperm := horder.perm
  cases order with
  | nil => cases hleads
  | cons start rest =>
      obtain rfl : 0 = start := Option.some.inj hleads.1
      obtain ⟨entries', before, after, hok, rfl, hbefore, hafter, hleads', hsame, -⟩ :=
        @insertEntry_spec (entries ++ [entry]) entries.length 0 (entries.length + 1) entry.offset
          rest hleads hnodup (fun i hi => (hlt i hi).trans_le (by omega)) (by omega) hfresh
          (by rw [List.length_cons] at hlength; omega)
      have hentry : (entryAt (entries ++ [entry]) entries.length).offset = entry.offset := by
        rw [entryAt_last]
      have hstart : (entryAt (entries ++ [entry]) 0).offset = 0 := by
        rw [entryAt_concat (hlt 0 List.mem_cons_self), hfirst]
      refine ⟨entries', 0 :: (before ++ entries.length :: after), hok, ⟨hleads', ?_, ?_⟩, hsame⟩
      · rw [length_of_withoutLinks hsame, hlast, List.range_succ]
        have hfront : (0 :: (before ++ entries.length :: after)).Perm
            (entries.length :: 0 :: (before ++ after)) :=
          (List.perm_middle.cons 0).trans (List.Perm.swap _ _ _)
        exact hfront.trans ((hperm.cons _).trans (List.perm_append_singleton _ _).symm)
      · simp only [entryAt_of_withoutLinks hsame]
        refine @pairwise_between _ _ (0 :: before) after _ hsorted ?_ ?_
        · refine List.forall_mem_cons.mpr ⟨?_, fun i hi => ?_⟩
          · rw [hstart, hentry]
            exact hoffset
          · rw [hentry]
            exact hbefore i hi
        · rw [hentry]
          cases after with
          | nil => simp
          | cons first after =>
              have hlarger := (hafter first rfl).le
              have hlater := (List.pairwise_cons.mp
                (List.pairwise_append.mp (List.pairwise_cons.mp hsorted).2).2.1).1
              exact List.forall_mem_cons.mpr ⟨hlarger, fun i hi => hlarger.trans (hlater i hi)⟩

theorem placeBuffer_spec {plan : List ListEntry × List ℤ} {id : ℕ}
    (hplan : Placement requirements plan ids)
    (hsizes : ∀ wanted ∈ requirements, 0 ≤ wanted.size)
    (htotal : (plan.1.map fun entry => (requirementsOf requirements entry).size).sum < 2 ^ 31)
    (hid : id < requirements.length) (hfresh : id ∉ ids) :
    ∃ next, placeBuffer requirements id plan = .ok next ∧
      Placement requirements next (ids ++ [id]) := by
  obtain ⟨entries, offsets⟩ := plan
  obtain ⟨hplaced, ⟨order, horder⟩, hfirst, hids, hlength⟩ := hplan
  simp only at hplaced horder hfirst hids hlength htotal
  have hread : readAt requirements id = .ok requirements[id] :=
    readAt_eq (List.getElem?_eq_getElem hid)
  have hlt : ∀ i ∈ order, i < entries.length := fun i hi => horder.mem_iff.mp hi
  have hnonneg : ∀ entry ∈ entries, 0 ≤ (requirementsOf requirements entry).size := by
    intro entry hentry
    have hindex := hplaced.index_lt entry hentry
    rw [requirementsOf, List.getD_eq_getElem?_getD, List.getElem?_eq_getElem hindex,
      Option.getD_some]
    exact hsizes _ (List.getElem_mem hindex)
  have horderLength : order.length = entries.length := by
    rw [horder.perm.length_eq, List.length_range]
  have hgap := @findGap_eq requirements entries order requirements[id] 0 hplaced.index_lt
    hplaced.nonneg hnonneg (fun entry hentry => (hplaced.stop_le entry hentry).trans_lt htotal)
    (entries.length + 1) none (by simp) horder.leads hlt horderLength.le (by omega) le_rfl
    (by decide)
  rw [behindEntry] at hgap
  have hblocks : ((order.filter (activeAt requirements entries requirements[id])).map fun i =>
      blockOf requirements (entryAt entries i)).Pairwise fun first second =>
        first.offset ≤ second.offset :=
    List.pairwise_map.mpr (horder.sorted.sublist (List.filter_sublist ..))
  have hapart := @firstFit_apart ℤ _ _ _ requirements[id].size 0 _ hblocks
  have hstop : ∀ block ∈ (order.filter (activeAt requirements entries requirements[id])).map
      (fun i => blockOf requirements (entryAt entries i)), block.stop ≤
        (entries.map fun entry => (requirementsOf requirements entry).size).sum := by
    intro block hblock
    obtain ⟨i, hi, rfl⟩ := List.mem_map.mp hblock
    exact hplaced.stop_le _ (entryAt_mem (hlt i (List.mem_of_mem_filter hi)))
  have hsum : 0 ≤ (entries.map fun entry => (requirementsOf requirements entry).size).sum :=
    List.sum_nonneg (List.forall_mem_map.mpr hnonneg)
  have hle := @firstFit_le ℤ _ _ _ requirements[id].size 0 _ _ hsum hstop
  have hge := @le_firstFit ℤ _ _ _ requirements[id].size 0
    ((order.filter (activeAt requirements entries requirements[id])).map fun i =>
      blockOf requirements (entryAt entries i))
  generalize firstFit requirements[id].size 0 _ = gap at hgap hapart hle hge
  obtain ⟨entries', order', hinsert, horder', hsame⟩ :=
    @insertEntry_order entries order ⟨gap, id, none⟩ horder hfirst hge
  have hwanted : requirementsOf requirements ⟨gap, id, none⟩ = requirements[id] := by
    rw [requirementsOf, List.getD_eq_getElem?_getD, List.getElem?_eq_getElem hid, Option.getD_some]
  have hconcat := @WellPlaced.concat requirements entries offsets ⟨gap, id, none⟩ hplaced hsizes hid
    hlength (hids ▸ hfresh) hge hle (fun other hother htogether => by
      obtain ⟨i, hi, rfl⟩ := List.getElem_of_mem hother
      have hentry : entryAt entries i = entries[i] := List.getD_eq_getElem _ _ hi
      have hactive : activeAt requirements entries requirements[id] i = true := by
        rw [activeAt, hentry, decide_eq_true_iff, ← hwanted]
        exact htogether
      have hblock := hapart _ (List.mem_map.mpr
        ⟨i, List.mem_filter.mpr ⟨horder.mem_iff.mpr hi, hactive⟩, rfl⟩)
      rw [hentry] at hblock
      have hnew : blockOf requirements ⟨gap, id, none⟩ = ⟨gap, requirements[id].size⟩ := by
        rw [blockOf, hwanted]
      rw [hnew]
      exact hblock.symm)
  refine ⟨(entries', offsets.set id gap), ?_, hconcat.congr hsame, ⟨order', horder'⟩, ?_, ?_, ?_⟩
  · rw [placeBuffer, hread, Except.bind, hgap, Except.bind, hinsert]
    rfl
  · have hpositive : 0 < entries.length := hlt 0 (List.mem_of_mem_head? horder.leads.head?_eq)
    rw [entryAt_of_withoutLinks hsame, entryAt_concat hpositive, hfirst]
  · have hmap := congrArg (List.map ListEntry.requirementsIndex) hsame
    simp only [withoutLinks, List.map_map] at hmap
    exact hmap.trans (by simp [hids, Function.comp_def])
  · rw [List.length_set, hlength]

/-- The sizes of buffers that are given by their ids. -/
def bufferSizes (requirements : List BufferRequirements) (ids : List ℕ) : List ℤ :=
  ids.map fun id => (requirements.getD id ⟨0, 0, 0⟩).size

theorem bufferSizes_nonneg (hsizes : ∀ wanted ∈ requirements, 0 ≤ wanted.size)
    (hids : ∀ id ∈ ids, id < requirements.length) :
    ∀ size ∈ bufferSizes requirements ids, 0 ≤ size := by
  refine List.forall_mem_map.mpr fun id hid => ?_
  rw [List.getD_eq_getElem _ _ (hids id hid)]
  exact hsizes _ (List.getElem_mem (hids id hid))

theorem bufferSizes_range : bufferSizes requirements (List.range requirements.length) =
    requirements.map BufferRequirements.size := by
  refine List.ext_getElem (by simp [bufferSizes]) fun i hi hi' => ?_
  simp only [bufferSizes, List.getElem_map, List.getElem_range]
  rw [List.getD_eq_getElem]

theorem placeBuffers_spec {plan : List ListEntry × List ℤ} {rest : List ℕ}
    (hplan : Placement requirements plan ids)
    (hsizes : ∀ wanted ∈ requirements, 0 ≤ wanted.size)
    (hids : ∀ id ∈ ids ++ rest, id < requirements.length) (hnodup : (ids ++ rest).Nodup)
    (htotal : (bufferSizes requirements (ids ++ rest)).sum < 2 ^ 31) :
    ∃ next, placeBuffers requirements rest plan = .ok next ∧
      Placement requirements next (ids ++ rest) := by
  induction rest generalizing plan ids with
  | nil => exact ⟨plan, rfl, (List.append_nil ids).symm ▸ hplan⟩
  | cons id rest ih =>
      have hassoc : ids ++ id :: rest = (ids ++ [id]) ++ rest := by simp
      have hfront : (plan.1.map fun entry => (requirementsOf requirements entry).size) =
          bufferSizes requirements ids := by
        rw [bufferSizes, ← hplan.ids_eq, List.map_map]
        rfl
      have hless :
          (plan.1.map fun entry => (requirementsOf requirements entry).size).sum < 2 ^ 31 := by
        have hrest := List.sum_nonneg (bufferSizes_nonneg hsizes fun id' hid' =>
          hids id' (List.mem_append_right ids hid'))
        rw [bufferSizes, List.map_append, List.sum_append] at htotal
        rw [hfront]
        exact lt_of_le_of_lt (le_add_of_nonneg_right hrest) htotal
      have hfresh : id ∉ ids := fun hmem =>
        (List.nodup_append.mp hnodup).2.2 id hmem id List.mem_cons_self rfl
      obtain ⟨next, hok, hnext⟩ := placeBuffer_spec hplan hsizes hless
        (hids id (List.mem_append_right ids List.mem_cons_self)) hfresh
      rw [hassoc] at hids hnodup htotal ⊢
      obtain ⟨last, hlast, hplaced⟩ := ih hnext hids hnodup htotal
      exact ⟨last, by rw [placeBuffers, hok, Except.bind, hlast], hplaced⟩

end Places

/-! ## The plan -/

section Plans

variable {planner next : GreedyMemoryPlanner}

def requirementsAt (planner : GreedyMemoryPlanner) (id : ℕ) : BufferRequirements :=
  planner.requirements.getD id ⟨0, 0, 0⟩

/-- Where a buffer is in memory. -/
def plannedBlock (planner : GreedyMemoryPlanner) (id : ℕ) : Block ℤ :=
  ⟨planner.bufferOffsets.getD id (-1), (requirementsAt planner id).size⟩

/-- Buffers that are needed at the same time are apart, and the list has them all in the order of
their offsets. -/
structure Planned (planner : GreedyMemoryPlanner) : Prop where
  length_eq : planner.bufferOffsets.length = planner.requirements.length
  nonneg : ∀ id < planner.requirements.length, 0 ≤ (plannedBlock planner id).offset
  apart : ∀ id < planner.requirements.length, ∀ id' < planner.requirements.length, id ≠ id' →
    NeededTogether (requirementsAt planner id) (requirementsAt planner id') →
      (plannedBlock planner id).Apart (plannedBlock planner id')
  listed : planner.requirements ≠ [] → ∃ order, OffsetOrder planner.buffersSortedByOffset order ∧
    (order.map fun i => (entryAt planner.buffersSortedByOffset i).requirementsIndex).Perm
      (List.range planner.requirements.length) ∧
    ∀ i ∈ order, (entryAt planner.buffersSortedByOffset i).offset =
      (plannedBlock planner (entryAt planner.buffersSortedByOffset i).requirementsIndex).offset
  stop_lt : ∀ id < planner.requirements.length, (plannedBlock planner id).stop < 2 ^ 31

/-- Each index has its entry. -/
theorem exists_entry {requirements : List BufferRequirements} {plan : List ListEntry × List ℤ}
    {ids : List ℕ} (hplan : Placement requirements plan ids) {id : ℕ} (hid : id ∈ ids) :
    ∃ i, ∃ hi : i < plan.1.length, plan.1[i].requirementsIndex = id ∧
      plan.2.getD id (-1) = plan.1[i].offset := by
  rw [← hplan.ids_eq] at hid
  obtain ⟨entry, hentry, rfl⟩ := List.mem_map.mp hid
  obtain ⟨i, hi, rfl⟩ := List.getElem_of_mem hentry
  refine ⟨i, hi, rfl, ?_⟩
  rw [List.getD_eq_getElem?_getD, hplan.placed.offset_eq _ hentry, Option.getD_some]

theorem planned_of_placement {requirements : List BufferRequirements}
    {plan : List ListEntry × List ℤ} {ids : List ℕ} (hplan : Placement requirements plan ids)
    (hids : ids.Perm (List.range requirements.length))
    (htotal : (requirements.map BufferRequirements.size).sum < 2 ^ 31) (maxBufferCount : ℤ) :
    Planned ⟨maxBufferCount, requirements, plan.1, plan.2, false⟩ := by
  have hmem : ∀ {id}, id < requirements.length → id ∈ ids := fun hid =>
    hids.mem_iff.mpr (List.mem_range.mpr hid)
  have hsum : (plan.1.map fun entry => (requirementsOf requirements entry).size).sum =
      (requirements.map BufferRequirements.size).sum := by
    rw [← bufferSizes_range, bufferSizes, ← (hids.map _).sum_eq, ← hplan.ids_eq, List.map_map]
    rfl
  refine ⟨hplan.length_eq, fun id hid => ?_, fun id hid id' hid' hne htogether => ?_, fun _ => ?_,
    fun id hid => ?_⟩
  · obtain ⟨i, hi, -, hoffset⟩ := exists_entry hplan (hmem hid)
    rw [plannedBlock, hoffset]
    exact hplan.placed.nonneg _ (List.getElem_mem hi)
  · obtain ⟨i, hi, rfl, hoffset⟩ := exists_entry hplan (hmem hid)
    obtain ⟨j, hj, rfl, hoffset'⟩ := exists_entry hplan (hmem hid')
    have hentries := List.pairwise_iff_getElem.mp hplan.placed.apart
    have hblock : plannedBlock ⟨maxBufferCount, requirements, plan.1, plan.2, false⟩
        plan.1[i].requirementsIndex = blockOf requirements plan.1[i] := by
      rw [plannedBlock, hoffset]
      rfl
    have hblock' : plannedBlock ⟨maxBufferCount, requirements, plan.1, plan.2, false⟩
        plan.1[j].requirementsIndex = blockOf requirements plan.1[j] := by
      rw [plannedBlock, hoffset']
      rfl
    rw [hblock, hblock']
    rcases Nat.lt_trichotomy i j with hlt | rfl | hlt
    · exact hentries i j hi hj hlt htogether
    · exact absurd rfl hne
    · exact (hentries j i hj hi hlt htogether.symm).symm
  · obtain ⟨order, horder⟩ := hplan.ordered
    refine ⟨order, horder, ?_, fun i hi => ?_⟩
    · have hall : (List.range plan.1.length).map (fun i => (entryAt plan.1 i).requirementsIndex) =
          ids := by
        rw [← hplan.ids_eq]
        refine List.ext_getElem (by simp) fun i hi hi' => ?_
        simp only [List.getElem_map, List.getElem_range, entryAt]
        rw [List.getD_eq_getElem]
      exact (horder.perm.map _).trans (hall ▸ hids)
    · have hlt := horder.mem_iff.mp hi
      have hentry := hplan.placed.offset_eq _ (entryAt_mem hlt)
      simp only [plannedBlock]
      rw [List.getD_eq_getElem?_getD, hentry, Option.getD_some]
  · obtain ⟨i, hi, rfl, hoffset⟩ := exists_entry hplan (hmem hid)
    have hstop := hplan.placed.stop_le _ (List.getElem_mem hi)
    rw [hsum] at hstop
    rw [plannedBlock, hoffset]
    exact hstop.trans_lt htotal

/-- One buffer at the start of the memory. -/
theorem placement_first {requirements : List BufferRequirements} {id : ℕ}
    (hsizes : ∀ wanted ∈ requirements, 0 ≤ wanted.size) (hid : id < requirements.length) :
    Placement requirements
      ([⟨0, id, none⟩], (List.replicate requirements.length (-1)).set id 0) [id] := by
  have hempty : WellPlaced requirements [] (List.replicate requirements.length (-1)) :=
    ⟨by simp, by simp, by simp, .nil, by simp⟩
  have hplaced := @WellPlaced.concat requirements [] _ ⟨0, id, none⟩ hempty hsizes hid
    List.length_replicate List.not_mem_nil le_rfl le_rfl (by simp)
  refine ⟨hplaced, ⟨[0], ⟨rfl, rfl⟩, .refl _, List.pairwise_singleton _ _⟩, rfl, rfl, ?_⟩
  rw [List.length_set, List.length_replicate]

/-- The calculation ends with a plan for the same buffers. -/
theorem calculateOffsetsIfNeeded_spec
    (hsizes : ∀ wanted ∈ planner.requirements, 0 ≤ wanted.size)
    (htotal : (planner.requirements.map BufferRequirements.size).sum < 2 ^ 31)
    (hplanned : planner.needToCalculateOffsets = false ∨ planner.requirements = [] →
      Planned planner) :
    ∃ next, calculateOffsetsIfNeeded planner = .ok next ∧
      next.requirements = planner.requirements ∧ next.maxBufferCount = planner.maxBufferCount ∧
      (next.needToCalculateOffsets = false ∨ next.requirements = []) ∧ Planned next := by
  rw [calculateOffsetsIfNeeded]
  by_cases hdone : planner.needToCalculateOffsets = false ∨ planner.requirements.length = 0
  · rw [if_pos hdone]
    have hdone' := hdone.imp_right List.length_eq_zero_iff.mp
    exact ⟨planner, rfl, rfl, rfl, hdone', hplanned hdone'⟩
  · rw [if_neg hdone]
    have hperm :=
        exchangeSort_perm Prod.fst (planner.requirements.map BufferRequirements.size).zipIdx
    have hids := hperm.map Prod.snd
    rw [List.zipIdx_map_snd, List.length_map, ← List.range_eq_range'] at hids
    rw [reverseSortInPlace]
    cases hsorted : exchangeSort Prod.fst (planner.requirements.map BufferRequirements.size).zipIdx
        with
    | nil =>
        rw [hsorted] at hids
        have hlength := hids.length_eq
        rw [List.length_range, List.map_nil, List.length_nil] at hlength
        exact absurd (Or.inr hlength.symm) hdone
    | cons largest others =>
        rw [hsorted, List.map_cons] at hids
        have hlt : ∀ id ∈ largest.2 :: others.map Prod.snd, id < planner.requirements.length :=
          fun id hid => List.mem_range.mp (hids.mem_iff.mp hid)
        obtain ⟨plan, hok, hplan⟩ := placeBuffers_spec
          (placement_first hsizes (hlt _ List.mem_cons_self)) hsizes hlt
          (hids.nodup_iff.mpr List.nodup_range) (by
            rw [List.singleton_append, bufferSizes, (hids.map _).sum_eq, ← bufferSizes,
              bufferSizes_range]
            exact htotal)
        refine ⟨{ planner with
          buffersSortedByOffset := plan.1
          bufferOffsets := plan.2
          needToCalculateOffsets := false }, ?_, rfl, rfl, .inl rfl, ?_⟩
        · simp only [hok]
          rfl
        · exact planned_of_placement hplan hids htotal planner.maxBufferCount

/-- The end of one entry is taken into account. -/
theorem maximumFrom_step {requirements : List BufferRequirements} {entries : List ListEntry}
    {index fuel : ℕ} {maxSize : ℤ} (hlt : index < entries.length)
    (hindex : (entryAt entries index).requirementsIndex < requirements.length)
    (hnonneg : 0 ≤ (blockOf requirements (entryAt entries index)).stop)
    (hstop : (blockOf requirements (entryAt entries index)).stop < 2 ^ 31) :
    maximumFrom requirements entries (fuel + 1) index maxSize =
      match (entryAt entries index).nextEntryIndex with
      | none => .ok (max maxSize (blockOf requirements (entryAt entries index)).stop)
      | some next => maximumFrom requirements entries fuel next
          (max maxSize (blockOf requirements (entryAt entries index)).stop) := by
  have hint := asInt_inRange (le_trans (by decide) hnonneg) hstop
  have hmax : ∀ size, (if size > maxSize then size else maxSize) = max maxSize size :=
      fun size => by
    rw [max_def]
    split_ifs <;> omega
  simp only [blockOf, Block.stop] at hint ⊢
  rw [maximumFrom, readAt_entry hlt, Except.bind, readAt_requirements hindex, Except.bind, hint,
    Except.bind]
  cases (entryAt entries index).nextEntryIndex with
  | none => exact congrArg Except.ok (hmax _)
  | some next => exact congrArg (maximumFrom requirements entries fuel next) (hmax _)

/-- The loop over the list finds the largest end. -/
theorem maximumFrom_spec {requirements : List BufferRequirements} {entries : List ListEntry}
    {rest : List ℕ} {index fuel : ℕ} {maxSize : ℤ}
    (hindex : ∀ entry ∈ entries, entry.requirementsIndex < requirements.length)
    (hstop : ∀ i ∈ index :: rest, 0 ≤ (blockOf requirements (entryAt entries i)).stop ∧
      (blockOf requirements (entryAt entries i)).stop < 2 ^ 31)
    (hleads : LeadsThrough (nextAt entries) (some index) (index :: rest))
    (hmem : ∀ i ∈ index :: rest, i < entries.length) (hfuel : rest.length < fuel) :
    ∃ maximum, maximumFrom requirements entries fuel index maxSize = .ok maximum ∧
      maxSize ≤ maximum ∧
      (∀ i ∈ index :: rest, (blockOf requirements (entryAt entries i)).stop ≤ maximum) ∧
      (maximum = maxSize ∨
        ∃ i ∈ index :: rest, (blockOf requirements (entryAt entries i)).stop = maximum) := by
  obtain ⟨fuel, rfl⟩ := Nat.exists_eq_succ_of_ne_zero (Nat.ne_zero_of_lt hfuel)
  have hhead := hmem index List.mem_cons_self
  obtain ⟨hnonneg, hlt⟩ := hstop index List.mem_cons_self
  have hrun := @maximumFrom_step requirements entries index fuel maxSize hhead
    (hindex _ (entryAt_mem hhead)) hnonneg hlt
  have hchoice := max_choice maxSize (blockOf requirements (entryAt entries index)).stop
  induction rest generalizing index fuel maxSize with
  | nil =>
      have hnext : (entryAt entries index).nextEntryIndex = none := hleads.2
      rw [hnext] at hrun
      refine ⟨_, hrun, le_max_left _ _, ?_, hchoice.imp_right fun heq => ?_⟩
      · exact List.forall_mem_singleton.mpr (le_max_right _ _)
      · exact ⟨index, List.mem_cons_self, heq.symm⟩
  | cons next rest ih =>
      have hnext : (entryAt entries index).nextEntryIndex = some next := hleads.2.1
      rw [hnext] at hrun
      have hroom : rest.length < fuel := Nat.lt_of_succ_lt_succ hfuel
      obtain ⟨fuel, rfl⟩ := Nat.exists_eq_succ_of_ne_zero (Nat.ne_zero_of_lt hroom)
      have hmem' : ∀ i ∈ next :: rest, i < entries.length :=
        fun i hi => hmem i (List.mem_cons_of_mem _ hi)
      have hstop' := fun i hi => hstop i (List.mem_cons_of_mem _ hi)
      have hhead' := hmem' next List.mem_cons_self
      obtain ⟨hnonneg', hlt'⟩ := hstop' next List.mem_cons_self
      obtain ⟨maximum, hok, hge, hall, hmaximum⟩ := ih hstop' ⟨rfl, hleads.2.2⟩ hmem' fuel hroom
        hhead' hnonneg' hlt'
        (maximumFrom_step hhead' (hindex _ (entryAt_mem hhead')) hnonneg' hlt') (max_choice _ _)
      refine ⟨maximum, hrun.trans hok, (le_max_left _ _).trans hge,
        List.forall_mem_cons.mpr ⟨(le_max_right _ _).trans hge, hall⟩, ?_⟩
      rcases hmaximum with rfl | ⟨i, hi, heq⟩
      · exact hchoice.imp_right fun heq => ⟨index, List.mem_cons_self, heq.symm⟩
      · exact .inr ⟨i, List.mem_cons_of_mem _ hi, heq⟩

/-- The end of the last buffer, or 0. -/
def IsMaximum (planner : GreedyMemoryPlanner) (maximum : ℤ) : Prop :=
  (∀ id < planner.requirements.length, (plannedBlock planner id).stop ≤ maximum) ∧
    (planner.requirements = [] → maximum = 0) ∧
    (planner.requirements ≠ [] →
      ∃ id < planner.requirements.length, (plannedBlock planner id).stop = maximum)

theorem getMaximumMemorySize_spec (hsizes : ∀ wanted ∈ planner.requirements, 0 ≤ wanted.size)
    (hcalculate : calculateOffsetsIfNeeded planner = .ok next)
    (hsame : next.requirements = planner.requirements) (hplanned : Planned next) :
    ∃ maximum, getMaximumMemorySize planner = .ok (maximum, next) ∧ IsMaximum next maximum := by
  rw [getMaximumMemorySize, hcalculate, Except.bind]
  by_cases hempty : next.requirements = []
  · rw [if_pos (by rw [hempty]; rfl)]
    refine ⟨0, rfl, fun id hid => ?_, fun _ => rfl, fun hne => absurd hempty hne⟩
    rw [hempty] at hid
    exact absurd hid (Nat.not_lt_zero _)
  · obtain ⟨order, horder, hids, hoffsets⟩ := hplanned.listed hempty
    have hid : ∀ i < next.buffersSortedByOffset.length,
        (entryAt next.buffersSortedByOffset i).requirementsIndex < next.requirements.length :=
      fun i hi => List.mem_range.mp (hids.mem_iff.mp
        (List.mem_map_of_mem (horder.mem_iff.mpr hi)))
    have hindex : ∀ entry ∈ next.buffersSortedByOffset,
        entry.requirementsIndex < next.requirements.length := by
      intro entry hentry
      obtain ⟨i, hi, rfl⟩ := List.getElem_of_mem hentry
      have hlt := hid i hi
      rwa [entryAt, List.getD_eq_getElem _ _ hi] at hlt
    have hblock : ∀ i ∈ order, blockOf next.requirements (entryAt next.buffersSortedByOffset i) =
        plannedBlock next (entryAt next.buffersSortedByOffset i).requirementsIndex := fun i hi => by
      rw [blockOf, hoffsets i hi]
      rfl
    have hstop : ∀ i ∈ order,
        0 ≤ (blockOf next.requirements (entryAt next.buffersSortedByOffset i)).stop ∧
          (blockOf next.requirements (entryAt next.buffersSortedByOffset i)).stop < 2 ^ 31 := by
      intro i hi
      have hlt := hid i (horder.mem_iff.mp hi)
      rw [hblock i hi]
      refine ⟨add_nonneg (hplanned.nonneg _ hlt) ?_, hplanned.stop_lt _ hlt⟩
      rw [plannedBlock, requirementsAt, List.getD_eq_getElem _ _ hlt]
      exact hsizes _ (hsame ▸ List.getElem_mem hlt)
    have hlength : order.length = next.buffersSortedByOffset.length := by
      rw [horder.perm.length_eq, List.length_range]
    obtain ⟨rest, rfl⟩ : ∃ rest, order = 0 :: rest := by
      cases order with
      | nil => cases horder.leads
      | cons first rest => exact ⟨rest, congrArg (· :: rest) (Option.some.inj horder.leads.1).symm⟩
    rw [List.length_cons] at hlength
    obtain ⟨maximum, hok, hge, hall, hmaximum⟩ := @maximumFrom_spec next.requirements
      next.buffersSortedByOffset rest 0 next.buffersSortedByOffset.length 0 hindex hstop
      horder.leads (fun i hi => horder.mem_iff.mp hi) (by omega)
    rw [if_neg (by simpa using hempty), hok]
    have hentry : ∀ id < next.requirements.length, ∃ i ∈ 0 :: rest,
        (entryAt next.buffersSortedByOffset i).requirementsIndex = id := fun id hid =>
      List.mem_map.mp (hids.mem_iff.mpr (List.mem_range.mpr hid))
    refine ⟨maximum, rfl, fun id hid => ?_, fun heq => absurd heq hempty, fun _ => ?_⟩
    · obtain ⟨i, hi, rfl⟩ := hentry id hid
      rw [← hblock i hi]
      exact hall i hi
    · rcases hmaximum with rfl | ⟨i, hi, heq⟩
      · have hzero := hstop 0 List.mem_cons_self
        refine ⟨_, hid 0 (horder.mem_iff.mp List.mem_cons_self), ?_⟩
        rw [← hblock 0 List.mem_cons_self]
        exact le_antisymm (hall 0 List.mem_cons_self) hzero.1
      · refine ⟨_, hid i (horder.mem_iff.mp hi), ?_⟩
        rw [← hblock i hi, heq]

/-! ## Runs -/

def PlannerCall.added : PlannerCall → Option BufferRequirements
  | .addBuffer size firstTimeUsed lastTimeUsed => some ⟨size, firstTimeUsed, lastTimeUsed⟩
  | .calculateOffsetsIfNeeded => none
  | .getMaximumMemorySize => none

/-- The state after these buffers were given to the planner, which keeps as many as it has room
for. -/
structure PlannerInv (scratchBufferSize : ℤ) (given : List BufferRequirements)
    (planner : GreedyMemoryPlanner) : Prop where
  max_eq : planner.maxBufferCount = scratchBufferSize.tdiv perBufferSize
  requirements_eq : planner.requirements =
    given.take (scratchBufferSize.tdiv perBufferSize).toNat
  planned : planner.needToCalculateOffsets = false ∨ planner.requirements = [] → Planned planner

variable {scratchBufferSize : ℤ} {given : List BufferRequirements}

theorem plannerInv_new : PlannerInv scratchBufferSize [] (.new scratchBufferSize) := by
  refine ⟨rfl, List.take_nil.symm, fun _ => ⟨rfl, ?_, ?_, ?_, ?_⟩⟩
  · exact fun id hid => absurd hid (Nat.not_lt_zero _)
  · exact fun id hid => absurd hid (Nat.not_lt_zero _)
  · exact fun hne => absurd rfl hne
  · exact fun id hid => absurd hid (Nat.not_lt_zero _)

/-- A buffer is kept, or refused where there is no room for it. -/
theorem PlannerInv.addBuffer (hinv : PlannerInv scratchBufferSize given planner)
    (buffer : BufferRequirements) :
    PlannerInv scratchBufferSize (given ++ [buffer])
      (Arena.addBuffer buffer.size buffer.firstTimeUsed buffer.lastTimeUsed planner).2 := by
  have hlength := congrArg List.length hinv.requirements_eq
  rw [List.length_take] at hlength
  have hmax := hinv.max_eq
  rw [Arena.addBuffer]
  split_ifs with hfull
  · have hsame : (given ++ [buffer]).take (scratchBufferSize.tdiv perBufferSize).toNat =
        given.take (scratchBufferSize.tdiv perBufferSize).toNat :=
      List.take_append_of_le_length (by omega)
    exact ⟨hmax, hinv.requirements_eq.trans hsame.symm, hinv.planned⟩
  · have hroom : given.length < (scratchBufferSize.tdiv perBufferSize).toNat := by omega
    refine ⟨hmax, ?_, fun hnone => ?_⟩
    · simp only
      rw [hinv.requirements_eq, List.take_of_length_le hroom.le, List.take_of_length_le]
      rw [List.length_append, List.length_singleton]
      exact hroom
    · rcases hnone with hfalse | hempty
      · cases hfalse
      · exact absurd hempty (List.append_ne_nil_of_right_ne_nil _ (List.cons_ne_nil _ _))

/-- What is kept is not more than what was given. -/
theorem PlannerInv.sizes (hinv : PlannerInv scratchBufferSize given planner)
    (hsizes : ∀ buffer ∈ given, 0 ≤ buffer.size)
    (htotal : (given.map BufferRequirements.size).sum < 2 ^ 31) :
    (∀ wanted ∈ planner.requirements, 0 ≤ wanted.size) ∧
      (planner.requirements.map BufferRequirements.size).sum < 2 ^ 31 := by
  rw [hinv.requirements_eq]
  refine ⟨fun wanted hwanted => hsizes wanted (List.mem_of_mem_take hwanted), ?_⟩
  have hrest : 0 ≤ ((given.drop (scratchBufferSize.tdiv perBufferSize).toNat).map
      BufferRequirements.size).sum :=
    List.sum_nonneg (List.forall_mem_map.mpr fun buffer hbuffer =>
      hsizes buffer (List.mem_of_mem_drop hbuffer))
  rw [← List.take_append_drop (scratchBufferSize.tdiv perBufferSize).toNat given, List.map_append,
    List.sum_append] at htotal
  omega

theorem PlannerInv.calculated (hinv : PlannerInv scratchBufferSize given planner)
    (hsizes : ∀ buffer ∈ given, 0 ≤ buffer.size)
    (htotal : (given.map BufferRequirements.size).sum < 2 ^ 31) :
    ∃ next maximum, calculateOffsetsIfNeeded planner = .ok next ∧
      getMaximumMemorySize planner = .ok (maximum, next) ∧ Planned next ∧
      IsMaximum next maximum ∧ PlannerInv scratchBufferSize given next := by
  obtain ⟨hnonneg, hless⟩ := hinv.sizes hsizes htotal
  obtain ⟨next, hok, hsame, hmax, -, hplanned⟩ :=
    calculateOffsetsIfNeeded_spec hnonneg hless hinv.planned
  obtain ⟨maximum, hmaximum, his⟩ := getMaximumMemorySize_spec hnonneg hok hsame hplanned
  exact ⟨next, maximum, hok, hmaximum, hplanned, his, hmax.trans hinv.max_eq,
    hsame.trans hinv.requirements_eq, fun _ => hplanned⟩

theorem plannerCalls_spec (calls : List PlannerCall)
    (hinv : PlannerInv scratchBufferSize given planner)
    (hsizes : ∀ buffer ∈ given ++ calls.filterMap PlannerCall.added, 0 ≤ buffer.size)
    (htotal : ((given ++ calls.filterMap PlannerCall.added).map BufferRequirements.size).sum <
      2 ^ 31) :
    ∃ next, plannerCalls calls planner = .ok next ∧
      PlannerInv scratchBufferSize (given ++ calls.filterMap PlannerCall.added) next := by
  induction calls generalizing given planner with
  | nil =>
      rw [List.filterMap_nil, List.append_nil]
      exact ⟨planner, rfl, hinv⟩
  | cons call calls ih =>
      have hgiven : (∀ buffer ∈ given, 0 ≤ buffer.size) ∧
          (given.map BufferRequirements.size).sum < 2 ^ 31 := by
        refine ⟨fun buffer hbuffer => hsizes buffer (List.mem_append_left _ hbuffer), ?_⟩
        have hrest : 0 ≤ (((call :: calls).filterMap PlannerCall.added).map
            BufferRequirements.size).sum :=
          List.sum_nonneg (List.forall_mem_map.mpr fun buffer hbuffer =>
            hsizes buffer (List.mem_append_right _ hbuffer))
        rw [List.map_append, List.sum_append] at htotal
        omega
      obtain ⟨next, maximum, hcalculate, hmaximum, -, -, hnext⟩ :=
        hinv.calculated hgiven.1 hgiven.2
      cases call with
      | addBuffer size firstTimeUsed lastTimeUsed =>
          have hadded := hinv.addBuffer ⟨size, firstTimeUsed, lastTimeUsed⟩
          have hcall : PlannerCall.added (.addBuffer size firstTimeUsed lastTimeUsed) =
              some ⟨size, firstTimeUsed, lastTimeUsed⟩ := rfl
          rw [List.filterMap_cons_some hcall, List.append_cons] at hsizes htotal ⊢
          exact ih hadded hsizes htotal
      | calculateOffsetsIfNeeded =>
          rw [List.filterMap_cons_none rfl] at hsizes htotal ⊢
          obtain ⟨last, hok, hlast⟩ := ih hnext hsizes htotal
          exact ⟨last, by rw [plannerCalls, plannerCall, hcalculate, Except.bind, hok], hlast⟩
      | getMaximumMemorySize =>
          rw [List.filterMap_cons_none rfl] at hsizes htotal ⊢
          obtain ⟨last, hok, hlast⟩ := ih hnext hsizes htotal
          refine ⟨last, ?_, hlast⟩
          rw [plannerCalls, plannerCall, hmaximum, Except.map, Except.bind, hok]

/-- **Greedy plans.** Whatever was added and calculated before, a calculation ends with a plan of
all buffers that were accepted, and its size is the end of the last one. -/
theorem greedy_plans_do_not_overlap (calls : List PlannerCall)
    (hsizes : ∀ buffer ∈ calls.filterMap PlannerCall.added, 0 ≤ buffer.size)
    (htotal : ((calls.filterMap PlannerCall.added).map BufferRequirements.size).sum < 2 ^ 31) :
    ∃ planner next maximum, plannerCalls calls (.new scratchBufferSize) = .ok planner ∧
      planner.requirements = (calls.filterMap PlannerCall.added).take
        (scratchBufferSize.tdiv perBufferSize).toNat ∧
      calculateOffsetsIfNeeded planner = .ok next ∧ next.requirements = planner.requirements ∧
      Planned next ∧ getMaximumMemorySize planner = .ok (maximum, next) ∧
      IsMaximum next maximum := by
  obtain ⟨planner, hok, hinv⟩ := plannerCalls_spec calls (@plannerInv_new scratchBufferSize)
    hsizes htotal
  obtain ⟨next, maximum, hcalculate, hmaximum, hplanned, his, hnext⟩ :=
    hinv.calculated hsizes htotal
  exact ⟨planner, next, maximum, hok, hinv.requirements_eq, hcalculate,
    hnext.requirements_eq.trans hinv.requirements_eq.symm, hplanned, hmaximum, his⟩

/-- Three buffers, the last one added after a calculation. -/
theorem greedy_plans_do_not_overlap_three :
    ∃ next maximum, ((plannerCalls [.addBuffer 100 0 1, .addBuffer 50 2 3,
        .calculateOffsetsIfNeeded, .addBuffer 20 1 2] (.new 108)).bind getMaximumMemorySize) =
          .ok (maximum, next) ∧ next.requirements.length = 3 ∧ Planned next := by
  obtain ⟨planner, next, maximum, hok, hrequirements, -, hsame, hplanned, hmaximum, -⟩ :=
    @greedy_plans_do_not_overlap 108 [.addBuffer 100 0 1, .addBuffer 50 2 3,
      .calculateOffsetsIfNeeded, .addBuffer 20 1 2] (by decide) (by decide)
  refine ⟨next, maximum, by rw [hok, Except.bind, hmaximum], ?_, hplanned⟩
  rw [hsame, hrequirements]
  rfl

end Plans

end ContainerScheduler.Analysis
