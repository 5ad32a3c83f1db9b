/-
# Linked queues that refine lists

A table of queues whose cells lie in one heap: each cell has a value and a pointer to
the next cell, and each queue has a pointer to its first and to its last cell. Cells are
appended at the end, taken off the front, and unlinked in the middle by a search that
keeps the cell before. A queue whose last cell is taken away is erased from the table.

The queues refine a family of lists: what is reached from the first cell of a queue is
its list, the last cell is the last one reached, and no cell is in two queues. Each
operation on the pointers is then an operation on lists.
-/

import Mathlib.Data.List.Nodup
import Mathlib.Data.List.Infix
import Mathlib.Data.List.Perm.Subperm

namespace ContainerScheduler.Math

universe u v w

/-- The pointers to the first and the last cell of a queue. -/
structure Ends where
  head : Option ℕ
  tail : Option ℕ
  deriving DecidableEq, Repr

/-- A heap of cells, numbered as they were allocated, and a table of queues. -/
structure LinkedQueues (ι : Type u) (α : Type v) where
  next : ℕ → Option ℕ
  value : ℕ → Option α
  fresh : ℕ
  ends : ι → Option Ends

namespace LinkedQueues

variable {ι : Type u} {α : Type v}

/-! ## Operations -/

def empty : LinkedQueues ι α := ⟨fun _ => none, fun _ => none, 0, fun _ => none⟩

variable (queues : LinkedQueues ι α)

/-- The entry of a queue, which is empty when the table has none. -/
def entry (name : ι) : Ends := (queues.ends name).getD ⟨none, none⟩

/-- The value in the first cell. -/
def front (name : ι) : Option α := (queues.entry name).head.bind queues.value

section Decidable

variable [DecidableEq ι]

/-- Look a queue up, which puts an empty entry into the table. -/
def touch (name : ι) : LinkedQueues ι α :=
  { queues with ends := Function.update queues.ends name (some (queues.entry name)) }

def setEnds (name : ι) (ends : Option Ends) : LinkedQueues ι α :=
  { queues with ends := Function.update queues.ends name ends }

def setNext (cell : ℕ) (next : Option ℕ) : LinkedQueues ι α :=
  { queues with next := Function.update queues.next cell next }

/-- Allocate a cell and append it. -/
def pushBack (name : ι) (value : α) : LinkedQueues ι α :=
  let cell := queues.fresh
  let allocated := { queues with
    next := Function.update queues.next cell none
    value := Function.update queues.value cell (some value)
    fresh := cell + 1 }
  let entry := queues.entry name
  match entry.head, entry.tail with
  | none, _ => allocated.setEnds name (some ⟨some cell, some cell⟩)
  | some _, none => allocated
  | some head, some tail =>
      (allocated.setNext tail (some cell)).setEnds name (some ⟨some head, some cell⟩)

/-- Take the first cell off, if there is one. -/
def popFront (name : ι) : LinkedQueues ι α :=
  let entry := queues.entry name
  match entry.head with
  | none => queues
  | some cell =>
      match queues.next cell with
      | none => queues.setEnds name none
      | some head => queues.setEnds name (some ⟨some head, entry.tail⟩)

/-- The first cell whose value meets a condition, and the cell before it, from a
current cell on. A search takes at most as many rounds as there are cells. -/
def search (p : α → Bool) : ℕ → Option ℕ → Option ℕ → Option (Option ℕ × ℕ)
  | 0, _, _ => none
  | _ + 1, _, none => none
  | rounds + 1, before, some cell =>
      if (queues.value cell).any p then some (before, cell)
      else search p rounds (some cell) (queues.next cell)

/-- Unlink a cell, given the cell before it. -/
def unlink (name : ι) (before : Option ℕ) (cell : ℕ) : LinkedQueues ι α :=
  let entry := queues.entry name
  if (entry.head.bind queues.next) = none then queues.setEnds name none
  else
    let tail := if entry.tail = some cell then before else entry.tail
    if entry.head = some cell then
      queues.setEnds name (some ⟨queues.next cell, tail⟩)
    else match before with
      | none => queues.setEnds name (some ⟨entry.head, tail⟩)
      | some before =>
          (queues.setNext before (queues.next cell)).setEnds name (some ⟨entry.head, tail⟩)

/-- Find the first cell whose value meets a condition and unlink it. -/
def removeFirst (name : ι) (p : α → Bool) : Option α × LinkedQueues ι α :=
  match queues.search p queues.fresh none (queues.entry name).head with
  | none => (none, queues.touch name)
  | some (before, cell) => (queues.value cell, (queues.touch name).unlink name before cell)

end Decidable

/-! ## Segments -/

/-- From a start, the pointers lead through the listed cells to a stop. -/
def Segment (next : ℕ → Option ℕ) : Option ℕ → List ℕ → Option ℕ → Prop
  | start, [], stop => start = stop
  | start, cell :: cells, stop => start = some cell ∧ Segment next (next cell) cells stop

section Segment

variable {next next' : ℕ → Option ℕ} {start stop : Option ℕ} {cells : List ℕ}

theorem segment_append (front back : List ℕ) : Segment next start (front ++ back) stop ↔
    ∃ middle, Segment next start front middle ∧ Segment next middle back stop := by
  induction front generalizing start with
  | nil => simp [Segment]
  | cons cell front ih => simp [Segment, ih, and_assoc]

/-- A segment depends on the pointers of its cells only. -/
theorem Segment.congr (hsegment : Segment next start cells stop)
    (hsame : ∀ cell ∈ cells, next' cell = next cell) : Segment next' start cells stop := by
  induction cells generalizing start with
  | nil => exact hsegment
  | cons cell cells ih =>
      refine ⟨hsegment.1, ?_⟩
      rw [hsame cell List.mem_cons_self]
      exact ih hsegment.2 fun other hother => hsame other (List.mem_cons_of_mem _ hother)

/-- A segment that ends nowhere starts at its first cell. -/
theorem Segment.start_eq (hsegment : Segment next start cells none) : start = cells.head? := by
  cases cells with
  | nil => exact hsegment
  | cons cell cells => exact hsegment.1

/-- A pointer out of a segment's last cell can be set to go on. -/
theorem Segment.set_last {last cell : ℕ} (hsegment : Segment next start (cells ++ [last]) none)
    (hlast : last ∉ cells) :
    Segment (Function.update next last (some cell)) start (cells ++ [last]) (some cell) := by
  obtain ⟨middle, hfront, rfl, -⟩ := (segment_append cells [last]).mp hsegment
  refine (segment_append cells [last]).mpr ⟨some last, hfront.congr fun other hother => ?_, rfl, ?_⟩
  · refine Function.update_of_ne ?_ _ _
    rintro rfl
    exact hlast hother
  · simp [Segment]

end Segment

/-! ## Representation -/

/-- The cells of each queue: its pointers lead through them and end, its last pointer
is the last of them, and no cell is twice in a queue or in two. -/
structure Chains (queues : LinkedQueues ι α) (cells : ι → List ℕ) : Prop where
  absent : ∀ name, queues.ends name = none → cells name = []
  segment : ∀ name, Segment queues.next (queues.entry name).head (cells name) none
  tail : ∀ name, cells name ≠ [] → (queues.entry name).tail = (cells name).getLast?
  nodup : ∀ name, (cells name).Nodup
  bound : ∀ name, ∀ cell ∈ cells name, cell < queues.fresh
  disjoint : ∀ name other, name ≠ other → List.Disjoint (cells name) (cells other)

/-- The queues hold the listed values. -/
def Represents (queues : LinkedQueues ι α) (lists : ι → List α) : Prop :=
  ∃ cells, Chains queues cells ∧ ∀ name, (cells name).map queues.value = (lists name).map some

/-- What is reached from a cell in a number of rounds. -/
def walk (next : ℕ → Option ℕ) : ℕ → Option ℕ → List ℕ
  | 0, _ => []
  | _ + 1, none => []
  | rounds + 1, some cell => cell :: walk next rounds (next cell)

/-- The values of a queue, read along its pointers. -/
def contents (queues : LinkedQueues ι α) (name : ι) : List α :=
  (walk queues.next queues.fresh (queues.entry name).head).filterMap queues.value

section Represents

variable {queues : LinkedQueues ι α} {cells : ι → List ℕ} {lists : ι → List α} {name : ι}

theorem walk_of_segment {next : ℕ → Option ℕ} {start : Option ℕ} {visited : List ℕ} {rounds : ℕ}
    (hsegment : Segment next start visited none) (hrounds : visited.length ≤ rounds) :
    walk next rounds start = visited := by
  induction visited generalizing start rounds with
  | nil =>
      obtain rfl : start = none := hsegment
      cases rounds <;> rfl
  | cons cell visited ih =>
      obtain ⟨rfl, hrest⟩ := hsegment
      obtain ⟨rounds, rfl⟩ := Nat.exists_eq_succ_of_ne_zero (Nat.ne_zero_of_lt hrounds)
      rw [walk, ih hrest (Nat.le_of_succ_le_succ hrounds)]

/-- A queue has at most as many cells as there are. -/
theorem Chains.length_le (hchains : Chains queues cells) (name : ι) :
    (cells name).length ≤ queues.fresh := by
  have hsubset : cells name ⊆ List.range queues.fresh :=
    fun cell hcell => List.mem_range.mpr (hchains.bound name cell hcell)
  simpa using (List.subperm_of_subset (hchains.nodup name) hsubset).length_le

/-- **The queues read along the pointers are the lists.** -/
theorem Represents.contents_eq (hrepresents : Represents queues lists) (name : ι) :
    queues.contents name = lists name := by
  obtain ⟨cells, hchains, hvalues⟩ := hrepresents
  rw [contents, walk_of_segment (hchains.segment name) (hchains.length_le name)]
  have hfilter := congrArg (List.filterMap id) (hvalues name)
  simpa [List.filterMap_map] using hfilter

theorem represents_empty : Represents (empty : LinkedQueues ι α) fun _ => [] :=
  ⟨fun _ => [], ⟨fun _ _ => rfl, fun _ => rfl, by simp, by simp, by simp, by simp⟩, fun _ => rfl⟩

theorem Represents.front_eq (hrepresents : Represents queues lists) (name : ι) :
    queues.front name = (lists name).head? := by
  obtain ⟨cells, hchains, hvalues⟩ := hrepresents
  have hvalue := hvalues name
  rw [front, (hchains.segment name).start_eq]
  cases hcells : cells name with
  | nil =>
      rw [hcells, List.map_nil, eq_comm, List.map_eq_nil_iff] at hvalue
      simp [hvalue]
  | cons cell rest =>
      cases hlist : lists name with
      | nil => simp [hcells, hlist] at hvalue
      | cons value values =>
          simp only [hcells, hlist, List.map_cons, List.cons.injEq] at hvalue
          simp [hvalue.1]

end Represents

/-! ## The operations on lists -/

section Operations

variable [DecidableEq ι] {queues after : LinkedQueues ι α} {cells : ι → List ℕ}
  {lists : ι → List α} {name : ι}

/-- One queue is changed: its entry, and pointers of cells in no other queue. -/
theorem Chains.change (hchains : Chains queues cells) (after : LinkedQueues ι α)
    (hends : ∀ other, other ≠ name → after.ends other = queues.ends other)
    (hnext : ∀ other, other ≠ name → ∀ cell ∈ cells other, after.next cell = queues.next cell)
    (hfresh : queues.fresh ≤ after.fresh) {own : List ℕ}
    (habsent : after.ends name = none → own = [])
    (hsegment : Segment after.next (after.entry name).head own none)
    (htail : own ≠ [] → (after.entry name).tail = own.getLast?) (hnodup : own.Nodup)
    (hbound : ∀ cell ∈ own, cell < after.fresh)
    (hdisjoint : ∀ other, other ≠ name → List.Disjoint own (cells other)) :
    Chains after (Function.update cells name own) := by
  have hentry : ∀ other, other ≠ name → after.entry other = queues.entry other := by
    intro other hother
    rw [entry, entry, hends other hother]
  refine ⟨fun other => ?_, fun other => ?_, fun other => ?_, fun other => ?_, fun other => ?_,
    fun first second hne => ?_⟩
  all_goals try (by_cases hother : other = name)
  · subst hother
    simpa using habsent
  · simpa [Function.update_of_ne hother, hends other hother] using hchains.absent other
  · subst hother
    simpa using hsegment
  · rw [Function.update_of_ne hother, hentry other hother]
    exact (hchains.segment other).congr (hnext other hother)
  · subst hother
    simpa using htail
  · rw [Function.update_of_ne hother, hentry other hother]
    exact hchains.tail other
  · subst hother
    simpa using hnodup
  · rw [Function.update_of_ne hother]
    exact hchains.nodup other
  · subst hother
    simpa using hbound
  · rw [Function.update_of_ne hother]
    exact fun cell hcell => (hchains.bound other cell hcell).trans_le hfresh
  · by_cases hfirst : first = name
    · subst hfirst
      rw [Function.update_self, Function.update_of_ne hne.symm]
      exact hdisjoint second hne.symm
    · rw [Function.update_of_ne hfirst]
      by_cases hsecond : second = name
      · subst hsecond
        rw [Function.update_self]
        exact fun cell hcell hown => hdisjoint first hfirst hown hcell
      · rw [Function.update_of_ne hsecond]
        exact hchains.disjoint first second hne

/-- The values of the changed queue are those of a list, and the others are as they were. -/
theorem values_change (hchains : Chains queues cells)
    (hvalues : ∀ other, (cells other).map queues.value = (lists other).map some)
    (hvalue : ∀ cell < queues.fresh, after.value cell = queues.value cell) {own : List ℕ}
    {list : List α} (hown : own.map after.value = list.map some) (other : ι) :
    (Function.update cells name own other).map after.value =
      (Function.update lists name list other).map some := by
  by_cases hother : other = name
  · subst hother
    simpa using hown
  · rw [Function.update_of_ne hother, Function.update_of_ne hother, ← hvalues other]
    exact List.map_congr_left fun cell hcell => hvalue cell (hchains.bound other cell hcell)

@[simp]
theorem entry_setEnds_self (ends : Option Ends) :
    (queues.setEnds name ends).entry name = ends.getD ⟨none, none⟩ := by
  simp [setEnds, entry]

/-- To look a queue up changes none. -/
theorem Chains.touch (hchains : Chains queues cells) (name : ι) :
    Chains (queues.touch name) cells := by
  have hentry : (queues.touch name).entry name = queues.entry name := by
    simp [LinkedQueues.touch, entry]
  have hafter : Chains (queues.touch name) (Function.update cells name (cells name)) := by
    refine hchains.change (queues.touch name) (fun other hother => ?_) (fun _ _ _ _ => rfl) le_rfl
      (fun habsent => ?_) ?_ ?_ (hchains.nodup name) (hchains.bound name)
      (fun other hother => hchains.disjoint name other hother.symm)
    · simp [LinkedQueues.touch, hother]
    · simp [LinkedQueues.touch] at habsent
    · rw [hentry]
      exact hchains.segment name
    · rw [hentry]
      exact hchains.tail name
  rwa [Function.update_eq_self] at hafter

theorem Represents.touch (hrepresents : Represents queues lists) (name : ι) :
    Represents (queues.touch name) lists := by
  obtain ⟨cells, hchains, hvalues⟩ := hrepresents
  exact ⟨cells, hchains.touch name, hvalues⟩

/-- To append to an empty queue starts it. -/
theorem pushBack_of_none {value : α} (hhead : (queues.entry name).head = none) :
    queues.pushBack name value =
      { next := Function.update queues.next queues.fresh none
        value := Function.update queues.value queues.fresh (some value)
        fresh := queues.fresh + 1
        ends := Function.update queues.ends name
          (some ⟨some queues.fresh, some queues.fresh⟩) } := by
  simp only [pushBack, hhead, setEnds]

/-- To append to another queue sets a pointer in its last cell. -/
theorem pushBack_of_some {value : α} {head tail : ℕ} (hhead : (queues.entry name).head = some head)
    (htail : (queues.entry name).tail = some tail) :
    queues.pushBack name value =
      { next := Function.update (Function.update queues.next queues.fresh none) tail
          (some queues.fresh)
        value := Function.update queues.value queues.fresh (some value)
        fresh := queues.fresh + 1
        ends := Function.update queues.ends name (some ⟨some head, some queues.fresh⟩) } := by
  simp only [pushBack, hhead, htail, setEnds, setNext]

/-- To append is to append to the list. -/
theorem Represents.pushBack (hrepresents : Represents queues lists) (name : ι) (value : α) :
    Represents (queues.pushBack name value)
      (Function.update lists name (lists name ++ [value])) := by
  obtain ⟨cells, hchains, hvalues⟩ := hrepresents
  have hstart := (hchains.segment name).start_eq
  have hnew : ∀ other, queues.fresh ∉ cells other :=
    fun other hcell => (hchains.bound other _ hcell).false
  have hbound : ∀ cell ∈ cells name ++ [queues.fresh], cell < queues.fresh + 1 := by
    intro cell hcell
    obtain hold | hcell := List.mem_append.mp hcell
    · exact (hchains.bound name cell hold).trans (Nat.lt_succ_self _)
    · rw [List.mem_singleton.mp hcell]
      exact Nat.lt_succ_self _
  have hnodup : (cells name ++ [queues.fresh]).Nodup := by
    refine List.nodup_append.mpr ⟨hchains.nodup name, List.nodup_singleton _, ?_⟩
    rintro cell hcell _ hfresh rfl
    rw [List.mem_singleton] at hfresh
    exact hnew name (hfresh ▸ hcell)
  have hdisjoint : ∀ other, other ≠ name →
      List.Disjoint (cells name ++ [queues.fresh]) (cells other) := by
    intro other hother
    refine List.disjoint_append_left.mpr ⟨hchains.disjoint name other hother.symm, ?_⟩
    simpa using hnew other
  have hold : ∀ cell < queues.fresh, ∀ value : Option α,
      Function.update queues.value queues.fresh value cell = queues.value cell :=
    fun cell hcell value => Function.update_of_ne hcell.ne _ _
  have hown : (cells name ++ [queues.fresh]).map
      (Function.update queues.value queues.fresh (some value)) =
        (lists name ++ [value]).map some := by
    rw [List.map_append, List.map_append, ← hvalues name]
    refine congrArg₂ _ (List.map_congr_left fun cell hcell => ?_) (by simp)
    exact hold cell (hchains.bound name cell hcell) _
  have hkept : ∀ other, ∀ cell ∈ cells other,
      Function.update queues.next queues.fresh none cell = queues.next cell :=
    fun other cell hcell => Function.update_of_ne (hchains.bound other cell hcell).ne _ _
  rcases (cells name).eq_nil_or_concat' with hnil | ⟨front, last, hcells⟩
  · rw [hnil] at hstart
    rw [pushBack_of_none hstart]
    refine ⟨Function.update cells name (cells name ++ [queues.fresh]), hchains.change _
      (fun other hother => ?_) (fun other _ => hkept other) (Nat.le_succ _) (fun habsent => ?_)
      ?_ ?_ hnodup hbound hdisjoint, values_change hchains hvalues (fun cell hcell => ?_) hown⟩
    · simp [hother]
    · simp at habsent
    · simp [hnil, entry, Segment]
    · simp [hnil, entry]
    · exact hold cell hcell _
  · have hlast : last ∈ cells name := by simp [hcells]
    have htail : (queues.entry name).tail = some last := by
      rw [hchains.tail name (List.ne_nil_of_mem hlast), hcells]
      simp
    have hne : last ≠ queues.fresh := (hchains.bound name last hlast).ne
    obtain ⟨head, hhead⟩ : ∃ head, (queues.entry name).head = some head := by
      rw [hstart]
      cases hlist : cells name with
      | nil => simp [hlist] at hlast
      | cons head rest => exact ⟨head, rfl⟩
    rw [pushBack_of_some hhead htail]
    refine ⟨Function.update cells name (cells name ++ [queues.fresh]), hchains.change _
      (fun other hother => ?_) (fun other hother cell hcell => ?_) (Nat.le_succ _)
      (fun habsent => ?_) ?_ ?_ hnodup hbound hdisjoint,
      values_change hchains hvalues (fun cell hcell => ?_) hown⟩
    · simp [hother]
    · have hcell' : cell ≠ last := by
        rintro rfl
        exact hchains.disjoint other name hother hcell hlast
      simp only [Function.update_of_ne hcell', hkept other cell hcell]
    · simp at habsent
    · have hsegment := (hchains.segment name).congr (hkept name)
      have hnodup' := hchains.nodup name
      rw [hcells] at hsegment hnodup' ⊢
      have hfront : last ∉ front := by
        intro hmem
        exact (List.nodup_append.mp hnodup').2.2 last hmem last List.mem_cons_self rfl
      refine (segment_append _ _).mpr ⟨some queues.fresh, ?_, ?_⟩
      · rw [hhead] at hsegment
        simpa [entry] using hsegment.set_last hfront
      · simp [Segment, hne.symm]
    · simp [entry]
    · exact hold cell hcell _

omit [DecidableEq ι] in
/-- The cells of a list that starts with a value start with its cell. -/
theorem cells_cons (hvalues : ∀ name, (cells name).map queues.value = (lists name).map some)
    {value : α} {values : List α} (hlist : lists name = value :: values) :
    ∃ cell rest, cells name = cell :: rest ∧ queues.value cell = some value ∧
      rest.map queues.value = values.map some := by
  have hvalue := hvalues name
  cases hcells : cells name with
  | nil => simp [hcells, hlist] at hvalue
  | cons cell rest =>
      simp only [hcells, hlist, List.map_cons, List.cons.injEq] at hvalue
      exact ⟨cell, rest, rfl, hvalue⟩

/-- A queue loses some of its cells and its entry is set: no other pointer changes. -/
theorem Represents.setEnds (hchains : Chains queues cells)
    (hvalues : ∀ name, (cells name).map queues.value = (lists name).map some) {ends : Option Ends}
    {own : List ℕ} {list : List α} (hown : own.map queues.value = list.map some)
    (hsublist : own.Sublist (cells name)) (habsent : ends = none → own = [])
    (hsegment : Segment queues.next (ends.getD ⟨none, none⟩).head own none)
    (htail : own ≠ [] → (ends.getD ⟨none, none⟩).tail = own.getLast?) :
    Represents (queues.setEnds name ends) (Function.update lists name list) := by
  refine ⟨Function.update cells name own, hchains.change (queues.setEnds name ends)
    (fun other hother => ?_) (fun _ _ _ _ => rfl) le_rfl (fun hat => habsent ?_) ?_ ?_
    ((hchains.nodup name).sublist hsublist)
    (fun cell hcell => hchains.bound name cell (hsublist.subset hcell))
    (fun other hother cell hcell =>
      hchains.disjoint name other hother.symm (hsublist.subset hcell)),
    values_change hchains hvalues (fun _ _ => rfl) hown⟩
  · simp [LinkedQueues.setEnds, hother]
  · simpa [LinkedQueues.setEnds] using hat
  · rwa [entry_setEnds_self]
  · rwa [entry_setEnds_self]

/-- To take the first cell off is to take the head off the list. -/
theorem Represents.popFront (hrepresents : Represents queues lists) (name : ι) :
    Represents (queues.popFront name) (Function.update lists name (lists name).tail) := by
  have hsame := hrepresents
  obtain ⟨cells, hchains, hvalues⟩ := hrepresents
  have hsegment := hchains.segment name
  cases hlist : lists name with
  | nil =>
      have hcells : cells name = [] := by simpa [hlist] using hvalues name
      have hpop : queues.popFront name = queues := by
        simp [LinkedQueues.popFront, hsegment.start_eq, hcells]
      rwa [hpop, List.tail_nil, ← hlist, Function.update_eq_self]
  | cons value values =>
      obtain ⟨cell, rest, hcells, -, hrest⟩ := cells_cons hvalues hlist
      rw [hcells] at hsegment
      obtain ⟨hhead, hsegment⟩ := hsegment
      have hsublist : rest.Sublist (cells name) := by
        rw [hcells]
        exact List.sublist_cons_self cell rest
      cases hnext : queues.next cell with
      | none =>
          have hnil : rest = [] := by
            rw [hnext] at hsegment
            exact List.head?_eq_none_iff.mp hsegment.start_eq.symm
          have hpop : queues.popFront name = queues.setEnds name none := by
            simp [LinkedQueues.popFront, hhead, hnext]
          rw [hpop]
          exact Represents.setEnds hchains hvalues hrest hsublist (fun _ => hnil)
            (by simp [hnil, Segment]) fun hne => absurd hnil hne
      | some head =>
          have hpop : queues.popFront name =
              queues.setEnds name (some ⟨some head, (queues.entry name).tail⟩) := by
            simp [LinkedQueues.popFront, hhead, hnext]
          rw [hpop]
          rw [hnext] at hsegment
          refine Represents.setEnds hchains hvalues hrest hsublist (by simp) hsegment fun hne => ?_
          have htail := hchains.tail name (by simp [hcells])
          rw [hcells, List.getLast?_cons_of_ne_nil hne] at htail
          simpa using htail

omit [DecidableEq ι] in
/-- A search that no cell of the queue meets finds none. -/
theorem search_eq_none {p : α → Bool} {visited : List ℕ} {start before : Option ℕ} {rounds : ℕ}
    (hsegment : Segment queues.next start visited none)
    (hnone : ∀ cell ∈ visited, (queues.value cell).any p = false) :
    queues.search p rounds before start = none := by
  induction visited generalizing start before rounds with
  | nil =>
      obtain rfl : start = none := hsegment
      cases rounds <;> rfl
  | cons cell visited ih =>
      obtain ⟨rfl, hrest⟩ := hsegment
      cases rounds with
      | zero => rfl
      | succ rounds =>
          rw [search, hnone cell List.mem_cons_self, if_neg Bool.false_ne_true]
          exact ih hrest fun other hother => hnone other (List.mem_cons_of_mem _ hother)

omit [DecidableEq ι] in
/-- A search finds the first cell that meets the condition, and the cell before it. -/
theorem search_eq_some {p : α → Bool} {front back : List ℕ} {cell : ℕ} {start before : Option ℕ}
    {rounds : ℕ} (hsegment : Segment queues.next start (front ++ cell :: back) none)
    (hrounds : (front ++ cell :: back).length ≤ rounds)
    (hnone : ∀ other ∈ front, (queues.value other).any p = false)
    (hsome : (queues.value cell).any p = true) :
    queues.search p rounds before start = some (front.getLast?.or before, cell) := by
  induction front generalizing start before rounds with
  | nil =>
      obtain ⟨rfl, -⟩ := hsegment
      obtain ⟨rounds, rfl⟩ := Nat.exists_eq_succ_of_ne_zero (Nat.ne_zero_of_lt hrounds)
      rw [search, hsome, if_pos rfl]
      rfl
  | cons other front ih =>
      obtain ⟨rfl, hrest⟩ := hsegment
      obtain ⟨rounds, rfl⟩ := Nat.exists_eq_succ_of_ne_zero (Nat.ne_zero_of_lt hrounds)
      rw [search, hnone other List.mem_cons_self, if_neg Bool.false_ne_true,
        ih hrest (Nat.le_of_succ_le_succ hrounds)
          fun third hthird => hnone third (List.mem_cons_of_mem _ hthird)]
      rw [List.getLast?_cons]
      cases front.getLast? <;> rfl

/-- To unlink the first cell is to take it off. -/
theorem Represents.unlink_head {cell : ℕ} {back : List ℕ} {list : List α}
    (hchains : Chains queues cells)
    (hvalues : ∀ name, (cells name).map queues.value = (lists name).map some)
    (hcells : cells name = cell :: back) (hlist : back.map queues.value = list.map some) :
    Represents (queues.unlink name none cell) (Function.update lists name list) := by
  have hsegment := hchains.segment name
  have hnodup := hchains.nodup name
  have htail := hchains.tail name (by simp [hcells])
  rw [hcells] at hsegment hnodup htail
  obtain ⟨hhead, hback⟩ := hsegment
  have hsublist : back.Sublist (cells name) := by
    rw [hcells]
    exact List.sublist_cons_self cell back
  cases hnext : queues.next cell with
  | none =>
      have hnil : back = [] := by
        rw [hnext] at hback
        exact List.head?_eq_none_iff.mp hback.start_eq.symm
      have hunlink : queues.unlink name none cell = queues.setEnds name none := by
        simp [LinkedQueues.unlink, hhead, hnext]
      rw [hunlink]
      exact Represents.setEnds hchains hvalues hlist hsublist (fun _ => hnil)
        (by simp [hnil, Segment]) fun hne => absurd hnil hne
  | some second =>
      have hne : back ≠ [] := by
        rintro rfl
        rw [hnext] at hback
        simp [Segment] at hback
      rw [List.getLast?_cons_of_ne_nil hne] at htail
      have hkeep : (queues.entry name).tail ≠ some cell := by
        rw [htail]
        intro hlast
        exact (List.nodup_cons.mp hnodup).1 (List.mem_of_getLast? hlast)
      have hunlink : queues.unlink name none cell =
          queues.setEnds name (some ⟨some second, (queues.entry name).tail⟩) := by
        simp [LinkedQueues.unlink, hhead, hnext, hkeep]
      rw [hunlink]
      rw [hnext] at hback
      exact Represents.setEnds hchains hvalues hlist hsublist (by simp) hback fun _ => htail

/-- To unlink a later cell sets the pointer of the cell before it. -/
theorem Represents.unlink_later {init back : List ℕ} {before cell : ℕ} {list : List α}
    (hchains : Chains queues cells)
    (hvalues : ∀ name, (cells name).map queues.value = (lists name).map some)
    (hcells : cells name = (init ++ [before]) ++ cell :: back)
    (hlist : ((init ++ [before]) ++ back).map queues.value = list.map some) :
    Represents (queues.unlink name (some before) cell) (Function.update lists name list) := by
  have hsegment := hchains.segment name
  have hnodup := hchains.nodup name
  have htail := hchains.tail name (by simp [hcells])
  have hmem : ∀ other ∈ (init ++ [before]) ++ back, other ∈ cells name := by
    intro other hother
    rw [hcells]
    exact ((List.sublist_cons_self cell back).append_left _).subset hother
  obtain ⟨first, rest, hfirst, hrest⟩ :
      ∃ first rest, (init ++ [before]) ++ cell :: back = first :: rest ∧ rest ≠ [] := by
    cases init with
    | nil => exact ⟨before, cell :: back, rfl, by simp⟩
    | cons first init => exact ⟨first, init ++ [before] ++ cell :: back, rfl, by simp⟩
  have hfirstmem : first ∈ init ++ [before] := by
    cases init <;> simp_all
  rw [hcells] at hsegment hnodup htail
  have hhead : (queues.entry name).head = some first := by
    rw [hsegment.start_eq, hfirst]
    rfl
  have hsecond : queues.next first ≠ none := by
    have hsecond := hsegment
    rw [hfirst] at hsecond
    rw [hsecond.2.start_eq]
    exact fun hnone => hrest (List.head?_eq_none_iff.mp hnone)
  obtain ⟨hfrontnodup, hbacknodup, hapart⟩ := List.nodup_append.mp hnodup
  have hne : first ≠ cell := fun heq => hapart first hfirstmem cell List.mem_cons_self heq
  have hbefore : before ∉ back := fun hmem => hapart before (by simp) before
    (List.mem_cons_of_mem _ hmem) rfl
  have hinit : before ∉ init := fun hmem =>
    (List.nodup_append.mp hfrontnodup).2.2 before hmem before List.mem_cons_self rfl
  have hunlink : queues.unlink name (some before) cell =
      (queues.setNext before (queues.next cell)).setEnds name (some ⟨some first,
        if (queues.entry name).tail = some cell then some before
        else (queues.entry name).tail⟩) := by
    simp [LinkedQueues.unlink, hhead, hsecond, hne]
  obtain ⟨middle, hfront, rfl, hback⟩ := (segment_append _ (cell :: back)).mp hsegment
  obtain ⟨last, hinitsegment, rfl, hcell⟩ := (segment_append init [before]).mp hfront
  rw [hunlink]
  refine ⟨Function.update cells name ((init ++ [before]) ++ back),
    hchains.change ((queues.setNext before (queues.next cell)).setEnds name _)
      (fun other hother => Function.update_of_ne hother _ _) (fun other hother third hthird => ?_)
      le_rfl (fun habsent => ?_) ?_ (fun _ => ?_) ?_
      (fun third hthird => hchains.bound name third (hmem third hthird))
      (fun other hother third hthird =>
        hchains.disjoint name other hother.symm (hmem third hthird)),
    values_change hchains hvalues (fun _ _ => rfl) hlist⟩
  · refine Function.update_of_ne ?_ _ _
    rintro rfl
    exact hchains.disjoint other name hother hthird (hmem third (by simp))
  · simp [LinkedQueues.setEnds] at habsent
  · rw [entry_setEnds_self]
    refine (segment_append _ back).mpr ⟨queues.next cell, ?_, hback.congr fun third hthird => ?_⟩
    · refine (segment_append init [before]).mpr ⟨some before, ?_, rfl, Function.update_self ..⟩
      rw [hhead] at hinitsegment
      refine hinitsegment.congr fun third hthird => Function.update_of_ne ?_ _ _
      rintro rfl
      exact hinit hthird
    · refine Function.update_of_ne ?_ _ _
      rintro rfl
      exact hbefore hthird
  · rw [entry_setEnds_self, Option.getD_some, htail]
    cases back with
    | nil => simp
    | cons third back =>
        have hkeep : ((init ++ [before]) ++ cell :: third :: back).getLast? =
            (third :: back).getLast? := by simp [List.getLast?_cons]
        have hlast : (third :: back).getLast? ≠ some cell := fun hlast =>
          (List.nodup_cons.mp hbacknodup).1 (List.mem_of_getLast? hlast)
        rw [hkeep, if_neg hlast]
        simp [List.getLast?_cons]
  · exact hnodup.sublist ((List.sublist_cons_self cell back).append_left _)

omit [DecidableEq ι] in
/-- Whether a cell meets a condition is whether its value does. -/
theorem any_eq_false {p : α → Bool} {visited : List ℕ} {values : List α}
    (hvalues : visited.map queues.value = values.map some)
    (hnone : ∀ value ∈ values, p value = false) :
    ∀ cell ∈ visited, (queues.value cell).any p = false := by
  intro cell hcell
  have hmem : queues.value cell ∈ values.map some := hvalues ▸ List.mem_map_of_mem hcell
  obtain ⟨value, hvalue, hsome⟩ := List.mem_map.mp hmem
  simpa [← hsome] using hnone value hvalue

/-- To remove the first value that meets a condition is to erase it from the list. -/
theorem Represents.removeFirst (hrepresents : Represents queues lists) (name : ι) (p : α → Bool) :
    (queues.removeFirst name p).1 = (lists name).find? p ∧
      Represents (queues.removeFirst name p).2
        (Function.update lists name ((lists name).eraseP p)) := by
  have htouched := hrepresents.touch name
  obtain ⟨cells, hchains, hvalues⟩ := hrepresents
  cases hfind : (lists name).find? p with
  | none =>
      have hnone : ∀ value ∈ lists name, p value = false := by
        simpa using List.find?_eq_none.mp hfind
      have hsearch : queues.search p queues.fresh none (queues.entry name).head = none :=
        search_eq_none (hchains.segment name) (any_eq_false (hvalues name) hnone)
      rw [LinkedQueues.removeFirst, hsearch, List.eraseP_of_forall_not (by simpa using hnone),
        Function.update_eq_self]
      exact ⟨rfl, htouched⟩
  | some value =>
      obtain ⟨hmeets, before, after, hlist, hnone⟩ := List.find?_eq_some_iff_append.mp hfind
      have hnone' : ∀ other ∈ before, p other = false := by simpa using hnone
      have hvalue := hvalues name
      rw [hlist, List.map_append, List.map_cons] at hvalue
      obtain ⟨front, rest, hcells, hfront, hrest⟩ := List.map_eq_append_iff.mp hvalue
      obtain ⟨cell, back, rfl, hcell, hback⟩ := List.map_eq_cons_iff.mp hrest
      have hlength := hchains.length_le name
      have hsegment := hchains.segment name
      rw [hcells] at hlength hsegment
      have hsearch : queues.search p queues.fresh none (queues.entry name).head =
          some (front.getLast?, cell) := by
        rw [search_eq_some hsegment hlength (any_eq_false hfront hnone') (by simp [hcell, hmeets]),
          Option.or_none]
      have herase : (lists name).eraseP p = before ++ after := by
        rw [hlist, List.eraseP_append_right _ (by simpa using hnone'),
          List.eraseP_cons_of_pos hmeets]
      have hkept : (front ++ back).map queues.value = ((lists name).eraseP p).map some := by
        rw [herase, List.map_append, List.map_append, hfront, hback]
      rw [LinkedQueues.removeFirst, hsearch]
      refine ⟨hcell, ?_⟩
      rcases front.eq_nil_or_concat' with rfl | ⟨init, last, rfl⟩
      · exact Represents.unlink_head (hchains.touch name) hvalues hcells hkept
      · rw [List.getLast?_concat]
        exact Represents.unlink_later (hchains.touch name) hvalues hcells hkept

end Operations

end LinkedQueues

/-! ## Queues as an interface -/

/-- What a program does to a table of queues. -/
structure QueueOps (Q : Type w) (ι : Type u) (α : Type v) where
  front : Q → ι → Option α
  touch : Q → ι → Q
  pushBack : Q → ι → α → Q
  popFront : Q → ι → Q
  removeFirst : Q → ι → (α → Bool) → Option α × Q

/-- Two tables stay related, and answer the same, whatever a program does to both. -/
structure QueueOps.Refines {Q Q' : Type w} {ι : Type u} {α : Type v} (ops : QueueOps Q ι α)
    (ops' : QueueOps Q' ι α) (R : Q → Q' → Prop) : Prop where
  front : ∀ {queues queues'}, R queues queues' → ∀ name,
    ops.front queues name = ops'.front queues' name
  touch : ∀ {queues queues'}, R queues queues' → ∀ name,
    R (ops.touch queues name) (ops'.touch queues' name)
  pushBack : ∀ {queues queues'}, R queues queues' → ∀ name value,
    R (ops.pushBack queues name value) (ops'.pushBack queues' name value)
  popFront : ∀ {queues queues'}, R queues queues' → ∀ name,
    R (ops.popFront queues name) (ops'.popFront queues' name)
  removeFirst : ∀ {queues queues'}, R queues queues' → ∀ name p,
    (ops.removeFirst queues name p).1 = (ops'.removeFirst queues' name p).1 ∧
      R (ops.removeFirst queues name p).2 (ops'.removeFirst queues' name p).2

section Interface

variable {ι : Type u} {α : Type v} [DecidableEq ι]

/-- The queues with pointers. -/
def LinkedQueues.ops : QueueOps (LinkedQueues ι α) ι α where
  front queues name := queues.front name
  touch queues name := queues.touch name
  pushBack queues name value := queues.pushBack name value
  popFront queues name := queues.popFront name
  removeFirst queues name p := queues.removeFirst name p

/-- A family of lists. -/
def listOps : QueueOps (ι → List α) ι α where
  front lists name := (lists name).head?
  touch lists _ := lists
  pushBack lists name value := Function.update lists name (lists name ++ [value])
  popFront lists name := Function.update lists name (lists name).tail
  removeFirst lists name p :=
    ((lists name).find? p, Function.update lists name ((lists name).eraseP p))

/-- **The queues with pointers refine the lists they represent.** -/
theorem LinkedQueues.refines_lists :
    (LinkedQueues.ops : QueueOps (LinkedQueues ι α) ι α).Refines listOps
      LinkedQueues.Represents where
  front hrepresents := hrepresents.front_eq
  touch hrepresents := hrepresents.touch
  pushBack hrepresents := hrepresents.pushBack
  popFront hrepresents := hrepresents.popFront
  removeFirst hrepresents := hrepresents.removeFirst

end Interface

end ContainerScheduler.Math
