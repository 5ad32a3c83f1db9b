/-
# The search of a cuckoo map

An entry of the search stands for a path from one of the two buckets of the new key to its own. The
items on the path can move by one step each because the path has at most four places, which differ.

Every entry that waits has a path, and counts for the tree of entries that can come of it. The trees
of the two roots have as many entries as the queue has cells, and, without the last level, as many
as can be visited.
-/

import ContainerScheduler.Analysis.CuckooBuckets
import ContainerScheduler.Math.RingQueue

namespace ContainerScheduler.Analysis

open Containers
open Containers.PresizedCuckooMap
open Math
open Math.Displacement

variable {β : Type}

namespace Cuckoo

/-- A bucket without a free slot. -/
def Full (m : PresizedCuckooMap β) (b : UInt64) : Prop :=
  ∀ slot v, cell m (b, slot) ≠ some (kUnusedSlot, v)

/-- The places of the items that move to make room for a new one, the one next to the bucket of
the entry first. -/
inductive Trail (m : PresizedCuckooMap β) (b1 b2 : UInt64) (seen : List CuckooPathEntry) :
    CuckooPathEntry → List Place → Prop
  | root {e : CuckooPathEntry} (hdepth : e.depth = 1) (hparent : e.parent = 0)
      (hbucket : e.bucket = b1 ∨ e.bucket = b2) : Trail m b1 b2 seen e []
  | step {e parent : CuckooPathEntry} {path : List Place} {item : UInt64 × β}
      (htrail : Trail m b1 b2 seen parent path) (hparent : seen[e.parent]? = some parent)
      (hdepth : e.depth = parent.depth + 1)
      (hcell : cell m (parent.bucket, e.parentSlot) = some item) (hfull : Full m parent.bucket)
      (hnext : e.bucket = m.altBucket item.1 parent.bucket)
      (hback : ∀ q ∈ path.head?, q.1 ≠ e.bucket) :
      Trail m b1 b2 seen e ((parent.bucket, e.parentSlot) :: path)

/-- The bucket in which the item of a place could lie as well. -/
def otherBucket (m : PresizedCuckooMap β) (p : Place) : UInt64 :=
  ((cell m p).map fun item => m.altBucket item.1 p.1).getD p.1

namespace Trail

variable {m : PresizedCuckooMap β} {b1 b2 : UInt64} {seen : List CuckooPathEntry}
  {e : CuckooPathEntry} {path : List Place}

section

variable (htrail : Trail m b1 b2 seen e path)

include htrail

theorem depth_eq : e.depth = path.length + 1 := by
  induction htrail with
  | root hdepth => exact hdepth
  | step _ _ hdepth _ _ _ _ ih => rw [hdepth, ih, List.length_cons]

theorem append (more : List CuckooPathEntry) : Trail m b1 b2 (seen ++ more) e path := by
  induction htrail with
  | root hdepth hparent hbucket => exact .root hdepth hparent hbucket
  | step _ hparent hdepth hcell hfull hnext hback ih =>
      refine .step ih ?_ hdepth hcell hfull hnext hback
      rw [List.getElem?_append_left (List.getElem?_eq_some_iff.mp hparent).1]
      exact hparent

theorem walk : Walk Prod.fst (otherBucket m) e.bucket path := by
  induction htrail with
  | root => exact .nil _
  | step _ _ _ hcell _ hnext hback ih =>
      refine .cons ?_ ih hback
      rw [otherBucket, hcell, hnext]
      rfl

theorem full : ∀ p ∈ path, Full m p.1 := by
  induction htrail with
  | root => exact List.forall_mem_nil _
  | step _ _ _ _ hfull _ _ ih => exact List.forall_mem_cons.mpr ⟨hfull, ih⟩

/-- The places behind a free slot differ. -/
theorem nodup (hdepth : e.depth ≤ kMaxBFSPathLen) {slot : ℕ} {v : β}
    (hfree : cell m (e.bucket, slot) = some (kUnusedSlot, v)) :
    ((e.bucket, slot) :: path).Nodup := by
  have hfresh : ∀ p ∈ path, p.1 ≠ e.bucket := by
    intro p hp heq
    exact htrail.full p hp slot v (heq ▸ hfree)
  have hlength := htrail.depth_eq
  refine List.nodup_cons.mpr ⟨fun hmem => hfresh _ hmem rfl, htrail.walk.nodup ?_ hfresh⟩
  have hmax : kMaxBFSPathLen = 5 := rfl
  omega

end

/-- What is read through the parents. -/
structure Visited (m : PresizedCuckooMap β) (seen : List CuckooPathEntry) : Prop where
  length_le : seen.length ≤ kVisitedListSize
  get : ∀ i e, seen[i]? = some e → PresizedCuckooMap.read m.visited i = .ok e

theorem moveItems_eq {k : UInt64} {v : β} {now : PresizedCuckooMap β} {turns slot : ℕ}
    (htrail : Trail m b1 b2 seen e path) (hvisited : Visited now seen)
    (hlength : now.buckets.length = m.buckets.length)
    (hfree : (cell now (e.bucket, slot)).isSome = true) (hturns : path.length < turns) :
    ∃ buckets, moveItems k v turns now e slot = .ok { now with buckets } ∧
      buckets.length = now.buckets.length ∧
      cell { now with buckets } = displace (cell now) (e.bucket, slot) (some (k, v)) path := by
  induction htrail generalizing now turns slot with
  | @root e hdepth =>
      obtain ⟨turns, rfl⟩ := Nat.exists_eq_add_of_lt hturns
      obtain ⟨buckets, hinsert, hsame, hcell⟩ := insertInternal_cell (k := k) (v := v) hfree
      refine ⟨buckets, ?_, hsame, hcell⟩
      rw [moveItems, if_neg (by omega)]
      exact hinsert
  | @step e parent path item htrail hparent hdepth hcell hfull hnext hback ih =>
      obtain ⟨turns, rfl⟩ := Nat.exists_eq_add_of_lt hturns
      have hbounds := isSome_cell_iff.mp (show (cell m _).isSome = true by rw [hcell]; rfl)
      have hsource : (cell now (parent.bucket, e.parentSlot)).isSome = true :=
        isSome_cell_iff.mpr (hlength ▸ hbounds)
      obtain ⟨moved, hmoved⟩ := Option.isSome_iff_exists.mp hsource
      obtain ⟨middle, hinsert, hsame, hupdate⟩ :=
        insertInternal_cell (k := moved.1) (v := moved.2) hfree
      have hplace : (cell { now with buckets := middle }
          (parent.bucket, e.parentSlot)).isSome = true :=
        isSome_cell_iff.mpr (by rw [hsame, hlength]; exact hbounds)
      obtain ⟨buckets, hrest, hlast, hdisplace⟩ :=
        @ih { now with buckets := middle } (path.length + 1 + turns) e.parentSlot
          ⟨hvisited.length_le, hvisited.get⟩ (hsame.trans hlength) hplace (by omega)
      refine ⟨buckets, ?_, hlast.trans hsame, ?_⟩
      · have hdeep := htrail.depth_eq
        rw [moveItems, if_pos (by omega), hvisited.get _ _ hparent]
        simp only [Except.bind, copyItem_eq hmoved, hinsert]
        rw [← hrest]
        congr 1
      · rw [displace, hmoved, ← hupdate]
        exact hdisplace

end Trail

/-- The entries of a tree in which each one has four children. -/
def treeSize : (levels : ℕ) → ℕ
  | 0 => 0
  | levels + 1 => 1 + 4 * treeSize levels

/-- The entries that can come of one. -/
def weight (e : CuckooPathEntry) : ℕ := treeSize (6 - e.depth)

/-- Those of them that can be visited. -/
def innerWeight (e : CuckooPathEntry) : ℕ := treeSize (5 - e.depth)

theorem weight_eq {e : CuckooPathEntry} (hdepth : e.depth ≤ 5) :
    weight e = 1 + 4 * innerWeight e := by
  rw [weight, innerWeight, show 6 - e.depth = (5 - e.depth) + 1 by omega, treeSize]

theorem innerWeight_eq {e : CuckooPathEntry} (hdepth : e.depth < 5) :
    innerWeight e = 1 + 4 * treeSize (4 - e.depth) := by
  rw [innerWeight, show 5 - e.depth = (4 - e.depth) + 1 by omega, treeSize]

def totalWeight (waiting : List CuckooPathEntry) : ℕ := (waiting.map weight).sum

def totalInnerWeight (waiting : List CuckooPathEntry) : ℕ := (waiting.map innerWeight).sum

/-- The queue of a map. -/
def Waits (cpq : CuckooPathQueue) (waiting : List CuckooPathEntry) : Prop :=
  RingQueue (fun i => cpq.queue[i]?) kMaxQueueSize cpq.head cpq.tail waiting

section Queue

variable {cpq : CuckooPathQueue} {waiting : List CuckooPathEntry} {e : CuckooPathEntry}

theorem Waits.pushBack (hwaits : Waits cpq waiting) (hroom : waiting.length + 1 < kMaxQueueSize) :
    ∃ pushed, cpq.pushBack e = .ok pushed ∧ Waits pushed (waiting ++ [e]) := by
  have htail := hwaits.tail_lt
  refine ⟨_, by rw [CuckooPathQueue.pushBack, write_eq htail]; rfl, ?_⟩
  refine hwaits.push hroom fun i => ?_
  simp only [Vector.getElem?_set]
  by_cases hi : cpq.tail = i
  · rw [if_pos hi, if_pos hi.symm]
  · rw [if_neg hi, if_neg (Ne.symm hi)]

theorem Waits.popFront (hwaits : Waits cpq (e :: waiting)) :
    ∃ popped, cpq.popFront = .ok (e, popped) ∧ Waits popped waiting := by
  obtain ⟨hhead, hrest⟩ := hwaits.pop
  obtain ⟨hlt, hget⟩ := Vector.getElem?_eq_some_iff.mp hhead
  refine ⟨{ cpq with head := (cpq.head + 1) % kMaxQueueSize }, ?_, hrest⟩
  rw [CuckooPathQueue.popFront, read_eq hlt, hget]
  rfl

theorem Waits.empty_iff (hwaits : Waits cpq waiting) : cpq.empty = true ↔ waiting = [] := by
  rw [CuckooPathQueue.empty, beq_iff_eq]
  exact hwaits.head_eq_tail_iff

end Queue

/-! ## Children -/

/-- An entry for a slot of a bucket, which does not lead back. -/
structure Child (m : PresizedCuckooMap β) (e : CuckooPathEntry) (back : UInt64) (parentIndex : ℕ)
    (bref : Bucket β) (child : CuckooPathEntry) : Prop where
  depth : child.depth = e.depth + 1
  parent : child.parent = parentIndex
  slot_lt : child.parentSlot < kSlotsPerBucket
  bucket : child.bucket = m.altBucket bref.keys[child.parentSlot] e.bucket
  back : child.bucket ≠ back

theorem pushChildren_spec {m : PresizedCuckooMap β} {startSlot parentIndex : ℕ}
    {e parent : CuckooPathEntry} {bref : Bucket β} {is : List ℕ} {cpq : CuckooPathQueue}
    {waiting : List CuckooPathEntry} (hparent : PresizedCuckooMap.read m.visited e.parent = .ok parent)
    (hwaits : Waits cpq waiting) (hroom : waiting.length + is.length < kMaxQueueSize) :
    ∃ pushed children, m.pushChildren startSlot e parentIndex bref is cpq = .ok pushed ∧
      Waits pushed (waiting ++ children) ∧ children.length ≤ is.length ∧
      ∀ child ∈ children, Child m e parent.bucket parentIndex bref child := by
  induction is generalizing cpq waiting with
  | nil => exact ⟨cpq, [], rfl, by rwa [List.append_nil], Nat.le_refl _, List.forall_mem_nil _⟩
  | cons i is ih =>
      have hslot : (startSlot + i) % kSlotsPerBucket < kSlotsPerBucket := Nat.mod_lt _ (by decide)
      rw [List.length_cons] at hroom
      rw [pushChildren]
      simp only [read_eq hslot, Except.bind, hparent]
      by_cases hback : m.altBucket bref.keys[(startSlot + i) % kSlotsPerBucket] e.bucket ≠
          parent.bucket
      · rw [if_pos hback]
        obtain ⟨middle, hpush, hmiddle⟩ := @Waits.pushBack cpq waiting
          ⟨m.altBucket bref.keys[(startSlot + i) % kSlotsPerBucket] e.bucket, e.depth + 1,
            parentIndex, (startSlot + i) % kSlotsPerBucket⟩ hwaits (by omega)
        obtain ⟨pushed, children, hrest, hpushed, hlength, hchildren⟩ := ih hmiddle (by
          rw [List.length_append, List.length_singleton]
          omega)
        rw [List.append_assoc] at hpushed
        refine ⟨pushed, _ :: children, ?_, hpushed, Nat.succ_le_succ hlength, ?_⟩
        · rw [hpush]
          exact hrest
        · exact List.forall_mem_cons.mpr ⟨⟨rfl, rfl, hslot, rfl, hback⟩, hchildren⟩
      · rw [if_neg hback]
        obtain ⟨pushed, children, hrest, hpushed, hlength, hchildren⟩ := ih hwaits (by omega)
        exact ⟨pushed, children, hrest, hpushed, hlength.trans (Nat.le_succ _), hchildren⟩

/-! ## The loop -/

/-- Between two turns of the search for a map `start`. -/
structure Searches (start : PresizedCuckooMap β) (b1 b2 : UInt64) (m : PresizedCuckooMap β)
    (seen waiting : List CuckooPathEntry) : Prop where
  buckets : m.buckets = start.buckets
  numBuckets : m.numBuckets = start.numBuckets
  waits : Waits m.cpq waiting
  visited : Trail.Visited m seen
  trail : ∀ e ∈ waiting, ∃ path, Trail start b1 b2 seen e path
  depth_le : ∀ e ∈ waiting, e.depth ≤ kMaxBFSPathLen
  weight_le : totalWeight waiting ≤ kMaxQueueSize
  innerWeight_le : seen.length + totalInnerWeight waiting ≤ kVisitedListSize

section Loop

variable {start m : PresizedCuckooMap β} {b1 b2 k : UInt64} {v : β}
  {seen waiting : List CuckooPathEntry} {e : CuckooPathEntry}

theorem length_le_totalWeight (hdepth : ∀ e ∈ waiting, e.depth ≤ kMaxBFSPathLen) :
    waiting.length ≤ totalWeight waiting := by
  induction waiting with
  | nil => exact Nat.le_refl _
  | cons e waiting ih =>
      obtain ⟨he, hrest⟩ := List.forall_mem_cons.mp hdepth
      have hweight := weight_eq he
      have hle := ih hrest
      rw [totalWeight, List.map_cons, List.sum_cons, List.length_cons]
      rw [totalWeight] at hle
      omega

theorem cell_of_buckets (hbuckets : m.buckets = start.buckets) : cell m = cell start := by
  funext p
  rw [cell, cell, hbuckets]

theorem altBucket_of_numBuckets (hsame : m.numBuckets = start.numBuckets) (k b : UInt64) :
    m.altBucket k b = start.altBucket k b := by
  have hmap : m.fastMapToBuckets = start.fastMapToBuckets := by
    funext x
    rw [fastMapToBuckets, fastMapToBuckets, hsame]
  rw [altBucket, altBucket, hmap]

theorem Trail.parent_mem {path : List Place} (htrail : Trail start b1 b2 seen e path) :
    ∃ parent, (seen ++ [e])[e.parent]? = some parent ∧ ∀ q ∈ path.head?, q.1 = parent.bucket := by
  cases htrail with
  | root hdepth hparent hbucket =>
      have hlt : 0 < (seen ++ [e]).length := by simp
      rw [hparent]
      exact ⟨_, List.getElem?_eq_getElem hlt, fun q hq => by cases hq⟩
  | step htrail hparent =>
      rename_i parent path item hdepth hcell hfull hnext hback
      refine ⟨parent, ?_, fun q hq => ?_⟩
      · rw [List.getElem?_append_left (List.getElem?_eq_some_iff.mp hparent).1]
        exact hparent
      · obtain rfl := Option.some.inj hq
        rfl

theorem Trail.Visited.write {visited : Vector CuckooPathEntry kVisitedListSize}
    (hvisited : Trail.Visited m seen) (hroom : seen.length < kVisitedListSize)
    (hset : visited = m.visited.set seen.length e) :
    Trail.Visited { m with visited } (seen ++ [e]) := by
  refine ⟨by rw [List.length_append]; exact hroom, fun i x hi => ?_⟩
  have hlt := (List.getElem?_eq_some_iff.mp hi).1
  rw [List.length_append, List.length_singleton] at hlt
  have hbound : i < kVisitedListSize := by omega
  rw [read_eq hbound, hset]
  by_cases hlast : seen.length = i
  · subst hlast
    rw [List.getElem?_append_right (Nat.le_refl _), Nat.sub_self] at hi
    rw [Vector.getElem_set_self]
    exact congrArg Except.ok (Option.some.inj hi)
  · rw [List.getElem?_append_left (by omega)] at hi
    have hold := hvisited.get i x hi
    rw [read_eq hbound] at hold
    rw [Vector.getElem_set_ne hroom hbound hlast]
    exact hold

/-- The children of an entry have its path, with one more place. -/
theorem Trail.child {path : List Place} {parent child : CuckooPathEntry}
    (htrail : Trail start b1 b2 seen e path) (hfull : Full start e.bucket)
    (hb : e.bucket.toNat < start.buckets.length)
    (hparent : (seen ++ [e])[e.parent]? = some parent)
    (hchild : Child start e parent.bucket seen.length (start.buckets[e.bucket.toNat]) child) :
    Trail start b1 b2 (seen ++ [e]) child ((e.bucket, child.parentSlot) :: path) := by
  obtain ⟨known, hknown, hback⟩ := htrail.parent_mem
  obtain rfl : parent = known := Option.some.inj (hparent.symm.trans hknown)
  refine .step (htrail.append [e]) ?_ hchild.depth (cell_eq hb hchild.slot_lt) hfull
    hchild.bucket fun q hq heq => hchild.back (heq.symm.trans (hback q hq))
  rw [hchild.parent, List.getElem?_append_right (Nat.le_refl _), Nat.sub_self]
  rfl

theorem Child.of_numBuckets {back : UInt64} {parentIndex : ℕ} {bref : Bucket β}
    {child : CuckooPathEntry} (hchild : Child m e back parentIndex bref child)
    (hsame : m.numBuckets = start.numBuckets) : Child start e back parentIndex bref child :=
  ⟨hchild.depth, hchild.parent, hchild.slot_lt,
    hchild.bucket.trans (altBucket_of_numBuckets hsame _ _), hchild.back⟩

theorem totalWeight_append (first second : List CuckooPathEntry) :
    totalWeight (first ++ second) = totalWeight first + totalWeight second := by
  rw [totalWeight, List.map_append, List.sum_append]
  rfl

theorem totalInnerWeight_append (first second : List CuckooPathEntry) :
    totalInnerWeight (first ++ second) = totalInnerWeight first + totalInnerWeight second := by
  rw [totalInnerWeight, List.map_append, List.sum_append]
  rfl

/-- What all children of an entry count. -/
theorem totalWeight_le {children : List CuckooPathEntry} (hlength : children.length ≤ 4)
    (hdepth : ∀ child ∈ children, child.depth = e.depth + 1) :
    totalWeight children ≤ 4 * treeSize (5 - e.depth) ∧
      totalInnerWeight children ≤ 4 * treeSize (4 - e.depth) := by
  have hsum : ∀ (f : CuckooPathEntry → ℕ) (bound : ℕ), (∀ child ∈ children, f child = bound) →
      (children.map f).sum ≤ 4 * bound := by
    intro f bound hbound
    rw [List.map_congr_left hbound, List.map_const', List.sum_replicate_nat]
    exact Nat.mul_le_mul_right bound hlength
  constructor
  · refine hsum weight _ fun child hchild => ?_
    rw [weight, hdepth child hchild]
    congr 1
    omega
  · refine hsum innerWeight _ fun child hchild => ?_
    rw [innerWeight, hdepth child hchild]
    congr 1
    omega

theorem Searches.tail (hm : Searches start b1 b2 m seen (e :: waiting)) {popped : CuckooPathQueue}
    (hpopped : Waits popped waiting) :
    Searches start b1 b2 { m with cpq := popped } seen waiting := by
  have hweight := hm.weight_le
  have hinner := hm.innerWeight_le
  rw [totalWeight, List.map_cons, List.sum_cons] at hweight
  rw [totalInnerWeight, List.map_cons, List.sum_cons] at hinner
  exact {
    buckets := hm.buckets
    numBuckets := hm.numBuckets
    waits := hpopped
    visited := ⟨hm.visited.length_le, hm.visited.get⟩
    trail := (List.forall_mem_cons.mp hm.trail).2
    depth_le := (List.forall_mem_cons.mp hm.depth_le).2
    weight_le := (Nat.le_add_left _ _).trans hweight
    innerWeight_le := by
      rw [totalInnerWeight]
      omega }

/-- A full bucket is visited: its children wait behind the others. -/
theorem Searches.visit {popped : CuckooPathQueue}
    (hm : Searches start b1 b2 m seen (e :: waiting)) (hpopped : Waits popped waiting)
    (hb : e.bucket.toNat < start.buckets.length) (hfull : Full start e.bucket) :
    ∃ next seen' waiting', { m with cpq := popped }.visit k seen.length e = .ok (next, seen'.length) ∧
      Searches start b1 b2 next seen' waiting' ∧
      totalWeight waiting' + 1 ≤ totalWeight (e :: waiting) := by
  have hrest := hm.tail hpopped
  have he := hm.depth_le e List.mem_cons_self
  have hweight := hm.weight_le
  have hinner := hm.innerWeight_le
  have hown := weight_eq he
  rw [totalWeight, List.map_cons, List.sum_cons, ← totalWeight] at hweight ⊢
  rw [totalInnerWeight, List.map_cons, List.sum_cons, ← totalInnerWeight] at hinner
  have hqueue : kMaxQueueSize = 682 := rfl
  have hlist : kVisitedListSize = 170 := rfl
  have hslots : kSlotsPerBucket = 4 := rfl
  have hpath : kMaxBFSPathLen = 5 := rfl
  rw [PresizedCuckooMap.visit]
  by_cases hdepth : e.depth < kMaxBFSPathLen
  · rw [if_pos hdepth]
    have hownInner := innerWeight_eq hdepth
    have hroom : seen.length < kVisitedListSize := by omega
    have hwaiting := length_le_totalWeight hrest.depth_le
    have hvisited := hrest.visited.write hroom (e := e) rfl
    obtain ⟨path, htrail⟩ := hm.trail e List.mem_cons_self
    obtain ⟨parent, hparent, -⟩ := htrail.parent_mem
    have hbucket : m.bucketAt e.bucket = .ok (start.buckets[e.bucket.toNat]) := by
      rw [bucketAt, hm.buckets, List.getElem?_eq_getElem hb]
    obtain ⟨pushed, children, hpush, hpushed, hlength, hchildren⟩ :=
      @pushChildren_spec _ { m with cpq := popped, visited := m.visited.set seen.length e }
        ((k + e.bucket) % 4).toNat seen.length e parent (start.buckets[e.bucket.toNat])
        (List.range kSlotsPerBucket) popped waiting (hvisited.get _ _ hparent) hpopped (by
          rw [List.length_range]
          omega)
    rw [List.length_range] at hlength
    have hdepths : ∀ child ∈ children, child.depth = e.depth + 1 :=
      fun child hchild => (hchildren child hchild).depth
    obtain ⟨hchildWeight, hchildInner⟩ := totalWeight_le hlength hdepths
    have htree : innerWeight e = treeSize (5 - e.depth) := rfl
    refine ⟨{ m with visited := m.visited.set seen.length e, cpq := pushed }, seen ++ [e],
      waiting ++ children, ?_, ?_, ?_⟩
    · rw [write_eq hroom, List.length_append, List.length_singleton]
      simp only [Except.bind]
      change (m.bucketAt e.bucket).bind _ = _
      rw [hbucket]
      simp only [Except.bind, hpush]
    · exact {
        buckets := hm.buckets
        numBuckets := hm.numBuckets
        waits := hpushed
        visited := ⟨hvisited.length_le, hvisited.get⟩
        trail := by
          refine List.forall_mem_append.mpr ⟨fun x hx => ?_, fun child hchild => ?_⟩
          · obtain ⟨own, hx⟩ := hrest.trail x hx
            exact ⟨own, hx.append [e]⟩
          · have hsame := (hchildren child hchild).of_numBuckets hm.numBuckets
            exact ⟨_, htrail.child hfull hb hparent hsame⟩
        depth_le := by
          refine List.forall_mem_append.mpr ⟨hrest.depth_le, fun child hchild => ?_⟩
          rw [hdepths child hchild]
          exact hdepth
        weight_le := by
          rw [totalWeight_append]
          omega
        innerWeight_le := by
          rw [totalInnerWeight_append, List.length_append, List.length_singleton]
          omega }
    · rw [totalWeight_append]
      omega
  · rw [if_neg hdepth]
    exact ⟨_, seen, waiting, rfl, hrest, by omega⟩

/-- The items are those of `start`, moved along a path from one of the buckets, at whose end the
new one is. -/
structure Displaced (start : PresizedCuckooMap β) (b1 b2 k : UInt64) (v : β)
    (last : PresizedCuckooMap β) : Prop where
  numBuckets : last.numBuckets = start.numBuckets
  length : last.buckets.length = start.buckets.length
  path : ∃ seen e path slot w, Trail start b1 b2 seen e path ∧ e.depth ≤ kMaxBFSPathLen ∧
    cell start (e.bucket, slot) = some (kUnusedSlot, w) ∧
    cell last = displace (cell start) (e.bucket, slot) (some (k, v)) path

/-- The search ends: it finds nothing and has changed no bucket, or it has made room. -/
theorem Searches.loop {turns : ℕ} (hm : Searches start b1 b2 m seen waiting)
    (hrange : ∀ seen e path, Trail start b1 b2 seen e path →
      e.bucket.toNat < start.buckets.length)
    (hturns : totalWeight waiting + kMaxBFSPathLen < turns) :
    (∃ last, searchLoop k v turns m seen.length = .ok (false, last) ∧
      last.buckets = start.buckets ∧ last.numBuckets = start.numBuckets) ∨
    ∃ last, searchLoop k v turns m seen.length = .ok (true, last) ∧
      Displaced start b1 b2 k v last := by
  induction turns generalizing m seen waiting with
  | zero => exact absurd hturns (Nat.not_lt_zero _)
  | succ turns ih =>
      rw [searchLoop]
      cases waiting with
      | nil =>
          rw [if_pos (hm.waits.empty_iff.mpr rfl)]
          exact .inl ⟨m, rfl, hm.buckets, hm.numBuckets⟩
      | cons e waiting =>
          rw [if_neg fun hempty => List.cons_ne_nil _ _ (hm.waits.empty_iff.mp hempty)]
          obtain ⟨popped, hpop, hpopped⟩ := hm.waits.popFront
          obtain ⟨path, htrail⟩ := hm.trail e List.mem_cons_self
          have hb := hrange _ _ _ htrail
          have hcells := cell_of_buckets hm.buckets
          obtain ⟨space, hspace, hfound, hnone⟩ :=
            @spaceAvailable_spec _ m e.bucket (by rwa [hm.buckets])
          rw [hpop]
          simp only [Except.bind, hspace]
          cases space with
          | some slot =>
              obtain ⟨w, hfree⟩ := hfound slot rfl
              have hlength := htrail.depth_eq
              have hdepth := hm.depth_le e List.mem_cons_self
              obtain ⟨buckets, hmoved, hsame, hdisplaced⟩ :=
                @Trail.moveItems_eq _ start b1 b2 seen e path k v { m with cpq := popped } turns slot
                  htrail ⟨hm.visited.length_le, hm.visited.get⟩ (congrArg List.length hm.buckets)
                  (show (cell m _).isSome = true by rw [hfree]; rfl) (by omega)
              rw [hcells] at hfree
              refine .inr ⟨{ m with cpq := popped, buckets }, ?_, hm.numBuckets,
                hsame.trans (congrArg List.length hm.buckets), seen, e, path, slot, w, htrail, hdepth,
                hfree, ?_⟩
              · simp only [hmoved]
                rfl
              · rw [hdisplaced, ← hcells]
                rfl
          | none =>
              have hfull : Full start e.bucket := by
                intro slot w
                rw [← hcells]
                exact hnone rfl slot w
              obtain ⟨next, seen', waiting', hvisit, hnext, hless⟩ :=
                @Searches.visit _ start m b1 b2 k seen waiting e popped hm hpopped hb hfull
              simp only [hvisit]
              exact ih hnext (by omega)

end Loop

end Cuckoo

end ContainerScheduler.Analysis
