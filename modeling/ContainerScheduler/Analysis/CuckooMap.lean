/-
# The cuckoo map keeps its keys

A map stores each key once, in one of its two buckets, with the value that was given when it was
inserted. An insertion adds its key to what is stored, or changes no bucket.
-/

import ContainerScheduler.Analysis.CuckooSearch

namespace ContainerScheduler.Analysis

open Containers
open Containers.PresizedCuckooMap
open Math
open Math.Displacement

variable {β : Type}

namespace Cuckoo

/-- One of the two buckets of a key. -/
def IsBucketOf (m : PresizedCuckooMap β) (k b : UInt64) : Prop :=
  b = m.fastMapToBuckets k ∨ b = m.fastMapToBuckets (h2 k)

/-- A map with the given contents. -/
structure Stores (m : PresizedCuckooMap β) (contents : UInt64 → Option β) : Prop where
  length : m.buckets.length = m.numBuckets.toNat
  positive : 0 < m.numBuckets.toNat
  placed : ∀ p k v, cell m p = some (k, v) → k ≠ kUnusedSlot → IsBucketOf m k p.1
  unique : ∀ p q k v w, cell m p = some (k, v) → cell m q = some (k, w) → k ≠ kUnusedSlot → p = q
  contents : ∀ k v, k ≠ kUnusedSlot → ((∃ p, cell m p = some (k, v)) ↔ contents k = some v)

section Maps

variable {m : PresizedCuckooMap β} {contents : UInt64 → Option β} {k : UInt64} {v : β}

theorem fastMapToBuckets_lt (hpositive : 0 < m.numBuckets.toNat) (x : UInt64) :
    (m.fastMapToBuckets x).toNat < m.numBuckets.toNat := by
  have hx := x.toNat_lt
  have hlt : x.toNat * m.numBuckets.toNat / 2 ^ 64 < m.numBuckets.toNat := by
    refine Nat.div_lt_of_lt_mul ?_
    exact (Nat.mul_lt_mul_right hpositive).mpr hx
  rw [fastMapToBuckets, multiplyHighU64, UInt64.toNat_ofNat']
  exact (Nat.mod_le _ _).trans_lt hlt

theorem Stores.bucket_lt (hm : Stores m contents) (x : UInt64) :
    (m.fastMapToBuckets x).toNat < m.buckets.length := by
  rw [hm.length]
  exact fastMapToBuckets_lt hm.positive x

theorem isBucketOf_altBucket (m : PresizedCuckooMap β) (k b : UInt64) :
    IsBucketOf m k (m.altBucket k b) := by
  rw [altBucket]
  split_ifs
  · exact .inl rfl
  · exact .inr rfl

theorem Stores.trail_lt (hm : Stores m contents) {x y : UInt64} {seen : List CuckooPathEntry}
    {e : CuckooPathEntry} {path : List Place}
    (htrail : Trail m (m.fastMapToBuckets x) (m.fastMapToBuckets y) seen e path) :
    e.bucket.toNat < m.buckets.length := by
  cases htrail with
  | root hdepth hparent hbucket =>
      rcases hbucket with heq | heq
      · rw [heq]
        exact hm.bucket_lt x
      · rw [heq]
        exact hm.bucket_lt y
  | step htrail hparent hdepth hcell hfull hnext hback =>
      rw [hnext]
      rcases isBucketOf_altBucket m _ _ with heq | heq
      · rw [heq]
        exact hm.bucket_lt _
      · rw [heq]
        exact hm.bucket_lt _

theorem keyTransform_eq (hk : k ≠ kUnusedSlot) : keyTransform k = k := by
  rw [keyTransform, if_neg hk, UInt64.add_zero]

/-- What is found is what is stored. -/
theorem Stores.find_eq (hm : Stores m contents) (hk : k ≠ kUnusedSlot) :
    m.find k = .ok (contents k) := by
  rw [find, keyTransform_eq hk]
  obtain ⟨first, hfirst, hsome, hnone⟩ := @findInBucket_spec _ m _ k (hm.bucket_lt k)
  rw [hfirst]
  simp only [Except.bind]
  cases first with
  | some v =>
      obtain ⟨slot, hcell⟩ := hsome v rfl
      rw [(hm.contents k v hk).mp ⟨_, hcell⟩]
  | none =>
      obtain ⟨second, hsecond, hvalue, hmissing⟩ :=
        @findInBucket_spec _ m _ k (hm.bucket_lt (h2 k))
      simp only [hsecond]
      cases second with
      | some v =>
          obtain ⟨slot, hcell⟩ := hvalue v rfl
          rw [(hm.contents k v hk).mp ⟨_, hcell⟩]
      | none =>
          cases hcontents : contents k with
          | none => rfl
          | some v =>
              obtain ⟨⟨b, slot⟩, hcell⟩ := (hm.contents k v hk).mpr hcontents
              rcases hm.placed _ k v hcell hk with rfl | rfl
              · exact absurd hcell (hnone rfl slot v)
              · exact absurd hcell (hmissing rfl slot v)

end Maps

/-! ## Displaced items -/

section Displacing

variable {m last : PresizedCuckooMap β} {contents : UInt64 → Option β} {k : UInt64} {v : β}

/-- An item, unless it is unused, is in one of its buckets. -/
def InPlace (m : PresizedCuckooMap β) (p : Place) (item : Option (UInt64 × β)) : Prop :=
  ∀ k v, item = some (k, v) → k ≠ kUnusedSlot → IsBucketOf m k p.1

/-- Every item of a path moves to its other bucket. -/
theorem Trail.isChain {b1 b2 : UInt64} {seen : List CuckooPathEntry} {e : CuckooPathEntry}
    {path : List Place} (htrail : Trail m b1 b2 seen e path) (slot : ℕ) :
    List.IsChain (fun q p => InPlace m q (cell m p)) ((e.bucket, slot) :: path) ∧
      ∀ q ∈ ((e.bucket, slot) :: path).getLast?, q.1 = b1 ∨ q.1 = b2 := by
  induction htrail generalizing slot with
  | root hdepth hparent hbucket =>
      refine ⟨.singleton _, fun q hq => ?_⟩
      obtain rfl := Option.some.inj hq
      exact hbucket
  | @step e parent path item htrail hparent hdepth hcell hfull hnext hback ih =>
      obtain ⟨hchain, hlast⟩ := ih e.parentSlot
      refine ⟨List.isChain_cons_cons.mpr ⟨fun j w hitem _ => ?_, hchain⟩, fun q hq => ?_⟩
      · obtain rfl := Option.some.inj (hcell.symm.trans hitem)
        rw [hnext]
        exact isBucketOf_altBucket m j parent.bucket
      · rw [List.getLast?_cons_cons] at hq
        exact hlast q hq

/-- The items with a new one in a free place. -/
theorem Stores.update_free (hm : Stores m contents) (hk : k ≠ kUnusedSlot)
    (habsent : contents k = none) {free : Place} {w : β}
    (hfree : cell m free = some (kUnusedSlot, w)) (p : Place) (j : UInt64) (u : β)
    (hj : j ≠ kUnusedSlot) : Function.update (cell m) free (some (k, v)) p = some (j, u) ↔
      (j = k ∧ u = v ∧ p = free) ∨ (j ≠ k ∧ cell m p = some (j, u)) := by
  by_cases hp : p = free
  · rw [hp, Function.update_self, hfree]
    constructor
    · intro heq
      obtain ⟨rfl, rfl⟩ := Prod.mk.inj (Option.some.inj heq)
      exact .inl ⟨rfl, rfl, rfl⟩
    · rintro (⟨rfl, rfl, -⟩ | ⟨-, heq⟩)
      · rfl
      · exact absurd (Prod.mk.inj (Option.some.inj heq)).1.symm hj
  · rw [Function.update_of_ne hp]
    constructor
    · intro heq
      refine .inr ⟨?_, heq⟩
      rintro rfl
      have hstored := (hm.contents j u hk).mp ⟨p, heq⟩
      rw [habsent] at hstored
      cases hstored
    · rintro (⟨-, -, hfree⟩ | ⟨-, heq⟩)
      · exact absurd hfree hp
      · exact heq

theorem Stores.displaced (hm : Stores m contents) (hk : k ≠ kUnusedSlot)
    (habsent : contents k = none)
    (hlast : Displaced m (m.fastMapToBuckets k) (m.fastMapToBuckets (h2 k)) k v last) :
    Stores last (Function.update contents k (some v)) := by
  obtain ⟨hnum, hlength, seen, e, path, slot, w, htrail, hdepth, hfree, hcell⟩ := hlast
  have hmap : last.fastMapToBuckets = m.fastMapToBuckets := by
    funext x
    rw [fastMapToBuckets, fastMapToBuckets, hnum]
  have hnodup := htrail.nodup hdepth hfree
  obtain ⟨hchain, hend⟩ := htrail.isChain slot
  have hplaced : ∀ p, InPlace m p (cell last p) := by
    rw [hcell]
    refine displace_good hnodup (fun q _ j u => hm.placed q j u) hchain fun q hq j u hitem _ => ?_
    obtain rfl : k = j := (Prod.mk.inj (Option.some.inj hitem)).1
    exact hend q hq
  obtain ⟨σ, hperm⟩ : ∃ σ : Equiv.Perm Place,
      cell last = Function.update (cell m) (e.bucket, slot) (some (k, v)) ∘ σ :=
    ⟨_, hcell.trans (displace_eq (cell m) (e.bucket, slot) (some (k, v)) path)⟩
  have hitems := hm.update_free hk habsent hfree (v := v)
  exact {
    length := by rw [hlength, hnum, hm.length]
    positive := hnum ▸ hm.positive
    placed := fun p j u hitem hj => by
      rw [IsBucketOf, hmap]
      exact hplaced p j u hitem hj
    unique := fun p q j u z hp hq hj => by
      rw [hperm] at hp hq
      refine σ.injective ?_
      rcases (hitems _ j u hj).mp hp with ⟨rfl, -, hpfree⟩ | ⟨hne, hpcell⟩
      · rcases (hitems _ j z hj).mp hq with ⟨-, -, hqfree⟩ | ⟨hne, -⟩
        · rw [hpfree, hqfree]
        · exact absurd rfl hne
      · rcases (hitems _ j z hj).mp hq with ⟨rfl, -, -⟩ | ⟨-, hqcell⟩
        · exact absurd rfl hne
        · exact hm.unique _ _ j u z hpcell hqcell hj
    contents := fun j u hj => by
      rw [hperm]
      have hexists : (∃ p, (Function.update (cell m) (e.bucket, slot) (some (k, v)) ∘ σ) p =
          some (j, u)) ↔
          ∃ p, Function.update (cell m) (e.bucket, slot) (some (k, v)) p = some (j, u) :=
        (σ.surjective.exists (p := fun q =>
          Function.update (cell m) (e.bucket, slot) (some (k, v)) q = some (j, u))).symm
      rw [hexists]
      simp only [hitems _ j u hj]
      by_cases heq : j = k
      · subst heq
        rw [Function.update_self]
        constructor
        · rintro ⟨p, ⟨-, rfl, -⟩ | ⟨hne, -⟩⟩
          · rfl
          · exact absurd rfl hne
        · intro hu
          exact ⟨_, .inl ⟨rfl, (Option.some.inj hu).symm, rfl⟩⟩
      · rw [Function.update_of_ne heq, ← hm.contents j u hj]
        constructor
        · rintro ⟨p, ⟨hsame, -⟩ | ⟨-, hp⟩⟩
          · exact absurd hsame heq
          · exact ⟨p, hp⟩
        · rintro ⟨p, hp⟩
          exact ⟨p, .inr ⟨heq, hp⟩⟩ }

end Displacing

/-! ## Insertion -/

section Inserting

variable {m : PresizedCuckooMap β} {contents : UInt64 → Option β} {k : UInt64} {v : β} {turns : ℕ}

theorem Stores.of_buckets {last : PresizedCuckooMap β} (hm : Stores m contents)
    (hbuckets : last.buckets = m.buckets) (hnum : last.numBuckets = m.numBuckets) :
    Stores last contents := by
  have hcell := cell_of_buckets hbuckets
  have hmap : last.fastMapToBuckets = m.fastMapToBuckets := by
    funext x
    rw [fastMapToBuckets, fastMapToBuckets, hnum]
  refine ⟨by rw [hbuckets, hnum, hm.length], hnum ▸ hm.positive, ?_, ?_, ?_⟩
  · intro p j u hitem hj
    rw [IsBucketOf, hmap]
    exact hm.placed p j u (hcell ▸ hitem) hj
  · rw [hcell]
    exact hm.unique
  · rw [hcell]
    exact hm.contents

/-- The search from two buckets. -/
theorem cuckooInsert_spec (hm : Stores m contents)
    (hturns : kMaxQueueSize + kMaxBFSPathLen < turns) (x y : UInt64) :
    (∃ last, m.cuckooInsert turns k v (m.fastMapToBuckets x) (m.fastMapToBuckets y) =
      .ok (false, last) ∧ last.buckets = m.buckets ∧ last.numBuckets = m.numBuckets) ∨
    ∃ last, m.cuckooInsert turns k v (m.fastMapToBuckets x) (m.fastMapToBuckets y) =
      .ok (true, last) ∧
      Displaced m (m.fastMapToBuckets x) (m.fastMapToBuckets y) k v last := by
  have hempty : Waits m.cpq.reset [] := RingQueue.nil (show 0 < kMaxQueueSize by decide)
  obtain ⟨first, hfirst, hone⟩ := @Waits.pushBack _ _ ⟨m.fastMapToBuckets x, 1, 0, 0⟩ hempty
    (by decide)
  obtain ⟨second, hsecond, htwo⟩ := @Waits.pushBack _ _ ⟨m.fastMapToBuckets y, 1, 0, 0⟩ hone
    (show 2 < kMaxQueueSize by decide)
  have hsearch : Searches m (m.fastMapToBuckets x) (m.fastMapToBuckets y)
      { m with cpq := second } []
      [⟨m.fastMapToBuckets x, 1, 0, 0⟩, ⟨m.fastMapToBuckets y, 1, 0, 0⟩] := {
    buckets := rfl
    numBuckets := rfl
    waits := htwo
    visited := ⟨Nat.zero_le _, fun i e he => by cases he⟩
    trail := List.forall_mem_cons.mpr ⟨⟨[], .root rfl rfl (.inl rfl)⟩,
      List.forall_mem_singleton.mpr ⟨[], .root rfl rfl (.inr rfl)⟩⟩
    depth_le := List.forall_mem_cons.mpr ⟨show 1 ≤ 5 by decide,
      List.forall_mem_singleton.mpr (show 1 ≤ 5 by decide)⟩
    weight_le := show 682 ≤ 682 from Nat.le_refl _
    innerWeight_le := show 170 ≤ 170 from Nat.le_refl _ }
  rw [cuckooInsert, hfirst]
  simp only [Except.bind, hsecond]
  exact hsearch.loop (fun _ _ _ htrail => hm.trail_lt htrail) hturns

theorem Stores.insertUnique (hm : Stores m contents) (hk : k ≠ kUnusedSlot)
    (hturns : kMaxQueueSize + kMaxBFSPathLen < turns) :
    (contents k ≠ none ∧ m.insertUnique turns k v = .ok (false, m)) ∨
    contents k = none ∧
      ((∃ last, m.insertUnique turns k v = .ok (true, last) ∧
        Stores last (Function.update contents k (some v))) ∨
      ∃ last, m.insertUnique turns k v = .ok (false, last) ∧ last.buckets = m.buckets ∧
        Stores last contents) := by
  rw [PresizedCuckooMap.insertUnique, keyTransform_eq hk]
  have hbuckets : ∀ b ∈ [m.fastMapToBuckets k, m.fastMapToBuckets (h2 k)],
      b.toNat < m.buckets.length :=
    List.forall_mem_cons.mpr ⟨hm.bucket_lt k, List.forall_mem_singleton.mpr (hm.bucket_lt _)⟩
  rcases @scanBuckets_spec _ m k none _ hbuckets with ⟨hscan, b, hb, slot, w, hcell⟩ |
    ⟨target, hscan, hscanned⟩
  · refine .inl ⟨?_, by rw [hscan]; rfl⟩
    rw [(hm.contents k w hk).mp ⟨_, hcell⟩]
    exact Option.some_ne_none w
  have habsent : contents k = none := by
    by_contra hne
    obtain ⟨w, hw⟩ := Option.ne_none_iff_exists'.mp hne
    obtain ⟨p, hp⟩ := (hm.contents k w hk).mpr hw
    have hmem : p.1 ∈ [m.fastMapToBuckets k, m.fastMapToBuckets (h2 k)] := by
      rcases hm.placed p k w hp hk with heq | heq
      · exact heq ▸ List.mem_cons_self
      · exact heq ▸ List.mem_cons_of_mem _ List.mem_cons_self
    exact hscanned.absent p.1 hmem p.2 w hp
  refine .inr ⟨habsent, ?_⟩
  rw [hscan]
  simp only [Except.bind]
  cases target with
  | some p =>
      obtain ⟨hmem, w, hfree⟩ := (hscanned.free p rfl).resolve_left (fun heq => by cases heq)
      have hsome : (cell m (p.1, p.2)).isSome = true := by
        rw [hfree]
        rfl
      obtain ⟨buckets, hinsert, hsame, hcell⟩ := insertInternal_cell (k := k) (v := v) hsome
      refine .inl ⟨{ m with buckets }, ?_, hm.displaced hk habsent ⟨rfl, hsame, [],
        ⟨p.1, 1, 0, 0⟩, [], p.2, w, .root rfl rfl ?_, show 1 ≤ 5 by decide, hfree, hcell⟩⟩
      · simp only [hinsert]
        rfl
      · simpa using hmem
  | none =>
      rcases @cuckooInsert_spec _ m contents k v turns hm hturns k (h2 k) with
        ⟨last, hinsert, hsame, hnum⟩ | ⟨last, hinsert, hdisplaced⟩
      · exact .inr ⟨last, hinsert, hsame, hm.of_buckets hsame hnum⟩
      · exact .inl ⟨last, hinsert, hm.displaced hk habsent hdisplaced⟩

end Inserting

/-! ## Runs -/

/-- Calls with their answers, and the map after them. -/
inductive InsertRun (turns : ℕ) (start : PresizedCuckooMap β) :
    List (UInt64 × β × Bool) → PresizedCuckooMap β → Prop
  | nil : InsertRun turns start [] start
  | insert {calls : List (UInt64 × β × Bool)} {m next : PresizedCuckooMap β} {k : UInt64} {v : β}
      {answer : Bool} (hrun : InsertRun turns start calls m) (hk : k ≠ kUnusedSlot)
      (hinsert : m.insertUnique turns k v = .ok (answer, next)) :
      InsertRun turns start (calls ++ [(k, v, answer)]) next

section Runs

variable {turns : ℕ} {numBuckets : UInt64} {queue : Vector CuckooPathEntry kMaxQueueSize}
  {visited : Vector CuckooPathEntry kVisitedListSize} {value : β}

theorem stores_clear (hnum : 32 ≤ numBuckets) :
    Stores (clear numBuckets queue visited value) fun _ => none := by
  have hcell : ∀ p k v, cell (clear numBuckets queue visited value) p = some (k, v) →
      k = kUnusedSlot := by
    rintro ⟨b, slot⟩ k v hitem
    obtain ⟨bucket, hbucket, hslot⟩ := Option.bind_eq_some_iff.mp hitem
    obtain rfl := List.eq_of_mem_replicate (List.mem_of_getElem? hbucket)
    split_ifs at hslot
    rw [Vector.getElem_replicate] at hslot
    exact (Prod.mk.inj (Option.some.inj hslot)).1.symm
  have hpositive := UInt64.le_iff_toNat_le.mp hnum
  refine ⟨List.length_replicate, Nat.lt_of_lt_of_le (by decide) hpositive, ?_, ?_, ?_⟩
  · exact fun p k v hitem hk => absurd (hcell p k v hitem) hk
  · exact fun p _ k v _ hitem _ hk => absurd (hcell p k v hitem) hk
  · refine fun k v hk => ⟨fun ⟨p, hitem⟩ => absurd (hcell p k v hitem) hk, fun heq => ?_⟩
    cases heq

/-- After calls, the keys that were inserted are stored. -/
theorem stores_of_run {start : PresizedCuckooMap β} {calls : List (UInt64 × β × Bool)}
    {m : PresizedCuckooMap β} (hstart : Stores start fun _ => none)
    (hturns : kMaxQueueSize + kMaxBFSPathLen < turns) (hrun : InsertRun turns start calls m) :
    ∃ contents, Stores m contents ∧ ∀ k v, contents k = some v ↔ (k, v, true) ∈ calls := by
  induction hrun with
  | nil => exact ⟨_, hstart, fun k v => by simp⟩
  | @insert calls m next k v answer hrun hk hinsert ih =>
      obtain ⟨contents, hm, hcalls⟩ := ih
      rcases hm.insertUnique hk hturns (v := v) with ⟨-, hrefused⟩ |
        ⟨habsent, ⟨last, hstored, hlast⟩ | ⟨last, hrefused, -, hlast⟩⟩
      · obtain ⟨rfl, rfl⟩ := Prod.mk.inj (Except.ok.inj (hrefused.symm.trans hinsert))
        refine ⟨contents, hm, fun j u => ?_⟩
        simp [hcalls]
      · obtain ⟨rfl, rfl⟩ := Prod.mk.inj (Except.ok.inj (hstored.symm.trans hinsert))
        refine ⟨_, hlast, fun j u => ?_⟩
        rw [List.mem_append, List.mem_singleton, ← hcalls]
        by_cases hj : j = k
        · subst hj
          rw [Function.update_self, habsent]
          simp [eq_comm]
        · rw [Function.update_of_ne hj]
          simp [hj]
      · obtain ⟨rfl, rfl⟩ := Prod.mk.inj (Except.ok.inj (hrefused.symm.trans hinsert))
        refine ⟨contents, hlast, fun j u => ?_⟩
        simp [hcalls]

end Runs

end Cuckoo

open Cuckoo

/-- After any calls, what is found is what was inserted, and the next call ends with all its
indices in range. -/
theorem cuckoo_map_keeps_keys {turns : ℕ} {numBuckets : UInt64}
    {queue : Vector CuckooPathEntry kMaxQueueSize}
    {visited : Vector CuckooPathEntry kVisitedListSize} {value : β}
    {calls : List (UInt64 × β × Bool)} {m : PresizedCuckooMap β} (hnum : 32 ≤ numBuckets)
    (hturns : kMaxQueueSize + kMaxBFSPathLen < turns)
    (hrun : InsertRun turns (clear numBuckets queue visited value) calls m) :
    (∀ k, k ≠ kUnusedSlot →
      ∃ found, m.find k = .ok found ∧ ∀ v, found = some v ↔ (k, v, true) ∈ calls) ∧
    ∀ k v, k ≠ kUnusedSlot → ∃ answer next, m.insertUnique turns k v = .ok (answer, next) ∧
      ((∃ w, (k, w, true) ∈ calls) → answer = false) ∧
      (answer = false → next.buckets = m.buckets) := by
  obtain ⟨contents, hm, hcalls⟩ := stores_of_run (stores_clear hnum) hturns hrun
  refine ⟨fun k hk => ⟨_, hm.find_eq hk, hcalls k⟩, fun k v hk => ?_⟩
  rcases hm.insertUnique hk hturns (v := v) with ⟨-, hrefused⟩ |
    ⟨habsent, ⟨last, hstored, -⟩ | ⟨last, hrefused, hsame, -⟩⟩
  · exact ⟨_, _, hrefused, fun _ => rfl, fun _ => rfl⟩
  · refine ⟨_, _, hstored, ?_, fun hfalse => by cases hfalse⟩
    rintro ⟨w, hw⟩
    rw [(hcalls k w).mpr hw] at habsent
    cases habsent
  · exact ⟨_, _, hrefused, fun _ => rfl, fun _ => hsame⟩

/-- A key in a map of 32 buckets. -/
theorem cuckoo_map_keeps_seven :
    let start := clear 32 (Vector.replicate _ ⟨0, 0, 0, 0⟩) (Vector.replicate _ ⟨0, 0, 0, 0⟩) 0
    ∃ m, InsertRun 700 start [(7, 1, true)] m ∧ m.find 7 = .ok (some 1) ∧
      ∃ next, m.insertUnique 700 7 2 = .ok (false, next) ∧ next.buckets = m.buckets := by
  intro start
  have hanswer : (start.insertUnique 700 7 1).map Prod.fst = .ok true := by decide
  obtain ⟨⟨answer, m⟩, hinsert, rfl⟩ : ∃ result, start.insertUnique 700 7 1 = .ok result ∧
      result.1 = true := by
    cases hresult : start.insertUnique 700 7 1 with
    | error e => rw [hresult] at hanswer; cases hanswer
    | ok result => rw [hresult] at hanswer; exact ⟨result, rfl, Except.ok.inj hanswer⟩
  have hrun : InsertRun 700 start [(7, 1, true)] m := .insert .nil (by decide) hinsert
  obtain ⟨hfind, hnext⟩ := cuckoo_map_keeps_keys (by decide) (by decide) hrun
  obtain ⟨found, hfound, hiff⟩ := hfind 7 (by decide)
  obtain ⟨answer, next, hagain, hrefused, hsame⟩ := hnext 7 2 (by decide)
  obtain rfl := hrefused ⟨1, List.mem_singleton_self _⟩
  refine ⟨m, hrun, ?_, next, hagain, hsame rfl⟩
  rw [hfound, (hiff 1).mpr (List.mem_singleton_self _)]

end ContainerScheduler.Analysis
