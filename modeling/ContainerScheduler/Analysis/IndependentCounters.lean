/-
# Pending counts are independent counters

Each node has three natural numbers of its own: its pending count, its dead count, and whether it
has started. Every run of calls that respects the declared maxima and the checks is a run on the
array of bytes, and each handle shows there what its numbers are: what is written stays inside the
fields, and the handles' bytes do not overlap.
-/

import ContainerScheduler.Executor.PendingCounts

namespace ContainerScheduler.Analysis

open Math Executor
open Executor.PendingCounts (NodeState Handle Call asInt createHandle
  createHandles machine)

/-! ## The counters -/

/-- The counts of one node. -/
structure Counter where
  pending : ℕ
  dead : ℕ
  started : Bool
deriving DecidableEq

namespace Counter

def nodeState (c : Counter) : NodeState :=
  if c.started then if c.pending = 0 then .started else .completed
  else if c.pending = 0 then .pendingReady else .pendingNotReady

/-- A node that has started shows no pending count. -/
def shown (c : Counter) : ℕ := if c.nodeState = .pendingNotReady then c.pending else 0

/-- A negative `v` raises the pending count, at most to its maximum. -/
def decrement (max : ℕ × ℕ) (c : Counter) (v : ℤ) : Option Counter :=
  if v ≤ c.shown ∧ (0 ≤ v ∨ c.pending - v ≤ max.1) then
    some { c with pending := (c.pending - v).toNat }
  else none

def incrementDead (max : ℕ × ℕ) (c : Counter) : Option Counter :=
  if c.nodeState = .pendingNotReady then
    if c.dead < max.2 then some { c with dead := c.dead + 1 } else none
  else some c

def markLive (c : Counter) : Counter :=
  if c.nodeState = .pendingNotReady then { c with pending := c.pending / 2 * 2 } else c

def markStarted (c : Counter) : Option Counter :=
  if c.shown = 0 ∧ c.started = false then some { c with started := true } else none

def markCompleted (c : Counter) : Option Counter :=
  if c.started then some { c with pending := 1 } else none

def initial (max : ℕ × ℕ) (pendingCount : ℕ) : Option Counter :=
  if pendingCount ≤ max.1 then some ⟨pendingCount, 0, false⟩ else none

/-- The calls that meet the checks and the maxima. A counter starts with its initial count. -/
def call (max : ℕ × ℕ) : Option Counter → Call → Option Counter
  | _, .setInitialCount pendingCount => initial max pendingCount
  | none, _ => none
  | some c, .decrementPending v => c.decrement max v
  | some c, .markLive => some c.markLive
  | some c, .incrementDeadCount => c.incrementDead max
  | some c, .adjustForActivation incrementDead =>
      (if incrementDead then c.incrementDead max else some c).bind fun counted =>
        counted.decrement max 1
  | some c, .markStarted => c.markStarted
  | some c, .markCompleted => c.markCompleted

end Counter

/-- The counters of all nodes, each with its own maxima. -/
def counters (maxima : List (ℕ × ℕ)) : Machine (ℕ → Option Counter) (ℕ × Call) where
  init := fun _ => none
  step state label := maxima[label.1]?.bind fun max =>
    (Counter.call max (state label.1) label.2).map fun c =>
      Function.update state label.1 (some c)

/-! ## One handle -/

section Fields

variable {counts : PendingCounts} {h h' : Handle} {field : BitField} {content : ℕ}

/-- The counter a handle shows. -/
def counterOf (counts : PendingCounts) (h : Handle) : Counter where
  pending := counts.read h h.rep.pending
  dead := counts.read h h.rep.deadCount
  started := decide (counts.read h h.rep.hasStarted ≠ 0)

theorem deadCount_inside (rep : CountsRep) :
    rep.deadCount.shift + rep.deadCount.bits ≤ 8 * rep.size := by
  have hbelow : _ ≤ _ := rep.deadCount_below
  have hinside := rep.inside
  omega

theorem pending_below_hasStarted (rep : CountsRep) : rep.pending.Below rep.hasStarted := by
  have hpending : _ ≤ _ := rep.pending_below
  have hdead : _ ≤ _ := rep.deadCount_below
  change _ ≤ _
  omega

theorem pending_inside (rep : CountsRep) :
    rep.pending.shift + rep.pending.bits ≤ 8 * rep.size := by
  have hbelow : _ ≤ _ := rep.pending_below
  have hinside := deadCount_inside rep
  omega

/-- The struct after a field of it was written. -/
theorem struct_write (hinside : field.shift + field.bits ≤ 8 * h.rep.size) :
    (counts.write h field content).struct h = field.set (counts.struct h) content := by
  have hbytes : 256 ^ h.rep.size = 2 ^ (8 * h.rep.size) := by
    rw [pow_mul]
    rfl
  apply Bytes.load_store_of_lt
  rw [hbytes]
  apply BitField.set_lt _ hinside
  rw [← hbytes]
  apply Bytes.load_lt

theorem counterOf_write_pending (hfits : content < 2 ^ h.rep.pending.bits) :
    counterOf (counts.write h h.rep.pending content) h =
      { counterOf counts h with pending := content } := by
  unfold counterOf PendingCounts.read
  rw [struct_write (pending_inside h.rep), BitField.get_set_of_lt hfits,
    BitField.get_set_of_above h.rep.pending_below,
    BitField.get_set_of_above (pending_below_hasStarted h.rep)]

theorem counterOf_write_deadCount (hfits : content < 2 ^ h.rep.deadCount.bits) :
    counterOf (counts.write h h.rep.deadCount content) h =
      { counterOf counts h with dead := content } := by
  unfold counterOf PendingCounts.read
  rw [struct_write (deadCount_inside h.rep), BitField.get_set_of_lt hfits,
    BitField.get_set_of_below h.rep.pending_below,
    BitField.get_set_of_above h.rep.deadCount_below]

theorem counterOf_write_hasStarted (hfits : content < 2) :
    counterOf (counts.write h h.rep.hasStarted content) h =
      { counterOf counts h with started := decide (content ≠ 0) } := by
  rw [← pow_one 2, ← h.rep.hasStarted_bits] at hfits
  unfold counterOf PendingCounts.read
  rw [struct_write h.rep.inside, BitField.get_set_of_lt hfits,
    BitField.get_set_of_below (pending_below_hasStarted h.rep),
    BitField.get_set_of_below h.rep.deadCount_below]

theorem nodeState_eq (counts : PendingCounts) (h : Handle) :
    counts.nodeState h = (counterOf counts h).nodeState := by
  unfold PendingCounts.nodeState Counter.nodeState counterOf
  by_cases hstarted : counts.read h h.rep.hasStarted = 0 <;> simp [hstarted]

theorem asInt_of_lt {value : ℕ} (hlt : value < 2 ^ 31) : asInt value = value := by
  apply Int.bmod_eq_of_le_mul_two <;> omega

/-- An `int` shows the pending count when it is one. -/
theorem pending_eq (hint : (counterOf counts h).pending < 2 ^ 31) :
    counts.pending h = (counterOf counts h).shown := by
  unfold PendingCounts.pending Counter.shown
  rw [nodeState_eq]
  by_cases hready : (counterOf counts h).nodeState = .pendingNotReady
  · rw [if_pos hready, if_pos hready]
    exact asInt_of_lt hint
  · rw [if_neg hready, if_neg hready, Nat.cast_zero]

/-- A decrement that stays inside the field. -/
theorem counterOf_lowerPending {v : ℤ} {rest : ℕ}
    (hrest : ((counterOf counts h).pending : ℤ) - v = rest) (hfits : rest < 2 ^ h.rep.pending.bits)
    (hint : rest < 2 ^ 32) :
    counterOf (counts.lowerPending h v) h = { counterOf counts h with pending := rest } := by
  have hlowered : ((counts.read h h.rep.pending - v) % 2 ^ 32 : ℤ).toNat = rest := by
    change (((counterOf counts h).pending - v) % 2 ^ 32 : ℤ).toNat = rest
    rw [hrest]
    omega
  rw [PendingCounts.lowerPending, hlowered, counterOf_write_pending hfits]

theorem counterOf_raiseDeadCount
    (hfits : (counterOf counts h).dead + 1 < 2 ^ h.rep.deadCount.bits) :
    counterOf (counts.raiseDeadCount h) h =
      { counterOf counts h with dead := (counterOf counts h).dead + 1 } :=
  counterOf_write_deadCount hfits

end Fields

/-! ## Other handles -/

/-- The bytes of the handles do not overlap. -/
def Elsewhere (h h' : Handle) : Prop :=
  h'.offset + h'.rep.size ≤ h.offset ∨ h.offset + h.rep.size ≤ h'.offset

/-- A call on a handle leaves the size of the array and the counters elsewhere. -/
structure ChangesOnly (h : Handle) (counts changed : PendingCounts) : Prop where
  numBytes : changed.numBytes = counts.numBytes
  elsewhere : ∀ h', Elsewhere h h' → counterOf changed h' = counterOf counts h'

namespace ChangesOnly

variable {counts changed last : PendingCounts} {h : Handle}

theorem refl : ChangesOnly h counts counts := ⟨rfl, fun _ _ => rfl⟩

theorem trans (hfirst : ChangesOnly h counts changed) (hsecond : ChangesOnly h changed last) :
    ChangesOnly h counts last where
  numBytes := hsecond.numBytes.trans hfirst.numBytes
  elsewhere h' helsewhere :=
    (hsecond.elsewhere h' helsewhere).trans (hfirst.elsewhere h' helsewhere)

theorem write (field : BitField) (content : ℕ) :
    ChangesOnly h counts (counts.write h field content) where
  numBytes := rfl
  elsewhere h' helsewhere := by
    have hstruct : (counts.write h field content).struct h' = counts.struct h' :=
      Bytes.load_store_of_disjoint helsewhere
    unfold counterOf PendingCounts.read
    rw [hstruct]

end ChangesOnly

/-! ## The calls -/

/-- The fields of a handle have room for the maxima, and an `int` shows them. -/
structure Suits (max : ℕ × ℕ) (h : Handle) : Prop where
  pending : max.1 < 2 ^ h.rep.pending.bits
  dead : max.2 < 2 ^ h.rep.deadCount.bits
  int : max.1 < 2 ^ 31
  packed : h.isLarge ∨ max.1 ≤ kMaxCountForPackedCounts ∧
    max.2 ≤ kMaxCountForPackedCounts

/-- A completed node keeps a 1 where its pending count was. -/
structure Counter.Bounded (max : ℕ × ℕ) (c : Counter) : Prop where
  pending : c.pending ≤ Nat.max max.1 1
  dead : c.dead ≤ max.2

/-- After a call a handle shows the counter, and nothing else has changed. -/
structure Mirrors (max : ℕ × ℕ) (h : Handle) (counts : PendingCounts) (c : Counter)
    (changed : PendingCounts) : Prop where
  counter : counterOf changed h = c
  bounded : c.Bounded max
  only : ChangesOnly h counts changed

section Calls

variable {max : ℕ × ℕ} {counts : PendingCounts} {h : Handle} {c after : Counter}

theorem Suits.pending_fits (hsuits : Suits max h) {pending : ℕ}
    (hbounded : pending ≤ Nat.max max.1 1) : pending < 2 ^ h.rep.pending.bits := by
  have hone : 1 < 2 ^ h.rep.pending.bits := Nat.one_lt_two_pow h.rep.pending_bits.ne'
  apply hbounded.trans_lt
  exact Nat.max_lt.mpr ⟨hsuits.pending, hone⟩

theorem Suits.pending_int (hsuits : Suits max h) {pending : ℕ}
    (hbounded : pending ≤ Nat.max max.1 1) : pending < 2 ^ 31 := by
  apply hbounded.trans_lt
  exact Nat.max_lt.mpr ⟨hsuits.int, by decide⟩

theorem pending_of_bounded (hsuits : Suits max h) (hbounded : (counterOf counts h).Bounded max) :
    counts.pending h = (counterOf counts h).shown :=
  pending_eq (hsuits.pending_int hbounded.pending)

theorem setInitialCount_mirrors (hsuits : Suits max h) (hholds : counts.Holds h) {pendingCount : ℕ}
    (hcall : Counter.initial max pendingCount = some after) :
    ∃ changed, counts.setInitialCount h pendingCount = some changed ∧
      Mirrors max h counts after changed := by
  obtain ⟨hmax, hafter⟩ := Option.ite_none_right_eq_some.mp hcall
  obtain rfl := Option.some.inj hafter
  have hpacked : h.isLarge ∨ pendingCount ≤ kMaxCountForPackedCounts := by
    rcases hsuits.packed with hlarge | ⟨hsmall, -⟩
    · exact .inl hlarge
    · exact .inr (hmax.trans hsmall)
  refine ⟨_, if_pos ⟨hholds, hpacked⟩, ?_, ?_, ?_⟩
  · rw [counterOf_write_hasStarted Nat.two_pos, counterOf_write_deadCount (Nat.two_pow_pos _),
      counterOf_write_pending (hmax.trans_lt hsuits.pending)]
    rfl
  · exact ⟨le_max_of_le_left hmax, Nat.zero_le _⟩
  · exact ((ChangesOnly.write _ _).trans (.write _ _)).trans (.write _ _)

/-- What the abstract decrement does: the rest is a number within the bounds. -/
theorem Counter.decrement_eq_some {v : ℤ} (hbounded : c.Bounded max)
    (hcall : c.decrement max v = some after) :
    v ≤ c.shown ∧ ∃ rest : ℕ, (c.pending : ℤ) - v = rest ∧ rest ≤ Nat.max max.1 1 ∧
      after = { c with pending := rest } := by
  obtain ⟨⟨hshown, hroom⟩, hafter⟩ := Option.ite_none_right_eq_some.mp hcall
  have hle : c.shown ≤ c.pending := by
    unfold shown
    split
    · exact le_rfl
    · exact Nat.zero_le _
  have hrest : (c.pending : ℤ) - v = (c.pending - v).toNat := by omega
  refine ⟨hshown, _, hrest, ?_, (Option.some.inj hafter).symm⟩
  have hpending := hbounded.pending
  rcases hroom with hdown | hup
  · omega
  · apply le_max_of_le_left
    omega

/-- A decrement of the counter is a decrement of the fields. -/
theorem lowerPending_mirrors (hsuits : Suits max h) (hbounded : (counterOf counts h).Bounded max)
    {v : ℤ} (hcall : (counterOf counts h).decrement max v = some after) :
    v ≤ counts.pending h ∧ Mirrors max h counts after (counts.lowerPending h v) := by
  obtain ⟨hshown, rest, hrest, hroom, rfl⟩ := Counter.decrement_eq_some hbounded hcall
  rw [pending_of_bounded hsuits hbounded]
  refine ⟨hshown, ?_, ⟨hroom, hbounded.dead⟩, .write _ _⟩
  apply counterOf_lowerPending hrest (hsuits.pending_fits hroom)
  exact (hsuits.pending_int hroom).trans (by decide)

theorem decrementPending_mirrors (hsuits : Suits max h) (hholds : counts.Holds h)
    (hbounded : (counterOf counts h).Bounded max) {v : ℤ}
    (hcall : (counterOf counts h).decrement max v = some after) :
    ∃ result, counts.decrementPending h v = some result ∧ Mirrors max h counts after result.1 := by
  have hlowered := lowerPending_mirrors hsuits hbounded hcall
  exact ⟨_, if_pos ⟨hholds, hlowered.1⟩, hlowered.2⟩

/-- Marking as live clears the lowest bit. -/
theorem markLive_mirrors (hholds : counts.Holds h)
    (hbounded : (counterOf counts h).Bounded max) :
    ∃ changed, counts.markLive h = some changed ∧ Mirrors max h counts
      (counterOf counts h).markLive changed := by
  unfold PendingCounts.markLive Counter.markLive
  rw [if_pos hholds, nodeState_eq]
  by_cases hready : (counterOf counts h).nodeState = .pendingNotReady
  · rw [if_pos hready, if_pos hready]
    have hle : (counterOf counts h).pending / 2 * 2 ≤ (counterOf counts h).pending :=
      Nat.div_mul_le_self _ 2
    have hmask : counts.read h h.rep.pending &&& h.rep.liveMask =
        (counterOf counts h).pending / 2 * 2 := by
      rw [h.rep.liveMask_eq]
      apply BitField.and_mask_lowest
      rw [Nat.sub_add_cancel h.rep.pending_bits]
      exact BitField.get_lt
    refine ⟨_, rfl, ?_, ⟨hle.trans hbounded.pending, hbounded.dead⟩, .write _ _⟩
    rw [hmask, counterOf_write_pending (hle.trans_lt BitField.get_lt)]
  · rw [if_neg hready, if_neg hready]
    exact ⟨counts, rfl, rfl, hbounded, .refl⟩

theorem markStarted_mirrors (hsuits : Suits max h) (hholds : counts.Holds h)
    (hbounded : (counterOf counts h).Bounded max)
    (hcall : (counterOf counts h).markStarted = some after) :
    ∃ changed, counts.markStarted h = some changed ∧ Mirrors max h counts after changed := by
  obtain ⟨hallowed, hafter⟩ := Option.ite_none_right_eq_some.mp hcall
  obtain rfl := Option.some.inj hafter
  have hpending : counts.pending h = 0 := by
    rw [pending_of_bounded hsuits hbounded, hallowed.1, Nat.cast_zero]
  have hstarted : counts.read h h.rep.hasStarted = 0 := by
    simpa [counterOf] using hallowed.2
  refine ⟨_, if_pos ⟨hholds, hpending, hstarted⟩, ?_, ⟨hbounded.pending, hbounded.dead⟩,
    .write _ _⟩
  rw [counterOf_write_hasStarted Nat.one_lt_two]
  rfl

theorem markCompleted_mirrors (hholds : counts.Holds h)
    (hbounded : (counterOf counts h).Bounded max)
    (hcall : (counterOf counts h).markCompleted = some after) :
    ∃ changed, counts.markCompleted h = some changed ∧ Mirrors max h counts after changed := by
  obtain ⟨hallowed, hafter⟩ := Option.ite_none_right_eq_some.mp hcall
  obtain rfl := Option.some.inj hafter
  have hone : counts.read h h.rep.hasStarted = 1 := by
    have hbit : counts.read h h.rep.hasStarted < 2 ^ h.rep.hasStarted.bits := BitField.get_lt
    rw [h.rep.hasStarted_bits] at hbit
    have hne : counts.read h h.rep.hasStarted ≠ 0 := of_decide_eq_true hallowed
    omega
  refine ⟨_, if_pos ⟨hholds, hone⟩, ?_, ⟨le_max_right _ _, hbounded.dead⟩, .write _ _⟩
  rw [counterOf_write_pending (Nat.one_lt_two_pow h.rep.pending_bits.ne')]

theorem raiseDeadCount_mirrors (hsuits : Suits max h)
    (hbounded : (counterOf counts h).Bounded max) (hroom : (counterOf counts h).dead < max.2) :
    Mirrors max h counts { counterOf counts h with dead := (counterOf counts h).dead + 1 }
      (counts.raiseDeadCount h) where
  counter := counterOf_raiseDeadCount (Nat.lt_of_le_of_lt hroom hsuits.dead)
  bounded := ⟨hbounded.pending, hroom⟩
  only := .write _ _

end Calls

/-! ## The streamlined adjustment -/

section Adjustment

variable {counts : PendingCounts} {h : Handle} {incrementDead : Bool}

/-- The composition the comment of `adjust_for_activation` names. -/
def composedAdjustment (counts : PendingCounts) (h : Handle) (incrementDead : Bool) :
    Option (PendingCounts × ℤ × ℤ) :=
  (if incrementDead then counts.incrementDeadCount h else some counts).bind fun counted =>
    (counted.decrementPending h 1).map fun decremented =>
      (decremented.1, decremented.1.pending h, decremented.1.deadCount h)

/-- The counts after the dead count was incremented, or not. -/
def counted (counts : PendingCounts) (h : Handle) (incrementDead : Bool) : PendingCounts :=
  if incrementDead ∧ counts.nodeState h = .pendingNotReady then counts.raiseDeadCount h else counts

theorem read_raiseDeadCount_pending :
    (counts.raiseDeadCount h).read h h.rep.pending = counts.read h h.rep.pending := by
  unfold PendingCounts.raiseDeadCount
  rw [PendingCounts.read, struct_write (deadCount_inside h.rep),
    BitField.get_set_of_below h.rep.pending_below]
  rfl

theorem read_raiseDeadCount_hasStarted :
    (counts.raiseDeadCount h).read h h.rep.hasStarted = counts.read h h.rep.hasStarted := by
  unfold PendingCounts.raiseDeadCount
  rw [PendingCounts.read, struct_write (deadCount_inside h.rep),
    BitField.get_set_of_above h.rep.deadCount_below]
  rfl

theorem read_lowerPending_hasStarted {v : ℤ} :
    (counts.lowerPending h v).read h h.rep.hasStarted = counts.read h h.rep.hasStarted := by
  unfold PendingCounts.lowerPending
  rw [PendingCounts.read, struct_write (pending_inside h.rep),
    BitField.get_set_of_above (pending_below_hasStarted h.rep)]
  rfl

theorem counted_pending :
    (counted counts h incrementDead).pending h = counts.pending h := by
  unfold counted
  split
  · unfold PendingCounts.pending PendingCounts.nodeState
    rw [read_raiseDeadCount_pending, read_raiseDeadCount_hasStarted]
  · rfl

theorem counted_hasStarted : (counted counts h incrementDead).read h h.rep.hasStarted =
    counts.read h h.rep.hasStarted := by
  unfold counted
  split
  · exact read_raiseDeadCount_hasStarted
  · rfl

theorem counted_holds : (counted counts h incrementDead).Holds h ↔ counts.Holds h := by
  unfold counted
  split <;> rfl

/-- A packed dead count that is still counted is not full. -/
def RoomForDead (counts : PendingCounts) (h : Handle) : Prop :=
  counts.nodeState h = .pendingNotReady →
    h.isLarge ∨ counts.read h h.rep.deadCount < kMaxCountForPackedCounts

/-- With room in a packed dead count, the increment is the one `adjust_for_activation` makes. -/
theorem incrementDeadCount_eq_counted (hholds : counts.Holds h)
    (hroom : incrementDead → RoomForDead counts h) :
    (if incrementDead then counts.incrementDeadCount h else some counts) =
      some (counted counts h incrementDead) := by
  unfold counted PendingCounts.incrementDeadCount
  cases incrementDead with
  | false => rfl
  | true =>
      by_cases hready : counts.nodeState h = .pendingNotReady
      · simp [hholds, hready, hroom rfl hready]
      · simp [hholds, hready]

theorem hasStarted_eq_zero_of_pending (hpending : 1 ≤ counts.pending h) :
    counts.read h h.rep.hasStarted = 0 := by
  by_contra hstarted
  have hstate : counts.nodeState h ≠ .pendingNotReady := by
    unfold PendingCounts.nodeState
    rw [if_pos hstarted]
    split <;> nofun
  rw [PendingCounts.pending, if_neg hstate] at hpending
  exact absurd hpending (by decide)

theorem pending_of_not_started (hstarted : counts.read h h.rep.hasStarted = 0) :
    counts.pending h = asInt (counts.read h h.rep.pending) := by
  unfold PendingCounts.pending PendingCounts.nodeState
  rw [if_neg (not_not.mpr hstarted)]
  by_cases hzero : counts.read h h.rep.pending = 0
  · rw [if_pos hzero, hzero]
    rfl
  · rw [if_neg hzero, if_pos rfl]

/-- **The streamlined adjustment is its documented composition.** The two differ only in a check:
the adjustment does not look whether a packed dead count is full. -/
theorem adjustForActivation_eq
    (hroom : incrementDead → RoomForDead counts h) :
    counts.adjustForActivation h incrementDead = composedAdjustment counts h incrementDead := by
  unfold PendingCounts.adjustForActivation composedAdjustment
  by_cases hholds : counts.Holds h
  · rw [incrementDeadCount_eq_counted hholds hroom, Option.bind_some]
    unfold PendingCounts.decrementPending
    rw [counted_pending]
    by_cases hpending : 1 ≤ counts.pending h
    · rw [if_pos ⟨hholds, hpending⟩, if_pos ⟨counted_holds.mpr hholds, hpending⟩, Option.map_some]
      have hstarted : ((counted counts h incrementDead).lowerPending h 1).read h h.rep.hasStarted =
          0 := by
        rw [read_lowerPending_hasStarted, counted_hasStarted]
        exact hasStarted_eq_zero_of_pending hpending
      rw [pending_of_not_started hstarted]
      rfl
    · rw [if_neg fun h => hpending h.2, if_neg fun h => hpending h.2, Option.map_none]
  · rw [if_neg fun h => hholds h.1]
    cases incrementDead with
    | false =>
        unfold PendingCounts.decrementPending
        rw [if_neg Bool.false_ne_true, Option.bind_some, if_neg fun h => hholds h.1,
          Option.map_none]
    | true => rw [if_pos rfl, PendingCounts.incrementDeadCount, if_neg hholds, Option.bind_none]

variable {max : ℕ × ℕ} {after : Counter}

theorem roomForDead_of_incrementDead (hsuits : Suits max h)
    (hcall : (counterOf counts h).incrementDead max = some after) : RoomForDead counts h := by
  intro hready
  rw [nodeState_eq] at hready
  rw [Counter.incrementDead, if_pos hready] at hcall
  obtain ⟨hroom, -⟩ := Option.ite_none_right_eq_some.mp hcall
  rcases hsuits.packed with hlarge | ⟨-, hsmall⟩
  · exact .inl hlarge
  · exact .inr (hroom.trans_le hsmall)

theorem counted_mirrors (hsuits : Suits max h) (hbounded : (counterOf counts h).Bounded max)
    (hcall : (if incrementDead then (counterOf counts h).incrementDead max
      else some (counterOf counts h)) = some after) :
    Mirrors max h counts after (counted counts h incrementDead) := by
  cases incrementDead with
  | false =>
      obtain rfl := Option.some.inj hcall
      exact ⟨rfl, hbounded, .refl⟩
  | true =>
      rw [if_pos rfl, Counter.incrementDead, ← nodeState_eq] at hcall
      unfold counted
      by_cases hready : counts.nodeState h = .pendingNotReady
      · rw [if_pos hready] at hcall
        rw [if_pos ⟨rfl, hready⟩]
        obtain ⟨hroom, hafter⟩ := Option.ite_none_right_eq_some.mp hcall
        obtain rfl := Option.some.inj hafter
        exact raiseDeadCount_mirrors hsuits hbounded hroom
      · rw [if_neg hready] at hcall
        rw [if_neg fun h => hready h.2]
        obtain rfl := Option.some.inj hcall
        exact ⟨rfl, hbounded, .refl⟩

theorem adjustForActivation_mirrors (hsuits : Suits max h) (hholds : counts.Holds h)
    (hbounded : (counterOf counts h).Bounded max)
    (hcall : Counter.call max (counterOf counts h) (.adjustForActivation incrementDead) =
      some after) :
    ∃ result, counts.adjustForActivation h incrementDead = some result ∧
      Mirrors max h counts after result.1 := by
  obtain ⟨middle, hdead, hpending⟩ := Option.bind_eq_some_iff.mp hcall
  have hcounted := counted_mirrors hsuits hbounded hdead
  rw [← hcounted.counter] at hpending
  have hlowered := lowerPending_mirrors hsuits
    (hcounted.counter.symm ▸ hcounted.bounded) hpending
  rw [counted_pending] at hlowered
  refine ⟨_, if_pos ⟨hholds, hlowered.1⟩, hlowered.2.counter, hlowered.2.bounded, ?_⟩
  exact hcounted.only.trans hlowered.2.only

end Adjustment

/-! ## Every call -/

section Every

variable {max : ℕ × ℕ} {counts : PendingCounts} {h : Handle} {after : Counter}

/-- **One call.** A call the counter allows succeeds on the bytes, and the handle shows the counter
after it. -/
theorem call_mirrors (hsuits : Suits max h) (hholds : counts.Holds h) {before : Option Counter}
    (hshows : ∀ c ∈ before, counterOf counts h = c ∧ c.Bounded max) {call : Call}
    (hcall : Counter.call max before call = some after) :
    ∃ changed, counts.call h call = some changed ∧ Mirrors max h counts after changed := by
  cases before with
  | none =>
      cases call with
      | setInitialCount pendingCount => exact setInitialCount_mirrors hsuits hholds hcall
      | _ => cases hcall
  | some c =>
      obtain ⟨rfl, hbounded⟩ := hshows c rfl
      cases call with
      | setInitialCount pendingCount => exact setInitialCount_mirrors hsuits hholds hcall
      | decrementPending v =>
          obtain ⟨result, hresult, hmirrors⟩ :=
            decrementPending_mirrors hsuits hholds hbounded hcall
          exact ⟨result.1, by rw [PendingCounts.call, hresult]; rfl, hmirrors⟩
      | markLive =>
          obtain rfl := Option.some.inj hcall
          exact markLive_mirrors hholds hbounded
      | incrementDeadCount =>
          have hroom := roomForDead_of_incrementDead hsuits hcall
          have htaken : (if true then counts.incrementDeadCount h else some counts) =
              some (counted counts h true) :=
            incrementDeadCount_eq_counted hholds fun _ => hroom
          have hcall : (if true then (counterOf counts h).incrementDead max
              else some (counterOf counts h)) = some after := hcall
          exact ⟨_, htaken, counted_mirrors hsuits hbounded hcall⟩
      | adjustForActivation incrementDead =>
          obtain ⟨result, hresult, hmirrors⟩ :=
            adjustForActivation_mirrors hsuits hholds hbounded hcall
          exact ⟨result.1, by rw [PendingCounts.call, hresult]; rfl, hmirrors⟩
      | markStarted =>
          exact markStarted_mirrors hsuits hholds hbounded hcall
      | markCompleted =>
          exact markCompleted_mirrors hholds hbounded hcall

end Every

/-! ## The layout -/

/-- One of the maxima does not fit into three bits. -/
def needsLarge (max : ℕ × ℕ) : Bool :=
  decide (kMaxCountForPackedCounts < max.1 ∨ kMaxCountForPackedCounts < max.2)

/-- Where the struct of the next node starts, in numbers without bound. -/
def countsStart (next : ℕ) (max : ℕ × ℕ) : ℕ :=
  if needsLarge max then (next + 7) / 8 * 8 else next

def countsEnd (next : ℕ) (max : ℕ × ℕ) : ℕ :=
  countsStart next max + if needsLarge max then largeCounts.size else packedCounts.size

/-- The bytes of a layout, from an offset on. -/
def neededBytes : List (ℕ × ℕ) → ℕ → ℕ
  | [], next => next
  | max :: maxima, next => neededBytes maxima (countsEnd next max)

/-- The handle's bytes are inside a range, and it has the struct its maxima need. -/
structure Hosted (first last : ℕ) (max : ℕ × ℕ) (h : Handle) : Prop where
  large : h.isLarge = needsLarge max
  starts : (first : ℤ) ≤ h.byteOffset
  ends : h.byteOffset + h.rep.size ≤ last
  aligned : h.isLarge → h.byteOffset % alignOfLargeCounts = 0

/-- One handle ends before the other one starts. -/
def Before (h h' : Handle) : Prop := h.byteOffset + h.rep.size ≤ h'.byteOffset

section Layout

variable {max : ℕ × ℕ} {maxima : List (ℕ × ℕ)} {next : ℕ}

theorem le_countsStart : next ≤ countsStart next max := by
  unfold countsStart
  split <;> omega

theorem le_neededBytes : next ≤ neededBytes maxima next := by
  induction maxima generalizing next with
  | nil => exact le_rfl
  | cons max maxima ih => exact (le_countsStart.trans (Nat.le_add_right _ _)).trans ih

theorem byteOffset_of_lt {offset : ℕ} (hlt : offset < 2 ^ 30) :
    Int.bmod offset (2 ^ 31) = offset := by
  apply Int.bmod_eq_of_le_mul_two <;> omega

theorem roundUp_eq : Int.tdiv (next + largeCounts.size - 1) largeCounts.size * largeCounts.size =
    ((next + 7) / 8 * 8 : ℕ) := by
  have hsum : (next + largeCounts.size - 1 : ℤ) = (next + 7 : ℕ) := by
    change (next + 8 - 1 : ℤ) = _
    omega
  rw [hsum, ← Int.ofNat_tdiv, ← Nat.cast_mul]
  rfl

theorem countsEnd_of_large (hlarge : needsLarge max = true) :
    countsEnd next max = (next + 7) / 8 * 8 + 8 := by
  rw [countsEnd, countsStart, if_pos hlarge, if_pos hlarge]
  rfl

theorem countsEnd_of_packed (hpacked : needsLarge max = false) : countsEnd next max = next + 1 := by
  rw [countsEnd, countsStart, hpacked]
  rfl

/-- No offset wraps round below 2^30. -/
theorem createHandle_eq (hfits : countsEnd next max ≤ 2 ^ 30) :
    createHandle next max.1 max.2 =
      (⟨countsStart next max, needsLarge max⟩, (countsEnd next max : ℤ)) := by
  unfold createHandle
  cases hsize : needsLarge max with
  | true =>
      rw [countsEnd_of_large hsize] at hfits ⊢
      rw [if_pos (of_decide_eq_true hsize), countsStart, if_pos hsize]
      dsimp only
      rw [roundUp_eq, byteOffset_of_lt (by omega)]
      have hend : asInt (((next + 7) / 8 * 8 : ℕ) + largeCounts.size) =
          ((next + 7) / 8 * 8 + 8 : ℕ) := by
        rw [← Nat.cast_add]
        exact asInt_of_lt (show (next + 7) / 8 * 8 + 8 < 2 ^ 31 by omega)
      rw [hend]
  | false =>
      rw [countsEnd_of_packed hsize] at hfits ⊢
      rw [if_neg (of_decide_eq_false hsize), countsStart, hsize, byteOffset_of_lt (by omega)]
      have hend : asInt (next + packedCounts.size) = (next + 1 : ℕ) := by
        rw [← Nat.cast_add]
        exact asInt_of_lt (show next + 1 < 2 ^ 31 by omega)
      rw [hend]
      rfl

theorem createHandle_hosted (hfits : countsEnd next max ≤ 2 ^ 30) :
    Hosted next (countsEnd next max) max (createHandle next max.1 max.2).1 := by
  rw [createHandle_eq hfits]
  have hstart : next ≤ countsStart next max := le_countsStart
  refine ⟨rfl, Nat.cast_le.mpr hstart, ?_, ?_⟩
  · dsimp only [countsEnd, Handle.rep]
    split <;> exact le_rfl
  · intro hlarge
    dsimp only at hlarge ⊢
    rw [countsStart, if_pos hlarge]
    unfold alignOfLargeCounts
    omega

theorem Hosted.mono {first last first' last' : ℕ} {h : Handle} (hhosted : Hosted first last max h)
    (hfirst : first' ≤ first) (hlast : last ≤ last') : Hosted first' last' max h where
  large := hhosted.large
  starts := (Nat.cast_le.mpr hfirst).trans hhosted.starts
  ends := hhosted.ends.trans (Nat.cast_le.mpr hlast)
  aligned := hhosted.aligned

/-- What the rest of a layout needs when the whole fits. -/
theorem countsEnd_le (hfits : neededBytes (max :: maxima) next ≤ 2 ^ 30) :
    countsEnd next max ≤ 2 ^ 30 :=
  le_neededBytes.trans hfits

theorem createHandles_cons (hfits : neededBytes (max :: maxima) next ≤ 2 ^ 30) :
    createHandles (max :: maxima) next =
      ((createHandle next max.1 max.2).1 :: (createHandles maxima (countsEnd next max)).1,
        (createHandles maxima (countsEnd next max)).2) := by
  rw [createHandles, createHandle_eq (countsEnd_le hfits)]

section

variable (hfits : neededBytes maxima next ≤ 2 ^ 30)

include hfits

theorem createHandles_end : (createHandles maxima next).2 = neededBytes maxima next := by
  induction maxima generalizing next with
  | nil => rfl
  | cons max maxima ih =>
      rw [createHandles_cons hfits]
      exact ih hfits

theorem le_byteOffset_of_mem {h : Handle} (hmem : h ∈ (createHandles maxima next).1) :
    (next : ℤ) ≤ h.byteOffset := by
  induction maxima generalizing next with
  | nil => cases hmem
  | cons max maxima ih =>
      rw [createHandles_cons hfits] at hmem
      rcases List.mem_cons.mp hmem with rfl | hrest
      · exact (createHandle_hosted (countsEnd_le hfits)).starts
      · apply le_trans _ (ih hfits hrest)
        exact Nat.cast_le.mpr (le_countsStart.trans (Nat.le_add_right _ _))

/-- The handles of a layout lie one after the other. -/
theorem createHandles_before : (createHandles maxima next).1.Pairwise Before := by
  induction maxima generalizing next with
  | nil => exact .nil
  | cons max maxima ih =>
      rw [createHandles_cons hfits]
      apply List.Pairwise.cons _ (ih hfits)
      intro h hmem
      have hrest : neededBytes maxima (countsEnd next max) ≤ 2 ^ 30 := hfits
      exact (createHandle_hosted (countsEnd_le hfits)).ends.trans (le_byteOffset_of_mem hrest hmem)

theorem getElem?_createHandles {index : ℕ} (hmax : maxima[index]? = some max) :
    ∃ h, (createHandles maxima next).1[index]? = some h ∧
      Hosted next (neededBytes maxima next) max h := by
  induction maxima generalizing next index with
  | nil => cases hmax
  | cons max' maxima ih =>
      rw [createHandles_cons hfits]
      cases index with
      | zero =>
          obtain rfl := Option.some.inj hmax
          have hhosted := createHandle_hosted (countsEnd_le hfits)
          exact ⟨_, rfl, hhosted.mono le_rfl le_neededBytes⟩
      | succ index =>
          obtain ⟨h, hindex, hhosted⟩ := ih hfits hmax
          exact ⟨h, hindex, hhosted.mono (le_countsStart.trans (Nat.le_add_right _ _)) le_rfl⟩

end

end Layout

/-! ## Every run -/

/-- Every maximum is shown by an `int`, and the layout's offsets fit into their field. -/
structure Representable (maxima : List (ℕ × ℕ)) : Prop where
  counts : ∀ max ∈ maxima, max.1 < 2 ^ 31 ∧ max.2 < 2 ^ 31
  bytes : neededBytes maxima 0 ≤ 2 ^ 30

/-- Each handle whose counter has started shows it. -/
structure Shows (maxima : List (ℕ × ℕ)) (state : ℕ → Option Counter) (counts : PendingCounts) :
    Prop where
  numBytes : counts.numBytes = neededBytes maxima 0
  known : ∀ index, ∀ c ∈ state index, ∃ max, maxima[index]? = some max
  shows : ∀ index max h, maxima[index]? = some max →
    (createHandles maxima 0).1[index]? = some h →
      ∀ c ∈ state index, counterOf counts h = c ∧ c.Bounded max

section Runs

variable {maxima : List (ℕ × ℕ)} {max : ℕ × ℕ} {h h' : Handle}

theorem Hosted.suits (hrep : Representable maxima) {first last : ℕ} (hmem : max ∈ maxima)
    (hhosted : Hosted first last max h) : Suits max h := by
  have hcounts := hrep.counts max hmem
  have hsize : h.isLarge = needsLarge max := hhosted.large
  cases hlarge : needsLarge max with
  | true =>
      rw [hlarge] at hsize
      have hrep' : h.rep = largeCounts := if_pos hsize
      refine ⟨?_, ?_, hcounts.1, .inl hsize⟩
      · rw [hrep']
        exact hcounts.1.trans (by decide)
      · rw [hrep']
        exact hcounts.2
  | false =>
      rw [hlarge] at hsize
      have hrep' : h.rep = packedCounts := if_neg (ne_true_of_eq_false hsize)
      have hsmall := of_decide_eq_false hlarge
      unfold kMaxCountForPackedCounts at hsmall
      refine ⟨?_, ?_, hcounts.1, .inr ?_⟩
      · rw [hrep']
        change max.1 < 8
        omega
      · rw [hrep']
        change max.2 < 8
        omega
      · unfold kMaxCountForPackedCounts
        omega

theorem Hosted.holds {first last : ℕ} (hhosted : Hosted first last max h) {counts : PendingCounts}
    (hbytes : counts.numBytes = last) : counts.Holds h := by
  refine ⟨(Int.natCast_nonneg first).trans hhosted.starts, ?_, hhosted.aligned⟩
  rw [hbytes]
  exact hhosted.ends

/-- The handle made for a node. -/
theorem exists_handle (hrep : Representable maxima) {index : ℕ} (hmax : maxima[index]? = some max) :
    ∃ h, (createHandles maxima 0).1[index]? = some h ∧ Hosted 0 (neededBytes maxima 0) max h :=
  getElem?_createHandles hrep.bytes hmax

theorem Before.elsewhere (hbefore : Before h h') (hstart : 0 ≤ h.byteOffset) :
    Elsewhere h h' ∧ Elsewhere h' h := by
  unfold Before at hbefore
  unfold Elsewhere Handle.offset
  omega

/-- Two handles of a layout have no byte in common. -/
theorem createHandles_elsewhere (hrep : Representable maxima) {index index' : ℕ}
    (hne : index ≠ index') (hindex : (createHandles maxima 0).1[index]? = some h)
    (hindex' : (createHandles maxima 0).1[index']? = some h') : Elsewhere h h' := by
  have hbefore := List.pairwise_iff_getElem.mp (createHandles_before hrep.bytes)
  obtain ⟨hlt, rfl⟩ := List.getElem?_eq_some_iff.mp hindex
  obtain ⟨hlt', rfl⟩ := List.getElem?_eq_some_iff.mp hindex'
  rcases Nat.lt_or_gt_of_ne hne with hfirst | hfirst
  · apply (Before.elsewhere (hbefore _ _ hlt hlt' hfirst) _).1
    exact le_byteOffset_of_mem hrep.bytes (List.getElem_mem hlt)
  · apply (Before.elsewhere (hbefore _ _ hlt' hlt hfirst) _).2
    exact le_byteOffset_of_mem hrep.bytes (List.getElem_mem hlt')

/-- **One step.** A step of the counters is a step on the bytes. -/
theorem counters_simulated (hrep : Representable maxima) (bytes : Bytes) :
    Machine.Simulates (counters maxima) (machine (createHandles maxima 0) bytes)
      Machine.Unguarded Machine.Unguarded (Shows maxima) := by
  intro state label after counts hshows _ hstep
  obtain ⟨max, hmax, htaken⟩ := Option.bind_eq_some_iff.mp hstep
  obtain ⟨c, hcall, rfl⟩ := Option.map_eq_some_iff.mp htaken
  obtain ⟨h, hindex, hhosted⟩ := exists_handle hrep hmax
  have hsuits := hhosted.suits hrep (List.mem_of_getElem? hmax)
  obtain ⟨changed, hchanged, hmirrors⟩ := call_mirrors hsuits (hhosted.holds hshows.numBytes)
    (hshows.shows _ max h hmax hindex) hcall
  refine ⟨trivial, changed, ?_, hmirrors.only.numBytes.trans hshows.numBytes, ?_, ?_⟩
  · change (createHandles maxima 0).1[label.1]?.bind _ = _
    rw [hindex]
    exact hchanged
  · intro index c' hc'
    by_cases hsame : index = label.1
    · exact ⟨max, hsame ▸ hmax⟩
    · rw [Function.update_of_ne hsame] at hc'
      exact hshows.known index c' hc'
  · intro index max' h' hmax' hindex' c' hc'
    by_cases hsame : index = label.1
    · obtain rfl := hsame
      obtain rfl := Option.some.inj (hmax.symm.trans hmax')
      obtain rfl := Option.some.inj (hindex.symm.trans hindex')
      rw [Function.update_self] at hc'
      obtain rfl := Option.some.inj hc'
      exact ⟨hmirrors.counter, hmirrors.bounded⟩
    · rw [Function.update_of_ne hsame] at hc'
      have helsewhere := createHandles_elsewhere hrep (Ne.symm hsame) hindex hindex'
      rw [hmirrors.only.elsewhere h' helsewhere]
      exact hshows.shows index max' h' hmax' hindex' c' hc'

/-- What a handle shows of its counter, and that the adjustment is its documented composition. -/
structure ShowsCounter (maxima : List (ℕ × ℕ)) (state : ℕ → Option Counter)
    (counts : PendingCounts) (index : ℕ) (c : Counter) (h : Handle) : Prop where
  pending : counts.pending h = c.shown
  deadCount : counts.deadCount h = c.dead
  nodeState : counts.nodeState h = c.nodeState
  adjusted : ∀ incrementDead,
    ((counters maxima).step state (index, .adjustForActivation incrementDead)).isSome →
      ∃ result, counts.adjustForActivation h incrementDead = some result ∧
        composedAdjustment counts h incrementDead = some result

theorem Shows.showsCounter (hrep : Representable maxima) {state : ℕ → Option Counter}
    {counts : PendingCounts} (hshows : Shows maxima state counts) {index : ℕ} {c : Counter}
    (hc : state index = some c) : ∃ h, (createHandles maxima 0).1[index]? = some h ∧
      ShowsCounter maxima state counts index c h := by
  obtain ⟨max, hmax⟩ := hshows.known index c hc
  obtain ⟨h, hindex, hhosted⟩ := exists_handle hrep hmax
  obtain ⟨rfl, hbounded⟩ := hshows.shows index max h hmax hindex c hc
  have hsuits := hhosted.suits hrep (List.mem_of_getElem? hmax)
  have hholds := hhosted.holds hshows.numBytes
  refine ⟨h, hindex, pending_of_bounded hsuits hbounded, rfl, nodeState_eq counts h, ?_⟩
  intro incrementDead hallowed
  obtain ⟨after, hstep⟩ := Option.isSome_iff_exists.mp hallowed
  obtain ⟨max', hmax', htaken⟩ := Option.bind_eq_some_iff.mp hstep
  obtain rfl := Option.some.inj (hmax.symm.trans hmax')
  obtain ⟨c', hcall, -⟩ := Option.map_eq_some_iff.mp htaken
  rw [hc] at hcall
  obtain ⟨result, hresult, -⟩ := adjustForActivation_mirrors hsuits hholds hbounded hcall
  have hroom : incrementDead → RoomForDead counts h := by
    rintro rfl
    obtain ⟨middle, hdead, -⟩ := Option.bind_eq_some_iff.mp hcall
    exact roomForDead_of_incrementDead hsuits hdead
  exact ⟨result, hresult, adjustForActivation_eq hroom ▸ hresult⟩

theorem shows_init (hrep : Representable maxima) (bytes : Bytes) :
    Shows maxima (counters maxima).init (machine (createHandles maxima 0) bytes).init where
  numBytes := createHandles_end hrep.bytes
  known _ _ hc := nomatch hc
  shows _ _ _ _ _ _ hc := nomatch hc

/-- **Pending counts are independent counters.** The handles of a layout do not overlap, and every
run of the counters is a run on the bytes, whatever these hold at first: afterwards each handle
shows its counter. -/
theorem handles_show_counters (hrep : Representable maxima) (bytes : Bytes) :
    (createHandles maxima 0).1.Pairwise Before ∧
      ∀ calls state, (counters maxima).run calls (counters maxima).init = some state →
        ∃ counts, (machine (createHandles maxima 0) bytes).run calls
            (machine (createHandles maxima 0) bytes).init = some counts ∧
          ∀ index c, state index = some c → ∃ h, (createHandles maxima 0).1[index]? = some h ∧
            ShowsCounter maxima state counts index c h := by
  refine ⟨createHandles_before hrep.bytes, ?_⟩
  intro calls state hrun
  obtain ⟨counts, hrun', hshows⟩ :=
    Machine.run_simulated (counters_simulated hrep bytes) (shows_init hrep bytes) hrun
  refine ⟨counts, hrun', ?_⟩
  intro index c hc
  exact hshows.showsCounter hrep hc

/-- A layout of a packed and a large node, and a run of both. -/
theorem handles_show_counters_of_two :
    ∃ state counts, (counters [(3, 1), (9, 9)]).run
        [(0, .setInitialCount 3), (1, .setInitialCount 9), (0, .adjustForActivation true)]
        (counters [(3, 1), (9, 9)]).init = some state ∧
      (machine (createHandles [(3, 1), (9, 9)] 0) fun _ => 0).run
        [(0, .setInitialCount 3), (1, .setInitialCount 9), (0, .adjustForActivation true)]
        (machine (createHandles [(3, 1), (9, 9)] 0) fun _ => 0).init = some counts ∧
      counts.pending ⟨0, false⟩ = 2 ∧ counts.deadCount ⟨0, false⟩ = 1 := by
  have hrep : Representable [(3, 1), (9, 9)] := ⟨by decide, by decide⟩
  have hrun : (counters [(3, 1), (9, 9)]).run
      [(0, .setInitialCount 3), (1, .setInitialCount 9), (0, .adjustForActivation true)]
      (counters [(3, 1), (9, 9)]).init = some _ := rfl
  obtain ⟨counts, hcounts, hshows⟩ := (handles_show_counters hrep fun _ => 0).2 _ _ hrun
  obtain ⟨h, hindex, hshow⟩ := hshows 0 ⟨2, 1, false⟩ rfl
  obtain rfl : (⟨0, false⟩ : Handle) = h := Option.some.inj hindex
  exact ⟨_, counts, hrun, hcounts, hshow.pending, hshow.deadCount⟩

end Runs

/-! ## Beyond the fields -/

section Beyond

variable (counts : PendingCounts) (h : Handle)

end Beyond

/-- A node that declares 2^32 pending inputs and gets them shows none, and is ready. -/
theorem wide_count_is_lost : ∃ state counts,
    (counters [(2 ^ 32, 0)]).run [(0, .setInitialCount (2 ^ 32))] (counters [(2 ^ 32, 0)]).init =
      some state ∧
    (machine (createHandles [(2 ^ 32, 0)] 0) fun _ => 0).run [(0, .setInitialCount (2 ^ 32))]
      (machine (createHandles [(2 ^ 32, 0)] 0) fun _ => 0).init = some counts ∧
    (createHandles [(2 ^ 32, 0)] 0).1 = [⟨0, true⟩] ∧ state 0 = some ⟨2 ^ 32, 0, false⟩ ∧
    counts.pending ⟨0, true⟩ = 0 ∧ counts.nodeState ⟨0, true⟩ = .pendingReady ∧
    Counter.shown ⟨2 ^ 32, 0, false⟩ = 2 ^ 32 ∧
    Counter.nodeState ⟨2 ^ 32, 0, false⟩ = .pendingNotReady := by
  refine ⟨_, _, rfl, rfl, by decide, rfl, by decide, by decide, by decide, by decide⟩

end ContainerScheduler.Analysis
