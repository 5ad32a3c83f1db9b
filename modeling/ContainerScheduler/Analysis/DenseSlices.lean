/-
# From written slices to dense ones

A slice is written as a list of items: an ellipsis, new axes, and subscripts. Without an ellipsis
there is one at the end. Expanding it gives an entry for each dimension of the input and each new
axis, and this is what the dense specification holds.
-/

import ContainerScheduler.Slicing.StridedSlice
import Mathlib.Data.List.GetD

namespace ContainerScheduler.Analysis

open Slicing

/-! ## What is written -/

/-- A subscript of one dimension. It is an index if `shrink` is set, and a range otherwise. -/
structure SliceSubscript where
  begin_i : ℤ
  end_i : ℤ
  stride_i : ℤ
  beginMasked : Bool
  endMasked : Bool
  shrink : Bool

inductive SliceItem
  | ellipsis
  | newAxis
  | given (subscript : SliceSubscript)

/-- An item of the expanded slice. -/
inductive SliceEntry
  | newAxis
  /-- A dimension under the ellipsis. -/
  | full
  | given (subscript : SliceSubscript)

/-- The arguments of the operation. -/
structure WrittenSlice where
  begins : List ℤ
  ends : List ℤ
  strides : List ℤ
  beginMask : BitVec 32
  endMask : BitVec 32
  ellipsisMask : BitVec 32
  newAxisMask : BitVec 32
  shrinkAxisMask : BitVec 32

def SliceItem.isEllipsis : SliceItem → Bool
  | .ellipsis => true
  | _ => false

def SliceItem.isGiven : SliceItem → Bool
  | .given _ => true
  | _ => false

def SliceEntry.isAxis : SliceEntry → Bool
  | .newAxis => false
  | _ => true

/-- The entries for which an item stands, if these dimensions are left to the ellipsis. -/
def SliceItem.expand (left : ℕ) : SliceItem → List SliceEntry
  | .ellipsis => List.replicate left .full
  | .newAxis => [.newAxis]
  | .given subscript => [.given subscript]

namespace WrittenSlice

variable (w : WrittenSlice)

def subscriptAt (i : ℕ) : SliceSubscript where
  begin_i := w.begins.getD i 0
  end_i := w.ends.getD i 0
  stride_i := w.strides.getD i 0
  beginMasked := w.beginMask.getLsbD i
  endMasked := w.endMask.getLsbD i
  shrink := w.shrinkAxisMask.getLsbD i

def itemAt (i : ℕ) : SliceItem :=
  if w.ellipsisMask.getLsbD i then .ellipsis
  else if w.newAxisMask.getLsbD i then .newAxis
  else .given (w.subscriptAt i)

def items : List SliceItem := (List.range w.strides.length).map w.itemAt

/-- The items, with an ellipsis at the end if there is none. -/
def expression : List SliceItem :=
  if w.items.any SliceItem.isEllipsis then w.items else w.items ++ [.ellipsis]

/-- The number of dimensions that are indexed. -/
def indexed : ℕ := w.items.countP SliceItem.isGiven

/-- The expanded slice of an input of this rank. -/
def entries (rank : ℕ) : List SliceEntry :=
  w.expression.flatMap (SliceItem.expand (rank - w.indexed))

/-- The entries that belong to the dimensions of the input. -/
def axes (rank : ℕ) : List SliceEntry := (w.entries rank).filter SliceEntry.isAxis

end WrittenSlice

/-! ## Bits of the masks -/

theorem bit_eq_getLsbD {mask : BitVec 32} {i : ℕ} (hi : i < 32) : bit mask i = mask.getLsbD i := by
  have hand := BitVec.twoPow_and mask i
  rw [BitVec.twoPow_eq] at hand
  rw [bit, hand]
  cases hbit : mask.getLsbD i with
  | false => simp
  | true =>
      have hne : (1#32 <<< i).getLsbD i = true := by
        rw [← BitVec.twoPow_eq, BitVec.getLsbD_twoPow]
        simp [hi]
      simp only [if_true, bne_iff_ne]
      intro hzero
      simp [hzero] at hne

theorem bit_setBit {mask : BitVec 32} {i k : ℕ} {condition : Bool} (hi : i < 32) (hk : k < 32) :
    bit (setBit mask i condition) k = (bit mask k || (condition && decide (i = k))) := by
  rw [bit_eq_getLsbD hk, bit_eq_getLsbD hk, setBit]
  cases condition with
  | false => simp
  | true =>
      rw [if_pos rfl, BitVec.getLsbD_or, ← BitVec.twoPow_eq, BitVec.getLsbD_twoPow]
      simp [hi]

/-- More than one bit is set. -/
def Several (mask : BitVec 32) : Prop := ∃ i k, i < k ∧ mask.getLsbD i ∧ mask.getLsbD k

/-- Clearing the lowest bit leaves something exactly if there is another one. -/
theorem several_iff (mask : BitVec 32) :
    mask ≠ 0 ∧ mask &&& (mask - 1) ≠ 0 ↔ Several mask := by
  have hzero : mask = 0 ↔ mask.toNat = 0 := by
    rw [← BitVec.toNat_inj]
    rfl
  have hand : mask ≠ 0 → (mask &&& (mask - 1) = 0 ↔ mask.toNat.isPowerOfTwo) := by
    intro hne
    have hpos : mask.toNat ≠ 0 := mt hzero.mpr hne
    have hsub : (mask - 1).toNat = mask.toNat - 1 := by
      have hone : (1 : BitVec 32).toNat = 1 := rfl
      have := mask.isLt
      rw [BitVec.toNat_sub, hone]
      omega
    rw [← Nat.and_sub_one_eq_zero_iff_isPowerOfTwo hpos, ← hsub, ← BitVec.toNat_and,
      ← BitVec.toNat_inj]
    rfl
  constructor
  · rintro ⟨hne, hmore⟩
    have hpos : mask.toNat ≠ 0 := mt hzero.mpr hne
    have hpower := mt (hand hne).mpr hmore
    -- the highest bit, and one in which the mask differs from this power of two
    have hne' : mask.toNat ≠ 2 ^ mask.toNat.log2 := fun heq => hpower ⟨_, heq⟩
    obtain ⟨i, hi⟩ := Nat.exists_testBit_ne_of_ne hne'
    have hlog := Nat.testBit_log2 hpos
    have hother : i ≠ mask.toNat.log2 := by
      rintro rfl
      exact hi (hlog.trans (by simp))
    have hbit : mask.toNat.testBit i = true := by
      rw [Nat.testBit_two_pow_of_ne (Ne.symm hother)] at hi
      simpa using hi
    rcases lt_or_gt_of_ne hother with hlt | hgt
    · exact ⟨i, _, hlt, hbit, hlog⟩
    · exact ⟨_, i, hgt, hlog, hbit⟩
  · rintro ⟨i, k, hik, hi, hk⟩
    have hne : mask ≠ 0 := by
      rintro rfl
      simp at hi
    refine ⟨hne, fun hmore => ?_⟩
    obtain ⟨m, hm⟩ := (hand hne).mp hmore
    simp only [BitVec.getLsbD, hm, Nat.testBit_two_pow, decide_eq_true_eq] at hi hk
    omega

/-! ## The dense specification -/

/-- What an entry says of its dimension. -/
def SliceEntry.subscript? : SliceEntry → Option SliceSubscript
  | .newAxis => none
  | .full => some ⟨0, 0, 1, true, true, false⟩
  | .given subscript => some subscript

/-- The dimensions of some entries. -/
def subscripts (entries : List SliceEntry) : List SliceSubscript :=
  entries.filterMap SliceEntry.subscript?

/-- The gather indices of some entries, when the first dimension has this index. -/
def gatherIndices : ℕ → List SliceEntry → List ℤ
  | _, [] => []
  | d, .newAxis :: entries => kNewAxis :: gatherIndices d entries
  | d, .full :: entries => d :: gatherIndices (d + 1) entries
  | d, .given subscript :: entries =>
      (if subscript.shrink then kShrinkAxis else d) :: gatherIndices (d + 1) entries

/-- What the dense specification says of a dimension. -/
def denseAt (s : DenseSpec) (d : ℕ) : SliceSubscript where
  begin_i := s.begins.getD d 0
  end_i := s.ends.getD d 0
  stride_i := s.strides.getD d 0
  beginMasked := bit s.beginMask d
  endMasked := bit s.endMask d
  shrink := bit s.shrinkAxisMask d

/-- The dense specification holds the entries so far. -/
structure Expands (rank : ℕ) (entries : List SliceEntry) (s : DenseSpec) : Prop where
  dims : s.dims = rank
  beginValid : s.beginValid = true
  endValid : s.endValid = true
  length_begins : s.begins.length = rank
  length_ends : s.ends.length = rank
  length_strides : s.strides.length = rank
  fullIndex : s.fullIndex = (subscripts entries).length
  le : s.fullIndex ≤ rank
  subscript_eq : ∀ d (hd : d < (subscripts entries).length), denseAt s d = (subscripts entries)[d]
  clear : ∀ d, s.fullIndex ≤ d → d < 32 →
    bit s.beginMask d = false ∧ bit s.endMask d = false ∧ bit s.shrinkAxisMask d = false
  gather : s.finalShapeGatherIndices = gatherIndices 0 entries

section Expands

variable {rank d : ℕ} {entries entries' : List SliceEntry} {s : DenseSpec}

theorem gatherIndices_append :
    gatherIndices d (entries ++ entries') =
      gatherIndices d entries ++ gatherIndices (d + (subscripts entries).length) entries' := by
  induction entries generalizing d with
  | nil => rfl
  | cons entry entries ih =>
      cases entry <;>
        simp [gatherIndices, ih, subscripts, SliceEntry.subscript?, List.filterMap_cons,
          Nat.add_assoc, Nat.add_comm 1]

theorem Expands.addNewAxis (hs : Expands rank entries s) :
    Expands rank (entries ++ [.newAxis]) s.addNewAxis := by
  have hsame : subscripts (entries ++ [.newAxis]) = subscripts entries := by
    simp [subscripts, SliceEntry.subscript?]
  refine ⟨hs.dims, hs.beginValid, hs.endValid, hs.length_begins, hs.length_ends,
    hs.length_strides, ?_, hs.le, ?_, hs.clear, ?_⟩
  · rw [hsame]
    exact hs.fullIndex
  · simp only [hsame]
    exact hs.subscript_eq
  · rw [gatherIndices_append, ← hs.gather]
    rfl

/-- The next dimension gets its entry, and the others keep theirs. -/
theorem Expands.addDim {entry : SliceEntry} {subscript : SliceSubscript}
    (hs : Expands rank entries s) (hrank : rank < 32) (hlt : s.fullIndex < rank)
    (hentry : entry.subscript? = some subscript) :
    Expands rank (entries ++ [entry])
      (s.addDim (some subscript.begin_i) (some subscript.end_i) subscript.stride_i
        subscript.beginMasked subscript.endMasked subscript.shrink) := by
  have hsame : subscripts (entries ++ [entry]) = subscripts entries ++ [subscript] := by
    simp [subscripts, List.filterMap_append, hentry]
  have hfull := hs.fullIndex
  have hgather : gatherIndices s.fullIndex [entry] =
      [if subscript.shrink then kShrinkAxis else (s.fullIndex : ℤ)] := by
    cases entry with
    | newAxis => cases hentry
    | full =>
        obtain rfl := Option.some.inj hentry
        rfl
    | given given =>
        obtain rfl := Option.some.inj hentry
        rfl
  have hother : ∀ {vec : List ℤ} {value : ℤ} {d : ℕ}, d ≠ s.fullIndex →
      (vec.set s.fullIndex value).getD d 0 = vec.getD d 0 := by
    intro vec value d hd
    rw [List.getD_eq_getElem?_getD, List.getD_eq_getElem?_getD,
      List.getElem?_set_ne (Ne.symm hd)]
  have hself : ∀ {vec : List ℤ} {value : ℤ}, vec.length = rank →
      (vec.set s.fullIndex value).getD s.fullIndex 0 = value := by
    intro vec value hlength
    rw [List.getD_eq_getElem _ _ (by rw [List.length_set]; omega), List.getElem_set_self]
  constructor
  · exact hs.dims
  · exact hs.beginValid
  · exact hs.endValid
  · simp [DenseSpec.addDim, hs.length_begins]
  · simp [DenseSpec.addDim, hs.length_ends]
  · simp [DenseSpec.addDim, hs.length_strides]
  · simp [DenseSpec.addDim, hsame, hfull]
  · exact hlt
  · intro d hd
    rw [hsame, List.length_append, List.length_singleton, ← hfull] at hd
    have hd' : d < 32 := by omega
    have hbits : ∀ {mask : BitVec 32} {condition : Bool},
        bit (setBit mask s.fullIndex condition) d =
          (bit mask d || (condition && decide (s.fullIndex = d))) :=
      bit_setBit (by omega) hd'
    simp only [hsame, List.getElem_append]
    rcases Nat.lt_or_eq_of_le (Nat.le_of_lt_succ hd) with hold | rfl
    · have hne : s.fullIndex ≠ d := by omega
      rw [dif_pos (hfull ▸ hold), ← hs.subscript_eq d (hfull ▸ hold)]
      simp only [denseAt, DenseSpec.addDim, Option.map_some, Option.getD_some,
        hother (Ne.symm hne), hbits, hne, decide_false, Bool.and_false, Bool.or_false]
    · have hclear := hs.clear s.fullIndex le_rfl hd'
      rw [dif_neg (by omega)]
      simp only [denseAt, DenseSpec.addDim, Option.map_some, Option.getD_some,
        hself hs.length_begins, hself hs.length_ends, hself hs.length_strides, hbits, hclear,
        decide_true, Bool.and_true, Bool.false_or]
      simp
  · intro d hd hd'
    have hne : s.fullIndex ≠ d := by
      simp only [DenseSpec.addDim] at hd
      omega
    have hclear := hs.clear d (by simp only [DenseSpec.addDim] at hd; omega) hd'
    simp only [DenseSpec.addDim]
    rw [bit_setBit (by omega) hd', bit_setBit (by omega) hd', bit_setBit (by omega) hd']
    simp [hclear, hne]
  · rw [gatherIndices_append, Nat.zero_add, ← hs.gather, ← hfull, hgather]
    rfl

/-- Some dimensions go to the ellipsis. -/
theorem Expands.addFullDims {count : ℕ} (hs : Expands rank entries s) (hrank : rank < 32)
    (hle : s.fullIndex + count ≤ rank) :
    Expands rank (entries ++ List.replicate count .full) (s.addFullDims count) := by
  induction count generalizing entries s with
  | zero => simpa [DenseSpec.addFullDims] using hs
  | succ count ih =>
      have hnext := @Expands.addDim _ _ _ .full _ hs hrank (by omega) rfl
      have hindex : s.addFullDim.fullIndex = s.fullIndex + 1 := rfl
      have hrest := ih (s := s.addFullDim) hnext (by omega)
      rwa [List.append_assoc] at hrest

end Expands

/-! ## The loop over the items -/

/-- The number of dimensions that some items index. -/
def indexedBy (items : List SliceItem) : ℕ := items.countP SliceItem.isGiven

/-- The sparse specification says this of a written slice, whose only ellipsis has these items
before and behind it. -/
structure Reads (w : WrittenSlice) (front back : List SliceItem) (sparse : SparseSpec) : Prop where
  begins : sparse.begins = some w.begins
  ends : sparse.ends = some w.ends
  strides : sparse.strides = w.strides
  beginMask : sparse.beginMask = w.beginMask
  endMask : sparse.endMask = w.endMask
  newAxisMask : sparse.newAxisMask = w.newAxisMask
  shrinkAxisMask : sparse.shrinkAxisMask = w.shrinkAxisMask
  expression : w.expression = front ++ .ellipsis :: back
  front_given : ∀ item ∈ front, item.isEllipsis = false
  back_given : ∀ item ∈ back, item.isEllipsis = false
  dims : sparse.dims = w.expression.length
  short : sparse.dims < 32
  numAddAxis : sparse.numAddAxisAfterEllipsis + indexedBy back = back.length
  ellipsis : ∀ i < sparse.dims, bit sparse.ellipsisMask i = decide (i = front.length)
  item : ∀ i < sparse.dims, i ≠ front.length →
    w.ellipsisMask.getLsbD i = false ∧ w.expression[i]? = some (w.itemAt i)

section Loop

variable {w : WrittenSlice} {front back items : List SliceItem} {sparse : SparseSpec}
  {left rank : ℕ} {s : DenseSpec}

/-- The dimensions for which some items stand. -/
theorem length_subscripts_expand :
    (subscripts (items.flatMap (SliceItem.expand left))).length =
      indexedBy items + left * items.countP SliceItem.isEllipsis := by
  induction items with
  | nil => rfl
  | cons item items ih =>
      rw [List.flatMap_cons, subscripts, List.filterMap_append, List.length_append, ← subscripts,
        ← subscripts, ih]
      cases item with
      | ellipsis =>
          have hfull : (subscripts (List.replicate left SliceEntry.full)).length = left := by
            rw [subscripts, List.filterMap_replicate_of_some
              (show SliceEntry.full.subscript? = some _ from rfl), List.length_replicate]
          have hexpand : SliceItem.expand left .ellipsis = List.replicate left .full := rfl
          rw [hexpand, hfull]
          simp [indexedBy, List.countP_cons, SliceItem.isGiven, SliceItem.isEllipsis, Nat.mul_add]
          omega
      | newAxis =>
          simp [indexedBy, SliceItem.isGiven, SliceItem.isEllipsis, SliceItem.expand, subscripts,
            SliceEntry.subscript?]
      | given subscript =>
          simp [indexedBy, List.countP_cons, SliceItem.isGiven, SliceItem.isEllipsis,
            SliceItem.expand, subscripts, SliceEntry.subscript?]
          omega

section

variable (hr : Reads w front back sparse)

include hr

theorem Reads.indexed :
    w.indexed = indexedBy front + indexedBy back ∧ w.indexed = indexedBy w.expression ∧
      w.expression.countP SliceItem.isEllipsis = 1 := by
  have hsplit : indexedBy w.expression = indexedBy front + indexedBy back := by
    rw [hr.expression, indexedBy, List.countP_append, List.countP_cons]
    simp [indexedBy, SliceItem.isGiven]
  have hitems : w.indexed = indexedBy w.expression := by
    rw [WrittenSlice.expression]
    split_ifs
    · rfl
    · rw [indexedBy, List.countP_append]
      simp [WrittenSlice.indexed, SliceItem.isGiven]
  have hnone : ∀ {items : List SliceItem}, (∀ item ∈ items, item.isEllipsis = false) →
      items.countP SliceItem.isEllipsis = 0 := by
    intro items hitems
    rw [List.countP_eq_zero]
    exact fun item hitem => by simp [hitems item hitem]
  refine ⟨hitems.trans hsplit, hitems, ?_⟩
  rw [hr.expression, List.countP_append, List.countP_cons, hnone hr.front_given,
    hnone hr.back_given]
  rfl

/-- The ellipsis stands for the dimensions that are not indexed. -/
theorem Reads.length_subscripts (rank : ℕ) :
    (subscripts (w.entries rank)).length = w.indexed + (rank - w.indexed) := by
  obtain ⟨-, hindexed, hsingle⟩ := hr.indexed
  rw [WrittenSlice.entries, length_subscripts_expand, hsingle, ← hindexed, Nat.mul_one]

/-- One item is expanded. -/
theorem visit_expands {i : ℕ} {item : SliceItem} (hrank : rank < 32)
    (hi : w.expression[i]? = some item)
    (hs : Expands rank ((w.expression.take i).flatMap (SliceItem.expand (rank - w.indexed))) s) :
    (∃ s', s.visit sparse i = .ok s' ∧
        Expands rank
          ((w.expression.take (i + 1)).flatMap (SliceItem.expand (rank - w.indexed))) s') ∨
      (∃ e, s.visit sparse i = .error e) ∧ rank < w.indexed := by
  obtain ⟨hindexed, hexpression, hsingle⟩ := hr.indexed
  obtain ⟨hlt, hget⟩ := List.getElem?_eq_some_iff.mp hi
  have hdims : i < sparse.dims := hr.dims ▸ hlt
  have hshort : i < 32 := hdims.trans hr.short
  have htake : (w.expression.take (i + 1)).flatMap (SliceItem.expand (rank - w.indexed)) =
      (w.expression.take i).flatMap (SliceItem.expand (rank - w.indexed)) ++
        item.expand (rank - w.indexed) := by
    rw [List.take_add_one, hi, List.flatMap_append]
    simp
  have hlength := @length_subscripts_expand (w.expression.take i) (rank - w.indexed)
  rw [← hs.fullIndex] at hlength
  by_cases hellipsis : i = front.length
  · -- the ellipsis takes the dimensions that the other items leave
    subst hellipsis
    have hfront : w.expression.take front.length = front := by
      rw [hr.expression, List.take_left]
    have hitem : item = .ellipsis := by
      rw [hr.expression] at hi
      simpa using hi.symm
    have hnone : front.countP SliceItem.isEllipsis = 0 :=
      List.countP_eq_zero.mpr fun item hitem => by simp [hr.front_given item hitem]
    have hwhole : sparse.dims = front.length + 1 + back.length := by
      rw [hr.dims, hr.expression]
      simp
      omega
    rw [hfront, hnone, Nat.mul_zero, Nat.add_zero] at hlength
    have hnum := hr.numAddAxis
    have hcount : (min ((s.dims : ℤ) - ((sparse.dims : ℤ) - (front.length : ℕ)) + 1 +
        sparse.numAddAxisAfterEllipsis) s.dims - s.fullIndex).toNat = rank - w.indexed := by
      rw [hs.dims]
      omega
    have hle := hs.le
    refine .inl ⟨s.addFullDims (rank - w.indexed), ?_, ?_⟩
    · rw [DenseSpec.visit, hr.ellipsis _ hdims]
      simp only [decide_true, if_true, hcount]
    · rw [htake, hitem]
      exact hs.addFullDims hrank (by omega)
  · obtain ⟨hbit, hitem⟩ := hr.item i hdims hellipsis
    obtain rfl : item = w.itemAt i := Option.some.inj (hi.symm.trans hitem)
    have hvisit : bit sparse.ellipsisMask i = false := by
      rw [hr.ellipsis i hdims]
      simpa using hellipsis
    rw [DenseSpec.visit, hvisit, hr.newAxisMask, bit_eq_getLsbD hshort]
    simp only [Bool.false_eq_true, if_false]
    cases hnew : w.newAxisMask.getLsbD i with
    | true =>
        have hnext : w.itemAt i = .newAxis := by simp [WrittenSlice.itemAt, hbit, hnew]
        rw [htake, hnext]
        exact .inl ⟨_, rfl, hs.addNewAxis⟩
    | false =>
        have hgiven : w.itemAt i = .given (w.subscriptAt i) := by
          simp [WrittenSlice.itemAt, hbit, hnew]
        simp only [Bool.false_eq_true, if_false]
        rw [hs.length_begins]
        by_cases hfull : s.fullIndex = rank
        · refine .inr ⟨⟨_, if_pos hfull⟩, ?_⟩
          have hgivens :=
            (List.take_sublist (i + 1) w.expression).countP_le (p := SliceItem.isGiven)
          have hellipses :=
            (List.take_sublist i w.expression).countP_le (p := SliceItem.isEllipsis)
          rw [List.take_add_one, hi, hgiven, List.countP_append] at hgivens
          have hone : [SliceItem.given (w.subscriptAt i)].countP SliceItem.isGiven = 1 := rfl
          have hmul := Nat.mul_le_mul_left (rank - w.indexed) (hellipses.trans hsingle.le)
          simp only [Option.toList_some, hone] at hgivens
          rw [indexedBy] at hlength hexpression
          omega
        · rw [if_neg hfull, htake, hgiven]
          refine .inl ⟨_, rfl, ?_⟩
          have hnext := @Expands.addDim _ _ _ (.given (w.subscriptAt i)) _ hs hrank
            (lt_of_le_of_ne hs.le hfull) rfl
          rw [hr.begins, hr.ends, hr.strides, hr.beginMask, hr.endMask, hr.shrinkAxisMask,
            bit_eq_getLsbD hshort, bit_eq_getLsbD hshort, bit_eq_getLsbD hshort]
          exact hnext

theorem foldlM_visit_expands {start : DenseSpec} (hrank : rank < 32)
    (hstart : Expands rank [] start) {n : ℕ} (hn : n ≤ sparse.dims) :
    (∃ s, (List.range n).foldlM (DenseSpec.visit sparse) start = .ok s ∧
        Expands rank ((w.expression.take n).flatMap (SliceItem.expand (rank - w.indexed))) s) ∨
      (∃ e, (List.range n).foldlM (DenseSpec.visit sparse) start = .error e) ∧
        rank < w.indexed := by
  induction n with
  | zero => exact .inl ⟨start, rfl, hstart⟩
  | succ n ih =>
      rw [List.range_succ, List.foldlM_append]
      rcases ih (by omega) with ⟨s, hrun, hs⟩ | ⟨⟨e, hrun⟩, hmany⟩
      · obtain ⟨item, hget⟩ : ∃ item, w.expression[n]? = some item :=
          ⟨_, List.getElem?_eq_getElem (hr.dims ▸ hn)⟩
        rcases visit_expands hr hrank hget hs with ⟨s', hvisit, hs'⟩ | ⟨⟨e, hvisit⟩, hmany⟩
        · exact .inl ⟨s', by rw [hrun]; exact (bind_pure _).trans hvisit, hs'⟩
        · exact .inr ⟨⟨e, by rw [hrun]; exact (bind_pure _).trans hvisit⟩, hmany⟩
      · exact .inr ⟨⟨e, by rw [hrun]; rfl⟩, hmany⟩

/-- The dense specification holds all entries, unless more dimensions are indexed than there are. -/
theorem buildDenseSpec_spec (hrank : rank < 32) :
    (∃ s, buildDenseSpec sparse rank = .ok s ∧ Expands rank (w.entries rank) s ∧
        w.indexed ≤ rank) ∨
      (∃ e, buildDenseSpec sparse rank = .error e) ∧ rank < w.indexed := by
  have hstart : Expands rank []
      { dims := rank
        beginValid := sparse.begins.isSome
        endValid := sparse.ends.isSome
        begins := List.replicate rank 0
        ends := List.replicate rank 0
        strides := List.replicate rank 0 } := by
    refine ⟨rfl, by rw [hr.begins]; rfl, by rw [hr.ends]; rfl, List.length_replicate,
      List.length_replicate, List.length_replicate, rfl, Nat.zero_le _, by simp [subscripts],
      fun d _ hd => ?_, rfl⟩
    simp [bit_eq_getLsbD hd]
  rcases foldlM_visit_expands hr hrank hstart le_rfl with ⟨s, hrun, hs⟩ | hfails
  · rw [hr.dims, List.take_length] at hs
    have hlength := hr.length_subscripts rank
    have hfull := hs.fullIndex
    have hle := hs.le
    exact .inl ⟨s, hrun, hs, by rw [WrittenSlice.entries] at hlength; omega⟩
  · exact .inr hfails

end

end Loop

/-! ## The ellipsis -/

section Ellipsis

variable {w : WrittenSlice}

theorem foldl_newAxes {ellipsisMask newAxisMask : BitVec 32} {indices : List ℕ} {count : ℕ} :
    indices.foldl (fun (s : Bool × ℕ) i =>
      (s.1 || bit ellipsisMask i, if s.1 ∧ bit newAxisMask i then s.2 + 1 else s.2)) (true, count) =
      (true, count + indices.countP fun i => bit newAxisMask i) := by
  induction indices generalizing count with
  | nil => rfl
  | cons i indices ih =>
      rw [List.foldl_cons]
      cases hbit : bit newAxisMask i with
      | true => simp [hbit, ih, Nat.add_assoc, Nat.add_comm 1]
      | false => simp [hbit, ih]

theorem foldl_noEllipsis {ellipsisMask newAxisMask : BitVec 32} {indices : List ℕ}
    (hnone : ∀ i ∈ indices, bit ellipsisMask i = false) :
    indices.foldl (fun (s : Bool × ℕ) i =>
      (s.1 || bit ellipsisMask i, if s.1 ∧ bit newAxisMask i then s.2 + 1 else s.2)) (false, 0) =
      (false, 0) := by
  induction indices with
  | nil => rfl
  | cons i indices ih =>
      obtain ⟨hi, hrest⟩ := List.forall_mem_cons.mp hnone
      simp [hi, ih hrest]

/-- The sparse specification of the operation, before an ellipsis is added. -/
def WrittenSlice.sparse (w : WrittenSlice) : SparseSpec where
  dims := w.strides.length
  numAddAxisAfterEllipsis := (countNewAxes w.ellipsisMask w.newAxisMask w.strides.length).2
  begins := some w.begins
  ends := some w.ends
  strides := w.strides
  beginMask := w.beginMask
  endMask := w.endMask
  ellipsisMask := w.ellipsisMask
  newAxisMask := w.newAxisMask
  shrinkAxisMask := w.shrinkAxisMask

theorem itemAt_isEllipsis (i : ℕ) : (w.itemAt i).isEllipsis = w.ellipsisMask.getLsbD i := by
  rw [WrittenSlice.itemAt]
  split_ifs with hbit hnew
  · exact hbit.symm
  · exact (Bool.eq_false_of_not_eq_true hbit).symm
  · exact (Bool.eq_false_of_not_eq_true hbit).symm

theorem countP_newAxes {indices : List ℕ} (hshort : ∀ i ∈ indices, i < 32)
    (hnone : ∀ i ∈ indices, w.ellipsisMask.getLsbD i = false) :
    indices.countP (fun i => bit w.newAxisMask i) + indexedBy (indices.map w.itemAt) =
      indices.length := by
  induction indices with
  | nil => rfl
  | cons i indices ih =>
      obtain ⟨hi, hrest⟩ := List.forall_mem_cons.mp hshort
      obtain ⟨hbit, hbits⟩ := List.forall_mem_cons.mp hnone
      have htail := ih hrest hbits
      rw [indexedBy] at htail ⊢
      rw [List.map_cons, List.countP_cons, List.countP_cons, bit_eq_getLsbD hi, List.length_cons]
      cases hnew : w.newAxisMask.getLsbD i with
      | true =>
          have hitem : (w.itemAt i).isGiven = false := by
            simp [WrittenSlice.itemAt, hbit, hnew, SliceItem.isGiven]
          simp only [hitem, if_true, Bool.false_eq_true, if_false]
          omega
      | false =>
          have hitem : (w.itemAt i).isGiven = true := by
            simp [WrittenSlice.itemAt, hbit, hnew, SliceItem.isGiven]
          simp only [hitem, if_true, Bool.false_eq_true, if_false]
          omega

/-- With an ellipsis among the items. -/
theorem reads_of_ellipsis {p m : ℕ} (hlength : w.strides.length = p + 1 + m)
    (hshort : w.strides.length < 31) (hone : ¬ Several w.ellipsisMask)
    (hp : w.ellipsisMask.getLsbD p = true) :
    Reads w ((List.range p).map w.itemAt)
      (((List.range m).map fun k => p + 1 + k).map w.itemAt)
      (w.sparse.addEllipsis (countNewAxes w.ellipsisMask w.newAxisMask w.strides.length).1) := by
  have hunique : ∀ i, i ≠ p → w.ellipsisMask.getLsbD i = false := by
    intro i hi
    by_contra hbit
    rw [Bool.not_eq_false] at hbit
    rcases lt_or_gt_of_ne hi with hlt | hgt
    · exact hone ⟨i, p, hlt, hbit, hp⟩
    · exact hone ⟨p, i, hgt, hp, hbit⟩
  have hbit : ∀ i < 32, bit w.ellipsisMask i = decide (i = p) := by
    intro i hi
    rw [bit_eq_getLsbD hi]
    by_cases hip : i = p
    · simp [hip, hp]
    · simp [hip, hunique i hip]
  have hrange : List.range w.strides.length =
      List.range p ++ p :: (List.range m).map fun k => p + 1 + k := by
    rw [hlength, List.range_add, List.range_succ, List.append_assoc]
    rfl
  have hbackShort : ∀ i ∈ (List.range m).map fun k => p + 1 + k, i < 32 ∧ i ≠ p := by
    refine List.forall_mem_map.mpr fun k hk => ?_
    have := List.mem_range.mp hk
    omega
  have hcount : countNewAxes w.ellipsisMask w.newAxisMask w.strides.length =
      (true, ((List.range m).map fun k => p + 1 + k).countP fun i => bit w.newAxisMask i) := by
    have hfront : ∀ i ∈ List.range p, bit w.ellipsisMask i = false := by
      intro i hi
      have := List.mem_range.mp hi
      rw [hbit i (by omega)]
      simp
      omega
    rw [countNewAxes, hrange, List.foldl_append, foldl_noEllipsis hfront, List.foldl_cons,
      hbit p (by omega)]
    simp only [Bool.false_or, decide_true, Bool.false_eq_true, false_and, if_false]
    rw [foldl_newAxes, Nat.zero_add]
  have hitems : w.items = (List.range p).map w.itemAt ++
      .ellipsis :: ((List.range m).map fun k => p + 1 + k).map w.itemAt := by
    have hitem : w.itemAt p = .ellipsis := by simp [WrittenSlice.itemAt, hp]
    rw [WrittenSlice.items, hrange, List.map_append, List.map_cons, hitem]
  have hexpression : w.expression = w.items := by
    rw [WrittenSlice.expression, if_pos]
    rw [hitems]
    simp [SliceItem.isEllipsis]
  have hlength' : w.items.length = w.strides.length := by simp [WrittenSlice.items]
  have hsame : w.sparse.addEllipsis true = w.sparse := rfl
  rw [hcount, hsame]
  refine ⟨rfl, rfl, rfl, rfl, rfl, rfl, rfl, hexpression.trans hitems, ?_, ?_, ?_, ?_, ?_, ?_, ?_⟩
  · refine List.forall_mem_map.mpr fun i hi => ?_
    rw [itemAt_isEllipsis, hunique i (List.mem_range.mp hi).ne]
  · refine List.forall_mem_map.mpr fun i hi => ?_
    rw [itemAt_isEllipsis, hunique i (hbackShort i hi).2]
  · rw [hexpression, hlength']
    rfl
  · exact lt_trans hshort (by decide)
  · rw [WrittenSlice.sparse, hcount, List.length_map]
    exact countP_newAxes (fun i hi => (hbackShort i hi).1)
      fun i hi => hunique i (hbackShort i hi).2
  · intro i hi
    have : i < 31 := lt_trans hi hshort
    rw [List.length_map, List.length_range]
    exact hbit i (by omega)
  · intro i hi hip
    rw [List.length_map, List.length_range] at hip
    refine ⟨hunique i hip, ?_⟩
    have hlt : i < w.strides.length := hi
    rw [hexpression, WrittenSlice.items, List.getElem?_map, List.getElem?_range hlt]
    rfl

/-- Without one, which is then added at the end. -/
theorem reads_of_no_ellipsis (hshort : w.strides.length < 31)
    (hnone : ∀ i < w.strides.length, w.ellipsisMask.getLsbD i = false) :
    Reads w w.items []
      (w.sparse.addEllipsis (countNewAxes w.ellipsisMask w.newAxisMask w.strides.length).1) := by
  have hlength : w.items.length = w.strides.length := by simp [WrittenSlice.items]
  have hbit : ∀ i ∈ List.range w.strides.length, bit w.ellipsisMask i = false := by
    intro i hi
    have hlt := List.mem_range.mp hi
    rw [bit_eq_getLsbD (by omega), hnone i hlt]
  have hcount : countNewAxes w.ellipsisMask w.newAxisMask w.strides.length = (false, 0) :=
    foldl_noEllipsis hbit
  have hitems : ∀ item ∈ w.items, item.isEllipsis = false := by
    refine List.forall_mem_map.mpr fun i hi => ?_
    rw [itemAt_isEllipsis, hnone i (List.mem_range.mp hi)]
  have hexpression : w.expression = w.items ++ [.ellipsis] := by
    rw [WrittenSlice.expression, if_neg]
    rw [Bool.not_eq_true, List.any_eq_false]
    exact fun item hitem => by simp [hitems item hitem]
  have hadded : w.sparse.addEllipsis false =
      { w.sparse with
        ellipsisMask := setBit w.ellipsisMask w.strides.length true
        dims := w.strides.length + 1 } := rfl
  rw [hcount, hadded]
  refine ⟨rfl, rfl, rfl, rfl, rfl, rfl, rfl, hexpression, hitems, ?_, ?_, ?_, ?_, ?_, ?_⟩
  · exact fun item hitem => absurd hitem List.not_mem_nil
  · rw [hexpression, List.length_append, hlength]
    rfl
  · change w.strides.length + 1 < 32
    omega
  · rw [WrittenSlice.sparse, hcount]
    rfl
  · intro i hi
    have hle : i < w.strides.length + 1 := hi
    rw [bit_setBit (by omega) (by omega), hlength]
    rcases Nat.lt_or_eq_of_le (Nat.le_of_lt_succ hle) with hlt | rfl
    · simp [hbit i (List.mem_range.mpr hlt), hlt.ne, hlt.ne']
    · simp
  · intro i hi hne
    have hle : i < w.strides.length + 1 := hi
    rw [hlength] at hne
    have hlt : i < w.strides.length := by omega
    refine ⟨hnone i hlt, ?_⟩
    rw [hexpression, List.getElem?_append_left (hlength ▸ hlt), WrittenSlice.items,
      List.getElem?_map, List.getElem?_range hlt]
    rfl

/-- The sparse specification says what is written. -/
theorem exists_reads (hshort : w.strides.length < 31) (hone : ¬ Several w.ellipsisMask) :
    ∃ front back, Reads w front back
      (w.sparse.addEllipsis (countNewAxes w.ellipsisMask w.newAxisMask w.strides.length).1) := by
  by_cases hellipsis : ∃ p < w.strides.length, w.ellipsisMask.getLsbD p = true
  · obtain ⟨p, hlt, hp⟩ := hellipsis
    have hlength : w.strides.length = p + 1 + (w.strides.length - (p + 1)) := by omega
    exact ⟨_, _, reads_of_ellipsis hlength hshort hone hp⟩
  · refine ⟨_, _, reads_of_no_ellipsis hshort fun i hi => ?_⟩
    exact Bool.eq_false_of_not_eq_true fun hbit => hellipsis ⟨i, hi, hbit⟩

end Ellipsis

end ContainerScheduler.Analysis
