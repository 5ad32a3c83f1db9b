/-
# Collapsed broadcasting is broadcasting

`BCastList` drops the axes of size one and joins neighbouring axes that are stretched alike. The
input that is reshaped to the joined axes and tiled shows at each position what the uncollapsed rule
shows there. The axes that are joined are kept as a list of groups, from the outermost on.
-/

import ContainerScheduler.Analysis.BroadcastShape
import ContainerScheduler.Math.RowMajor
import Mathlib.Algebra.BigOperators.Ring.Finset

namespace ContainerScheduler.Analysis

open Broadcast Math.RowMajor

/-! ## The positions of the batches -/

section BatchIndices

variable {f : ℕ → ℕ} {start count incr : ℕ} {entries : List ℤ}

/-- The inner loop extends a table of values from the front, of which it only needs that they grow
by `incr` when the position grows by `start`. -/
theorem copyEntries_spec (hstart : 0 < start) (hlength : start + count ≤ entries.length)
    (hfront : ∀ p < start, entries.getD p 0 = f p)
    (hstep : ∀ k < count, f (start + k) = f k + incr) (hbound : ∀ p, f p < 2 ^ 63) :
    (copyEntries start incr count entries).length = entries.length ∧
      ∀ p < start + count, (copyEntries start incr count entries).getD p 0 = f p := by
  induction count with
  | zero => exact ⟨rfl, hfront⟩
  | succ count ih =>
      obtain ⟨hlen, hall⟩ := ih (by omega) fun k hk => hstep k (by omega)
      have hvalue : int64 ((copyEntries start incr count entries).getD count 0 + incr) =
          f (start + count) := by
        have hgrow := hstep count (by omega)
        have hlt := hbound (start + count)
        rw [hall count (by omega), ← Nat.cast_add, ← hgrow, int64_of_lt (by omega) (by omega)]
      have hsucc : copyEntries start incr (count + 1) entries =
          (copyEntries start incr count entries).set (start + count) (f (start + count)) := by
        rw [← hvalue, copyEntries, List.range_succ, List.foldl_append]
        rfl
      rw [hsucc]
      refine ⟨by rw [List.length_set, hlen], fun p hp => ?_⟩
      rcases Nat.lt_or_eq_of_le (show p ≤ start + count by omega) with hlt | rfl
      · rw [← hall p hlt, List.getD_eq_getElem?_getD, List.getElem?_set_ne (by omega),
          ← List.getD_eq_getElem?_getD]
      · rw [List.getD_eq_getElem _ _ (by rw [List.length_set]; omega), List.getElem_set_self]

/-- The sizes to which an axis of the input and its repetitions lead. -/
def tiledSizes (dims : List (ℕ × ℕ)) : List ℕ := dims.map fun dim => dim.1 * dim.2

/-- The table after some of the innermost axes. -/
structure BatchTable (total : ℕ) (dims : List (ℕ × ℕ)) (s : BatchIndices) : Prop where
  length : s.outIndices.length = total
  numOutputElements : s.numOutputElements = (tiledSizes dims).prod
  numInputElements : s.numInputElements = (dims.map Prod.fst).prod
  entries : ∀ p < (tiledSizes dims).prod,
    s.outIndices.getD p 0 = tileIndex (dims.map Prod.fst) (dims.map Prod.snd) p

theorem zipWith_mul_eq_tiledSizes (dims : List (ℕ × ℕ)) :
    List.zipWith (· * ·) (dims.map Prod.fst) (dims.map Prod.snd) = tiledSizes dims := by
  simp [tiledSizes, List.zipWith_map_left, List.zipWith_map_right]

/-- When the position grows by the number of outputs so far, the input moves on by one if it is not
repeated, and stays if it is. -/
theorem tileIndex_step {dims : List (ℕ × ℕ)} {r t k : ℕ} (hr : 0 < r) (ht : 0 < t)
    (hone : r = 1 ∨ t = 1) (hpos : 0 < (tiledSizes dims).prod)
    (hk : k < (r * t - 1) * (tiledSizes dims).prod) :
    tileIndex (r :: dims.map Prod.fst) (t :: dims.map Prod.snd) ((tiledSizes dims).prod + k) =
      tileIndex (r :: dims.map Prod.fst) (t :: dims.map Prod.snd) k +
        if t > 1 then 0 else (dims.map Prod.fst).prod := by
  have hperiod := @tileIndex_add_mul k (dims.map Prod.fst) (dims.map Prod.snd) 1
  rw [zipWith_mul_eq_tiledSizes, Nat.one_mul, Nat.add_comm] at hperiod
  have hquot : ((tiledSizes dims).prod + k) / (tiledSizes dims).prod =
      k / (tiledSizes dims).prod + 1 := by
    rw [Nat.add_comm, Nat.add_div_right _ hpos]
  have hlt : k / (tiledSizes dims).prod < r * t - 1 := Nat.div_lt_of_lt_mul (by rwa [Nat.mul_comm])
  rw [tileIndex_cons, tileIndex_cons, zipWith_mul_eq_tiledSizes, hperiod, hquot]
  rcases hone with rfl | rfl
  · split_ifs with htwo
    · simp [Nat.mod_one]
    · have : t = 1 := by omega
      subst this
      omega
  · rw [if_neg (by omega), Nat.mul_one] at *
    rw [Nat.mod_mod, Nat.mod_mod, Nat.mod_eq_of_lt (show _ < r by omega),
      Nat.mod_eq_of_lt (show _ < r by omega), Nat.add_mul, Nat.one_mul]
    omega

theorem int64_natCast {value : ℕ} (hlt : value < 2 ^ 63) : int64 (value : ℤ) = value :=
  int64_of_lt (by omega) (by exact_mod_cast hlt)

theorem prod_tiledSizes (dims : List (ℕ × ℕ)) :
    (tiledSizes dims).prod = (dims.map Prod.fst).prod * (dims.map Prod.snd).prod :=
  List.prod_map_mul

theorem addDim_table {total r t : ℕ} {dims : List (ℕ × ℕ)} {s : BatchIndices}
    (hs : BatchTable total dims s) (hpos : ∀ dim ∈ (r, t) :: dims, 0 < dim.1 ∧ 0 < dim.2)
    (hone : r = 1 ∨ t = 1) (htotal : (tiledSizes ((r, t) :: dims)).prod ≤ total)
    (hbound : total < 2 ^ 63) :
    BatchTable total ((r, t) :: dims) (s.addDim r t) := by
  obtain ⟨⟨hr, ht⟩, hdims⟩ := List.forall_mem_cons.mp hpos
  have hcons : (tiledSizes ((r, t) :: dims)).prod = r * t * (tiledSizes dims).prod := rfl
  have hsizes : 0 < (dims.map Prod.fst).prod ∧ 0 < (dims.map Prod.snd).prod := by
    simp only [List.prod_pos_iff_forall_pos_nat, List.forall_mem_map]
    exact ⟨fun dim hdim => (hdims dim hdim).1, fun dim hdim => (hdims dim hdim).2⟩
  have hpos' : 0 < (tiledSizes dims).prod := by
    rw [prod_tiledSizes]
    exact Nat.mul_pos hsizes.1 hsizes.2
  have hinput : (((r, t) :: dims).map Prod.fst).prod ≤ total := by
    refine le_trans ?_ htotal
    rw [prod_tiledSizes]
    exact Nat.le_mul_of_pos_right _ (Nat.mul_pos ht hsizes.2)
  have hmax : max (r : ℤ) t = ((r * t : ℕ) : ℤ) := by
    rcases hone with rfl | rfl <;> simp <;> omega
  have hprod : 1 ≤ r * t := Nat.mul_pos hr ht
  have hgrown : (tiledSizes dims).prod + (r * t - 1) * (tiledSizes dims).prod =
      r * t * (tiledSizes dims).prod := by
    rw [Nat.add_comm, ← Nat.succ_mul, Nat.succ_eq_add_one, Nat.sub_add_cancel hprod]
  have hcount : (int64 ((max (r : ℤ) t - 1) * s.numOutputElements)).toNat =
      (r * t - 1) * (tiledSizes dims).prod := by
    rw [hmax, hs.numOutputElements, ← Nat.cast_one, ← Nat.cast_sub hprod, ← Nat.cast_mul,
      int64_natCast (by omega), Int.toNat_natCast]
  have hincr : (if (t : ℤ) > 1 then 0 else s.numInputElements) =
      ((if t > 1 then 0 else (dims.map Prod.fst).prod : ℕ) : ℤ) := by
    rw [hs.numInputElements]
    split_ifs <;> first | rfl | omega
  have houtput : (s.addDim r t).outIndices = copyEntries (tiledSizes dims).prod
      ((if t > 1 then 0 else (dims.map Prod.fst).prod : ℕ) : ℤ)
      ((r * t - 1) * (tiledSizes dims).prod) s.outIndices := by
    rw [← hincr, ← hcount, BatchIndices.addDim, hs.numOutputElements, Int.toNat_natCast]
  have hfront : ∀ p < (tiledSizes dims).prod, s.outIndices.getD p 0 =
      tileIndex (r :: dims.map Prod.fst) (t :: dims.map Prod.snd) p := by
    intro p hp
    rw [hs.entries p hp, tileIndex_cons, zipWith_mul_eq_tiledSizes, Nat.div_eq_of_lt hp]
    simp
  have hlt : ∀ p, tileIndex (r :: dims.map Prod.fst) (t :: dims.map Prod.snd) p < 2 ^ 63 := by
    intro p
    refine (lt_of_lt_of_le (tileIndex_lt ?_) hinput).trans hbound
    exact List.forall_mem_map.mpr fun dim hdim => (hpos dim hdim).1
  obtain ⟨hlength, hentries⟩ := copyEntries_spec hpos' (by rw [hgrown, hs.length]; exact htotal)
    hfront (fun k hk => tileIndex_step hr ht hone hpos' hk) hlt
  constructor
  · rw [houtput, hlength, hs.length]
  · have hmul : (tiledSizes dims).prod * (r * t) = (tiledSizes ((r, t) :: dims)).prod :=
      Nat.mul_comm _ _
    rw [BatchIndices.addDim, hmax, hs.numOutputElements, ← Nat.cast_mul, hmul,
      int64_natCast (by omega)]
  · have hmul : (dims.map Prod.fst).prod * r = (((r, t) :: dims).map Prod.fst).prod :=
      Nat.mul_comm _ _
    rw [BatchIndices.addDim, hs.numInputElements, ← Nat.cast_mul, hmul,
      int64_natCast (lt_of_le_of_lt hinput hbound)]
  · rw [houtput, hcons, ← hgrown]
    exact hentries

theorem foldr_addDim_table {total : ℕ} {dims : List (ℕ × ℕ)}
    (hpos : ∀ dim ∈ dims, 0 < dim.1 ∧ 0 < dim.2) (hone : ∀ dim ∈ dims, dim.1 = 1 ∨ dim.2 = 1)
    (htotal : (tiledSizes dims).prod ≤ total) (hbound : total < 2 ^ 63) :
    BatchTable total dims ((dims.map fun dim => ((dim.1 : ℤ), (dim.2 : ℤ))).foldr
      (fun dim s => s.addDim dim.1 dim.2) { outIndices := List.replicate total 0 }) := by
  induction dims with
  | nil =>
      refine ⟨List.length_replicate, rfl, rfl, fun p _ => ?_⟩
      cases hp : (List.replicate total (0 : ℤ))[p]? with
      | none => simp [List.getD_eq_getElem?_getD, hp]
      | some entry =>
          have := List.eq_of_mem_replicate (List.mem_of_getElem? hp)
          simp [List.getD_eq_getElem?_getD, hp, this]
  | cons dim dims ih =>
      obtain ⟨hdim, hdims⟩ := List.forall_mem_cons.mp hpos
      have hle : (tiledSizes dims).prod ≤ (tiledSizes (dim :: dims)).prod :=
        Nat.le_mul_of_pos_left _ (Nat.mul_pos hdim.1 hdim.2)
      exact addDim_table (ih hdims (fun d hd => hone d (List.mem_cons_of_mem _ hd))
        (hle.trans htotal)) hpos (hone dim List.mem_cons_self) htotal hbound

/-- The table of the positions is that of the tiled input. -/
theorem computeBatchIndices_eq {total : ℕ} {dims : List (ℕ × ℕ)}
    (hpos : ∀ dim ∈ dims, 0 < dim.1 ∧ 0 < dim.2) (hone : ∀ dim ∈ dims, dim.1 = 1 ∨ dim.2 = 1)
    (htotal : (tiledSizes dims).prod = total) (hbound : total < 2 ^ 63) :
    computeBatchIndices total (dims.map fun dim => (dim.1 : ℤ)) (dims.map fun dim => (dim.2 : ℤ)) =
      (List.range total).map fun flat =>
        (tileIndex (dims.map Prod.fst) (dims.map Prod.snd) flat : ℤ) := by
  obtain ⟨hlength, -, -, hentries⟩ := foldr_addDim_table hpos hone htotal.le hbound
  have hzip : (dims.map fun dim => (dim.1 : ℤ)).zip (dims.map fun dim => (dim.2 : ℤ)) =
      dims.map fun dim => ((dim.1 : ℤ), (dim.2 : ℤ)) := by
    rw [List.zip_map']
  rw [computeBatchIndices, hzip, Int.toNat_natCast]
  refine List.ext_getElem (by simpa using hlength) fun p h₁ h₂ => ?_
  have hp : p < (tiledSizes dims).prod := by rw [htotal]; simpa using h₂
  rw [← List.getD_eq_getElem _ 0 h₁, hentries p hp]
  simp

end BatchIndices

/-! ## The groups of axes -/

section Groups

variable {n : ℕ} (x : Fin (n + 1) → Vec)

/-- The size of an input along an axis, and the size of the result. -/
def axisAt (i : Fin (n + 1)) (axis : ℕ) : ℕ × ℕ :=
  ((sizesAt x axis i).toNat, (broadcastSize (sizesAt x axis)).toNat)

/-- A vector with one entry for each group of axes, a product of sizes. -/
def joined (f : ℕ × ℕ → ℕ) (i : Fin (n + 1)) (groups : List (List ℕ)) : Vec :=
  groups.map fun axes => int64 ((axes.map (axisAt x i)).map f).prod

/-- The axes along which an input has size one. -/
def onesOf (i : Fin (n + 1)) (axes : List ℕ) : Vec :=
  (axes.filter fun axis => sizesAt x axis i = 1).map Nat.cast

/-- The axes that are not dropped. -/
def keeps (fewerDims : Bool) (axis : ℕ) : Bool :=
  !fewerDims || decide (∃ i, sizesAt x axis i ≠ 1)

/-- The axes of the last group are stretched for the inputs that this pattern says. -/
def FollowsPattern (isOne : Fin (n + 1) → Bool) (axes : List ℕ) : Prop :=
  ∀ i, ∀ axis ∈ axes,
    (axisAt x i axis).1 = if isOne i then 1 else (axisAt x i axis).2

/-- What the loop has built after these axes. -/
structure CollapseLoop (fewerDims : Bool) (axes : List ℕ) (groups : List (List ℕ))
    (s : Loop (n + 1)) : Prop where
  kept : groups.flatten = axes.filter (keeps x fewerDims)
  alike : ∀ group ∈ groups, ∀ i, Alike (group.map (axisAt x i))
  reshape : ∀ i, s.reshape i = (joined x Prod.fst i groups).reverse
  bcast : ∀ i, s.bcast i = (joined x repeats i groups).reverse
  result : ∀ i, s.result = (joined x Prod.snd i groups).reverse
  gradReduceIdx : ∀ i, s.gradReduceIdx i = (onesOf x i axes).reverse
  pattern : fewerDims = true → s.setOne = true →
    ∃ last rest, groups = last :: rest ∧ FollowsPattern x s.prevIsOne last

variable {x} {f : ℕ × ℕ → ℕ} {i : Fin (n + 1)} {axis : ℕ} {group : List ℕ}
  {groups : List (List ℕ)} {value : ℤ} {isOne : Fin (n + 1) → Bool}

theorem joined_push (hvalue : value = f (axisAt x i axis)) (hbound : value < 2 ^ 63) :
    (joined x f i groups).reverse ++ [value] = (joined x f i ([axis] :: groups)).reverse := by
  have hint : int64 (f (axisAt x i axis) : ℤ) = value := by
    rw [hvalue, int64_of_lt (by omega) (by omega)]
  simp [joined, hint]

theorem joined_merge (hvalue : value = f (axisAt x i axis)) :
    multiplyBack (joined x f i (group :: groups)).reverse value =
      (joined x f i ((axis :: group) :: groups)).reverse := by
  simp only [joined, List.map_cons, List.reverse_cons, List.prod_cons, multiplyBack,
    List.modifyLast_concat, int64_mul_int64, hvalue]
  rw [Nat.cast_mul, mul_comm]

theorem FollowsPattern.alike (hgroup : FollowsPattern x isOne group) :
    Alike (group.map (axisAt x i)) := by
  cases hone : isOne i with
  | true =>
      refine .inr (List.forall_mem_map.mpr fun axis haxis => ?_)
      simpa [hone] using hgroup i axis haxis
  | false =>
      refine .inl (List.forall_mem_map.mpr fun axis haxis => ?_)
      simpa [hone] using hgroup i axis haxis

/-! ## One round of the loop -/

section Round

variable {fewerDims : Bool} {axes : List ℕ} {s : Loop (n + 1)} {agreed : Agreement}

/-- All sizes are below `2 ^ 31`. -/
def Narrow (x : Fin (n + 1) → Vec) : Prop :=
  ∀ axis i, 0 ≤ sizesAt x axis i ∧ sizesAt x axis i < 2 ^ 31

theorem Narrow.int32_eq (hnarrow : Narrow x) (axis : ℕ) (i : Fin (n + 1)) :
    int32 (sizesAt x axis i) = sizesAt x axis i :=
  int32_of_lt (hnarrow axis i).1 (hnarrow axis i).2

theorem Narrow.axisAt_fst (hnarrow : Narrow x) (i : Fin (n + 1)) (axis : ℕ) :
    ((axisAt x i axis).1 : ℤ) = sizesAt x axis i :=
  Int.toNat_of_nonneg (hnarrow axis i).1

theorem Narrow.broadcastSize_bounds (hnarrow : Narrow x) (axis : ℕ) :
    0 ≤ broadcastSize (sizesAt x axis) ∧ broadcastSize (sizesAt x axis) < 2 ^ 31 := by
  rcases broadcastSize_mem (sizesAt x axis) with hone | ⟨k, hsize⟩
  · omega
  · rw [hsize]
    exact hnarrow axis k

theorem Narrow.axisAt_snd (hnarrow : Narrow x) (i : Fin (n + 1)) (axis : ℕ) :
    ((axisAt x i axis).2 : ℤ) = broadcastSize (sizesAt x axis) :=
  Int.toNat_of_nonneg (hnarrow.broadcastSize_bounds axis).1

/-- The axes along which the gradient is summed are those of size one. -/
theorem reduceIdx_eq (hagrees : Agrees (sizesAt x axis) agreed) (i : Fin (n + 1))
    (hs : s.gradReduceIdx i = (onesOf x i axes).reverse) :
    s.reduceIdx axis (sizesAt x axis) agreed i = (onesOf x i (axis :: axes)).reverse := by
  rw [Loop.reduceIdx, hs]
  by_cases hone : sizesAt x axis i = 1
  · have hnone : agreed.noneIsOne = false := by
      rw [← Bool.not_eq_true, hagrees.noneIsOne]
      exact fun h => h i hone
    simp [onesOf, hone, hnone]
  · simp [onesOf, hone]

/-- The inputs agree on the axis: each keeps its size or has size one. -/
theorem followsPattern_singleton (hnarrow : Narrow x) (hagrees : Agrees (sizesAt x axis) agreed) :
    FollowsPattern x (fun i => decide (sizesAt x axis i = 1)) [axis] := by
  intro i a ha
  obtain rfl := List.mem_singleton.mp ha
  have hsize := size_of_agrees hagrees (hnarrow.int32_eq a)
  by_cases hone : sizesAt x a i = 1
  · simp [axisAt, hone]
  · have : sizesAt x a i = broadcastSize (sizesAt x a) := by
      rw [← hsize.1, (hsize.2 i).resolve_left hone]
    simp [axisAt, hone, ← this]

/-- What is appended to the vectors, or multiplied to their last entries. -/
theorem values_of_agrees (hnarrow : Narrow x) (hagrees : Agrees (sizesAt x axis) agreed)
    (hset : agreed.outputDimSet = true) (i : Fin (n + 1)) :
    sizesAt x axis i = (axisAt x i axis).1 ∧
      (if sizesAt x axis i = 1 then agreed.outputDim else 1) = repeats (axisAt x i axis) ∧
      agreed.outputDim = (axisAt x i axis).2 := by
  have hdim : agreed.outputDim = (axisAt x i axis).2 := by
    rw [hnarrow.axisAt_snd, ← (size_of_agrees hagrees (hnarrow.int32_eq axis)).1, Agreement.size,
      if_pos hset]
  have hsize := hnarrow.axisAt_fst i axis
  refine ⟨hsize.symm, ?_, hdim⟩
  rw [repeats, hdim, ← hsize]
  split_ifs <;> first | rfl | omega

/-- An axis of size one throughout is dropped or makes a group of its own. -/
theorem skipDim_collapse (hs : CollapseLoop x fewerDims axes groups s)
    (hones : ∀ i, sizesAt x axis i = 1) :
    ∃ groups', CollapseLoop x fewerDims (axis :: axes) groups' (s.skipDim fewerDims axis) := by
  have haxis : ∀ i, axisAt x i axis = (1, 1) := by
    intro i
    simp [axisAt, hones, broadcastSize_of_ones hones]
  have hgrad : ∀ i, s.gradReduceIdx i ++ [(axis : ℤ)] = (onesOf x i (axis :: axes)).reverse := by
    intro i
    rw [hs.gradReduceIdx]
    simp [onesOf, hones i]
  cases hfewer : fewerDims with
  | true =>
      refine ⟨groups, ?_, hs.alike, hs.reshape, hs.bcast, hs.result, hgrad,
        fun _ => hs.pattern hfewer⟩
      rw [hs.kept, hfewer, List.filter_cons_of_neg (by simp [keeps, hones])]
  | false =>
      have hpush : ∀ (f : ℕ × ℕ → ℕ) (i : Fin (n + 1)), f (1, 1) = 1 →
          (joined x f i groups).reverse ++ [1] = (joined x f i ([axis] :: groups)).reverse :=
        fun f i hf => joined_push (by rw [haxis, hf]; rfl) (by decide)
      refine ⟨[axis] :: groups, ?_, ?_, fun i => ?_, fun i => ?_, fun i => ?_, hgrad, by simp⟩
      · rw [List.flatten_cons, hs.kept, hfewer, List.filter_cons_of_pos (by simp [keeps])]
        rfl
      · refine List.forall_mem_cons.mpr ⟨fun i => .inl ?_, hs.alike⟩
        simp [haxis]
      · rw [← hpush Prod.fst i rfl, ← hs.reshape]
        rfl
      · rw [← hpush repeats i rfl, ← hs.bcast]
        rfl
      · rw [← hpush Prod.snd i rfl, ← hs.result]
        rfl

/-- Any other axis joins the last group, if this is stretched alike, or makes a new one. -/
theorem joinDim_collapse (hnarrow : Narrow x) (hs : CollapseLoop x fewerDims axes groups s)
    (hagrees : Agrees (sizesAt x axis) agreed) (hset : agreed.outputDimSet = true) :
    ∃ groups', CollapseLoop x fewerDims (axis :: axes) groups'
      (s.acceptDim fewerDims axis (sizesAt x axis) agreed) := by
  have hpattern := followsPattern_singleton hnarrow hagrees
  have hgrad := fun i => reduceIdx_eq hagrees i (hs.gradReduceIdx i)
  have hvalues := values_of_agrees hnarrow hagrees hset
  obtain ⟨k, hk, -⟩ := hagrees.first hset
  have hkeeps : keeps x fewerDims axis = true := by
    simp only [keeps, Bool.or_eq_true, decide_eq_true_eq]
    exact .inr ⟨k, hk.2⟩
  have hunset : ¬ agreed.outputDimSet = false := by simp [hset]
  by_cases hmerge : fewerDims = true ∧
      (∀ i, decide (sizesAt x axis i = 1) = s.prevIsOne i) ∧ s.setOne = true
  · have haccept : s.acceptDim fewerDims axis (sizesAt x axis) agreed =
        { (s.pushOutput agreed).mergeDim axis (sizesAt x axis) agreed with
          setOne := true, prevIsOne := fun i => sizesAt x axis i = 1 } := by
      rw [Loop.acceptDim, if_neg hunset]
      exact congrArg (fun loop : Loop (n + 1) => { loop with
        setOne := true, prevIsOne := fun i => sizesAt x axis i = 1 }) (if_pos hmerge)
    obtain ⟨last, rest, rfl, hlast⟩ := hs.pattern hmerge.1 hmerge.2.2
    have hfollows : FollowsPattern x (fun i => decide (sizesAt x axis i = 1)) (axis :: last) := by
      refine fun i => List.forall_mem_cons.mpr ⟨hpattern i axis (by simp), fun a ha => ?_⟩
      rw [hlast i a ha, ← hmerge.2.1 i]
    rw [haccept]
    refine ⟨(axis :: last) :: rest, ?_, ?_, fun i => ?_, fun i => ?_, fun i => ?_, hgrad,
      fun _ _ => ⟨_, _, rfl, hfollows⟩⟩
    · rw [List.filter_cons_of_pos hkeeps, ← hs.kept]
      rfl
    · exact List.forall_mem_cons.mpr
        ⟨fun i => hfollows.alike, (List.forall_mem_cons.mp hs.alike).2⟩
    · rw [← joined_merge (hvalues i).1, ← hs.reshape]
      rfl
    · rw [← joined_merge (hvalues i).2.1, ← hs.bcast]
      rfl
    · rw [← joined_merge (hvalues i).2.2, ← hs.result]
      rfl
  · have haccept : s.acceptDim fewerDims axis (sizesAt x axis) agreed =
        { (s.pushOutput agreed).addDim axis (sizesAt x axis) agreed with
          setOne := true, prevIsOne := fun i => sizesAt x axis i = 1 } := by
      rw [Loop.acceptDim, if_neg hunset]
      exact congrArg (fun loop : Loop (n + 1) => { loop with
        setOne := true, prevIsOne := fun i => sizesAt x axis i = 1 }) (if_neg hmerge)
    have hsnd := hnarrow.broadcastSize_bounds axis
    have hlt : ∀ i, sizesAt x axis i < 2 ^ 63 ∧ agreed.outputDim < 2 ^ 63 := by
      intro i
      have := (hnarrow axis i).2
      have := (hvalues i).2.2.trans (hnarrow.axisAt_snd i axis)
      omega
    rw [haccept]
    refine ⟨[axis] :: groups, ?_, ?_, fun i => ?_, fun i => ?_, fun i => ?_, hgrad,
      fun _ _ => ⟨_, _, rfl, hpattern⟩⟩
    · rw [List.filter_cons_of_pos hkeeps, ← hs.kept]
      rfl
    · exact List.forall_mem_cons.mpr ⟨fun i => hpattern.alike, hs.alike⟩
    · rw [← joined_push (hvalues i).1 (hlt i).1, ← hs.reshape]
      rfl
    · have hrepeats : (if sizesAt x axis i = 1 then agreed.outputDim else 1) < 2 ^ 63 := by
        have := (hlt i).2
        split_ifs <;> omega
      rw [← joined_push (hvalues i).2.1 hrepeats, ← hs.bcast]
      rfl
    · rw [← joined_push (hvalues i).2.2 (hlt i).2, ← hs.result]
      rfl

theorem pushOutput_collapse (hs : CollapseLoop x fewerDims axes groups s) :
    CollapseLoop x fewerDims axes groups (s.pushOutput agreed) :=
  ⟨hs.kept, hs.alike, hs.reshape, hs.bcast, hs.result, hs.gradReduceIdx, hs.pattern⟩

/-- A round after which the vectors still describe groups of axes. -/
theorem acceptDim_collapse (hnarrow : Narrow x) (hs : CollapseLoop x fewerDims axes groups s)
    (hagrees : Agrees (sizesAt x axis) agreed) :
    ∃ groups', CollapseLoop x fewerDims (axis :: axes) groups'
      (s.acceptDim fewerDims axis (sizesAt x axis) agreed) := by
  cases hset : agreed.outputDimSet with
  | false =>
      rw [Loop.acceptDim, if_pos hset]
      exact skipDim_collapse (pushOutput_collapse hs) (hagrees.ones hset)
  | true => exact joinDim_collapse hnarrow hs hagrees hset

theorem visitAxes_collapse {start : Loop (n + 1)} (hnarrow : Narrow x)
    (hstart : CollapseLoop x fewerDims [] [] start) (axes : List ℕ) {s : Loop (n + 1)}
    (hrun : visitAxes x fewerDims start axes = .ok s) :
    ∃ groups, CollapseLoop x fewerDims axes groups s := by
  induction axes generalizing s with
  | nil =>
      obtain rfl := Except.ok.inj hrun
      exact ⟨[], hstart⟩
  | cons axis axes ih =>
      cases hrest : visitAxes x fewerDims start axes with
      | error object => simp [visitAxes, hrest, Except.bind] at hrun
      | ok s' =>
          obtain ⟨groups, hs'⟩ := ih hrest
          simp only [visitAxes, hrest, Except.bind, Loop.visitDim] at hrun
          rcases agreement_spec (sizesAt x axis) with ⟨-, hnone⟩ | ⟨agreed, hsome, hagrees⟩
          · simp [hnone] at hrun
          · simp only [hsome, Except.ok.injEq] at hrun
            subst hrun
            exact acceptDim_collapse hnarrow hs' hagrees

end Round

/-! ## The finished object -/

variable (x) in
/-- The vectors of the object describe these groups of axes; the other axes have size one. -/
structure Joins (groups : List (List ℕ)) (b : BCastList (n + 1)) : Prop where
  kept : ∃ keep : ℕ → Bool, groups.flatten = (List.range (broadcastRank x)).filter keep ∧
    ∀ axis, keep axis = false → ∀ i, sizesAt x axis i = 1
  alike : ∀ group ∈ groups, ∀ i, Alike (group.map (axisAt x i))
  reshape : ∀ i, b.reshape i = joined x Prod.fst i groups
  bcast : ∀ i, b.bcast i = joined x repeats i groups
  result : ∀ i, b.result = joined x Prod.snd i groups

theorem reversed_joins {fewerDims : Bool} {s : Loop (n + 1)}
    (hs : CollapseLoop x fewerDims (List.range (broadcastRank x)) groups s) :
    (∃ groups', Joins x groups' s.reversed) ∧
      ∀ i, s.reversed.gradReduceIdx i = onesOf x i (List.range (broadcastRank x)) := by
  have hkeep : ∀ axis, keeps x fewerDims axis = false → ∀ i, sizesAt x axis i = 1 := by
    intro axis hfalse
    simp only [keeps, Bool.or_eq_false_iff, decide_eq_false_iff_not, not_exists, not_not] at hfalse
    exact hfalse.2
  by_cases hempty : s.result = []
  · have hgroups : groups = [] := by
      have := hs.result 0
      rw [hempty, eq_comm, List.reverse_eq_nil_iff] at this
      exact List.map_eq_nil_iff.mp this
    subst hgroups
    have hint : int64 1 = 1 := by decide
    have hnil : ∀ (f : ℕ × ℕ → ℕ) (i : Fin (n + 1)), joined x f i [] = [] := fun f i => rfl
    have hone : ∀ (f : ℕ × ℕ → ℕ) (i : Fin (n + 1)), joined x f i [[]] = [1] := by
      intro f i
      simp [joined, hint]
    simp only [Loop.reversed, if_pos hempty]
    refine ⟨⟨[[]], ⟨keeps x fewerDims, hs.kept, hkeep⟩, by simp [Alike], ?_, ?_, ?_⟩, ?_⟩
    · intro i
      simp [hs.reshape, hone, hnil]
    · intro i
      simp [hs.bcast, hone, hnil]
    · intro i
      simp [hone]
    · intro i
      simp [hs.gradReduceIdx]
  · have hreverse : ∀ {vec vec' : Vec}, vec = vec'.reverse → vec.reverse = vec' := by
      rintro _ vec rfl
      exact List.reverse_reverse vec
    simp only [Loop.reversed, if_neg hempty]
    exact ⟨⟨groups, ⟨keeps x fewerDims, hs.kept, hkeep⟩, hs.alike,
      fun i => hreverse (hs.reshape i), fun i => hreverse (hs.bcast i),
      fun i => hreverse (hs.result i)⟩, fun i => hreverse (hs.gradReduceIdx i)⟩

/-! ## What the groups say -/

section Joins

variable {b : BCastList (n + 1)}

theorem prod_alignedShape (i : Fin (n + 1)) : (alignedShape x i).prod = (x i).prod := by
  simp [alignedShape]

variable (x) in
/-- All axes, for one input. -/
def axesOf (i : Fin (n + 1)) : List (ℕ × ℕ) := (List.range (broadcastRank x)).map (axisAt x i)

theorem prod_axesOf_fst (hnarrow : Narrow x) (i : Fin (n + 1)) :
    ((((axesOf x i).map Prod.fst).prod : ℕ) : ℤ) = (x i).prod := by
  rw [← prod_alignedShape, ← map_sizesAt, Nat.cast_list_prod, axesOf, List.map_map, List.map_map]
  exact congrArg List.prod (List.map_congr_left fun axis _ => hnarrow.axisAt_fst i axis)

theorem prod_axesOf_snd (hnarrow : Narrow x) (i : Fin (n + 1)) :
    ((((axesOf x i).map Prod.snd).prod : ℕ) : ℤ) = (numpyShape x).prod := by
  rw [numpyShape, Nat.cast_list_prod, axesOf, List.map_map, List.map_map]
  exact congrArg List.prod (List.map_congr_left fun axis _ => hnarrow.axisAt_snd i axis)

variable (x) in
/-- The product of some sizes over a group. -/
def groupProd (f : ℕ × ℕ → ℕ) (i : Fin (n + 1)) (group : List ℕ) : ℕ :=
  ((group.map (axisAt x i)).map f).prod

theorem axisAt_of_ones (hones : ∀ i, sizesAt x axis i = 1) (i : Fin (n + 1)) :
    axisAt x i axis = (1, 1) := by
  simp [axisAt, hones, broadcastSize_of_ones hones]

theorem Joins.prod_groups (hb : Joins x groups b) (hf : f (1, 1) = 1) (i : Fin (n + 1)) :
    (groups.map (groupProd x f i)).prod = ((axesOf x i).map f).prod := by
  obtain ⟨keep, hkept, hdropped⟩ := hb.kept
  have hflatten : (groups.map (groupProd x f i)).prod =
      (groups.flatten.map (f ∘ axisAt x i)).prod := by
    have hgroup : groupProd x f i = fun group => (group.map (f ∘ axisAt x i)).prod :=
      funext fun group => by rw [groupProd, List.map_map]
    rw [hgroup, List.map_flatten, List.prod_flatten, List.map_map]
    rfl
  rw [hflatten, hkept, prod_map_filter, axesOf, List.map_map]
  intro axis _ hfalse
  rw [Function.comp_apply, axisAt_of_ones (hdropped axis hfalse), hf]

/-- The products over the groups fit into 64 bits when that over all axes does. -/
theorem groupProd_lt {total : ℕ} (htotal : (groups.map (groupProd x f i)).prod = total)
    (hpos : 0 < total) (hbound : total < 2 ^ 63) (hgroup : group ∈ groups) :
    0 < groupProd x f i group ∧ groupProd x f i group < 2 ^ 63 := by
  have hdvd : groupProd x f i group ∣ total :=
    htotal ▸ List.dvd_prod (List.mem_map_of_mem hgroup)
  exact ⟨Nat.pos_of_dvd_of_pos hdvd hpos, (Nat.le_of_dvd hpos hdvd).trans_lt hbound⟩

theorem joined_eq {total : ℕ} (htotal : (groups.map (groupProd x f i)).prod = total)
    (hpos : 0 < total) (hbound : total < 2 ^ 63) :
    joined x f i groups = groups.map fun group => (groupProd x f i group : ℤ) :=
  List.map_congr_left fun _ hgroup =>
    int64_natCast (groupProd_lt htotal hpos hbound hgroup).2

/-- The product of a vector is that over all axes. -/
theorem joined_prod {total : ℕ} (htotal : (groups.map (groupProd x f i)).prod = total)
    (hbound : total < 2 ^ 63) : (joined x f i groups).prod = total := by
  rcases Nat.eq_zero_or_pos total with rfl | hpos
  · obtain ⟨group, hgroup, hzero⟩ := List.mem_map.mp (List.prod_eq_zero_iff.mp htotal)
    refine List.prod_eq_zero (List.mem_map.mpr ⟨group, hgroup, ?_⟩)
    change int64 (groupProd x f i group : ℤ) = 0
    rw [hzero]
    rfl
  · rw [joined_eq htotal hpos hbound, ← htotal, Nat.cast_list_prod, List.map_map]
    rfl

theorem Joins.tiles (hb : Joins x groups b) (i : Fin (n + 1)) :
    List.zipWith (· * ·) (b.reshape i) (b.bcast i) = b.result := by
  rw [hb.reshape, hb.bcast, hb.result i]
  simp only [joined, List.zipWith_map_left, List.zipWith_map_right, List.zipWith_self]
  refine List.map_congr_left fun group hgroup => ?_
  have hone : int64 ((1 : ℕ) : ℤ) = 1 := by decide
  rcases hb.alike group hgroup i with hkept | hones
  · rw [(prod_of_kept hkept).1, (prod_of_kept hkept).2, hone, mul_one]
  · rw [(prod_of_ones hones).1, (prod_of_ones hones).2, hone, one_mul]

theorem Joins.lengths (hb : Joins x groups b) (i : Fin (n + 1)) :
    (b.reshape i).length = b.result.length ∧ (b.bcast i).length = b.result.length := by
  rw [hb.reshape, hb.bcast, hb.result i]
  simp [joined]

variable (x) in
/-- The size of each group for an input, and how often the input is repeated along it. -/
def groupDims (i : Fin (n + 1)) (groups : List (List ℕ)) : List (ℕ × ℕ) :=
  groups.map fun group => (groupProd x Prod.fst i group, groupProd x repeats i group)

/-- When the result has elements, the sizes of the groups and their repetitions are exact. -/
theorem Joins.exact {total : ℕ} (hb : Joins x groups b) (i : Fin (n + 1))
    (htotal : ((axesOf x i).map Prod.snd).prod = total) (hpos : 0 < total)
    (hbound : total < 2 ^ 63) :
    b.reshape i = (groupDims x i groups).map (fun dim => (dim.1 : ℤ)) ∧
      b.bcast i = (groupDims x i groups).map (fun dim => (dim.2 : ℤ)) ∧
      (tiledSizes (groupDims x i groups)).prod = total ∧
      (∀ dim ∈ groupDims x i groups, 0 < dim.1 ∧ 0 < dim.2) ∧
      ∀ dim ∈ groupDims x i groups, dim.1 = 1 ∨ dim.2 = 1 := by
  have hsnd := (hb.prod_groups (f := Prod.snd) rfl i).trans htotal
  have hmul : ∀ group ∈ groups, groupProd x Prod.fst i group * groupProd x repeats i group =
      groupProd x Prod.snd i group :=
    fun group hgroup => prod_mul_repeats (hb.alike group hgroup i)
  have hfactors : ∀ group ∈ groups,
      (0 < groupProd x Prod.fst i group ∧ groupProd x Prod.fst i group < 2 ^ 63) ∧
      0 < groupProd x repeats i group ∧ groupProd x repeats i group < 2 ^ 63 := by
    intro group hgroup
    obtain ⟨hgpos, hglt⟩ := groupProd_lt hsnd hpos hbound hgroup
    rw [← hmul group hgroup] at hgpos hglt
    have hfst := Nat.pos_of_mul_pos_right hgpos
    have hrep := Nat.pos_of_mul_pos_left hgpos
    exact ⟨⟨hfst, (Nat.le_mul_of_pos_right _ hrep).trans_lt hglt⟩,
      hrep, (Nat.le_mul_of_pos_left _ hfst).trans_lt hglt⟩
  refine ⟨?_, ?_, ?_, ?_, ?_⟩
  · rw [hb.reshape, groupDims, List.map_map]
    exact List.map_congr_left fun group hgroup => int64_natCast (hfactors group hgroup).1.2
  · rw [hb.bcast, groupDims, List.map_map]
    exact List.map_congr_left fun group hgroup => int64_natCast (hfactors group hgroup).2.2
  · rw [← hsnd, tiledSizes, groupDims, List.map_map]
    exact congrArg List.prod (List.map_congr_left hmul)
  · exact List.forall_mem_map.mpr fun group hgroup =>
      ⟨(hfactors group hgroup).1.1, (hfactors group hgroup).2.1⟩
  · refine List.forall_mem_map.mpr fun group hgroup => ?_
    rcases hb.alike group hgroup i with hkept | hones
    · exact .inr (prod_of_kept hkept).2
    · exact .inl (prod_of_ones hones).1

/-- Tiling the groups shows the element that stretching all axes shows. -/
theorem Joins.tileIndex_eq (hb : Joins x groups b) (i : Fin (n + 1)) (flat : ℕ) :
    tileIndex ((groupDims x i groups).map Prod.fst) ((groupDims x i groups).map Prod.snd) flat =
      axesIndex (axesOf x i) flat := by
  obtain ⟨keep, hkept, hdropped⟩ := hb.kept
  have hgroups := @tileIndex_groups flat (groups.map fun group => group.map (axisAt x i))
    (List.forall_mem_map.mpr fun group hgroup => hb.alike group hgroup i)
  rw [List.map_map, List.map_map, ← List.map_flatten, hkept, axesIndex_map_filter
    fun axis _ hfalse => axisAt_of_ones (hdropped axis hfalse) i] at hgroups
  rw [groupDims, List.map_map, List.map_map]
  exact hgroups

/-- On the fast path all axes make one group. -/
theorem identicalShapes_joins (hequal : ∀ i, x i = x 0) (hnarrow : Narrow x) :
    Joins x [List.range (broadcastRank x)] (identicalShapes (x 0)) := by
  have hkept : ∀ i, ∀ axis ∈ axesOf x i, axis.1 = axis.2 := by
    intro i
    refine List.forall_mem_map.mpr fun axis _ => ?_
    rw [axisAt, broadcastSize_of_equal hequal axis i]
  have helements : (x 0).foldl (fun elements dim => int64 (elements * dim)) 1 =
      int64 (x 0).prod := by
    have hfold := foldl_int64_mul (x 0) 1
    rw [one_mul] at hfold
    exact hfold
  have hfst : ∀ i, ((((axesOf x i).map Prod.fst).prod : ℕ) : ℤ) = (x 0).prod := by
    intro i
    rw [prod_axesOf_fst hnarrow, hequal i]
  have hjoined : ∀ (f : ℕ × ℕ → ℕ) (i : Fin (n + 1)),
      joined x f i [List.range (broadcastRank x)] =
        [int64 (((axesOf x i).map f).prod : ℕ)] := fun f i => rfl
  refine ⟨⟨fun _ => true, by simp, by simp⟩, ?_, fun i => ?_, fun i => ?_, fun i => ?_⟩
  · intro group hgroup i
    obtain rfl := List.mem_singleton.mp hgroup
    exact .inl (hkept i)
  · rw [hjoined, hfst, ← helements]
    rfl
  · rw [hjoined, (prod_of_kept (hkept i)).2]
    exact congrArg (fun entry => [entry]) (show (1 : ℤ) = int64 ((1 : ℕ) : ℤ) by decide)
  · rw [hjoined, ← (prod_of_kept (hkept i)).1, hfst, ← helements]
    rfl

end Joins

end Groups

/-! ## Collapsed broadcasting -/

/-- The position in an input that is broadcast to a position of the result. -/
def numpyIndex {n : ℕ} (x : Fin (n + 1) → Vec) (i : Fin (n + 1)) (flat : ℕ) : ℕ :=
  stretchIndex ((alignedShape x i).map Int.toNat) ((numpyShape x).map Int.toNat) flat

/-- Reshaping and tiling the inputs as the object says is broadcasting them. -/
structure TilesAsNumpy {n : ℕ} (x : Fin (n + 1) → Vec) (returnFlattened : Bool)
    (b : BCastList (n + 1)) : Prop where
  elements : ∀ i, (b.reshape i).prod = (x i).prod
  lengths : ∀ i, (b.reshape i).length = b.result.length ∧ (b.bcast i).length = b.result.length
  tiles : ∀ i, List.zipWith (· * ·) (b.reshape i) (b.bcast i) = b.result
  selects : ∀ i (flat : ℕ), flat < (numpyShape x).prod →
    tileIndex ((b.reshape i).map Int.toNat) ((b.bcast i).map Int.toNat) flat = numpyIndex x i flat
  /-- The positions are computed on demand, when the shapes are not all equal. -/
  batchIndices : ∀ i, returnFlattened = true → (∃ k, x k ≠ x 0) →
    b.batchIndices i =
      (List.range (numpyShape x).prod.toNat).map fun flat => (numpyIndex x i flat : ℤ)
  reduces : ∀ i, ∀ axis < broadcastRank x, sizesAt x axis i = 1 →
    broadcastSize (sizesAt x axis) ≠ 1 → (axis : ℤ) ∈ b.gradReduceIdx i
  reduces_ones : ∀ i, ∀ entry ∈ b.gradReduceIdx i,
    ∃ axis < broadcastRank x, entry = axis ∧ sizesAt x axis i = 1

section Claim

variable {n : ℕ} {x : Fin (n + 1) → Vec} {groups : List (List ℕ)} {b : BCastList (n + 1)}

theorem numpyIndex_eq (i : Fin (n + 1)) (flat : ℕ) :
    numpyIndex x i flat = axesIndex (axesOf x i) flat := by
  rw [numpyIndex, ← map_sizesAt, numpyShape, axesIndex, axesOf, List.map_map, List.map_map,
    List.map_map, List.map_map]
  rfl

theorem mem_onesOf {i : Fin (n + 1)} {axes : List ℕ} {entry : ℤ} :
    entry ∈ onesOf x i axes ↔ ∃ axis ∈ axes, sizesAt x axis i = 1 ∧ (axis : ℤ) = entry := by
  simp [onesOf, and_assoc]

theorem Joins.tilesAsNumpy {returnFlattened : Bool} (hb : Joins x groups b) (hnarrow : Narrow x)
    (helements : ∀ i, (x i).prod < 2 ^ 63) (hlt : (numpyShape x).prod < 2 ^ 63)
    (hbatch : returnFlattened = true → (∃ k, x k ≠ x 0) → ∀ i, b.batchIndices i =
      if (numpyShape x).prod > 0 then
        computeBatchIndices (numpyShape x).prod (b.reshape i) (b.bcast i) else [])
    (hgrad : ∀ i, b.gradReduceIdx i = onesOf x i (List.range (broadcastRank x)) ∨
      (∀ k, x k = x 0) ∧ b.gradReduceIdx i = []) :
    TilesAsNumpy x returnFlattened b := by
  have hcast : ∀ i, ((((axesOf x i).map Prod.snd).prod : ℕ) : ℤ) = (numpyShape x).prod :=
    prod_axesOf_snd hnarrow
  constructor
  · intro i
    have hprod := prod_axesOf_fst hnarrow i
    have hfst := helements i
    rw [hb.reshape, joined_prod (hb.prod_groups rfl i) (by omega), hprod]
  · exact hb.lengths
  · exact hb.tiles
  · intro i flat hflat
    have hsnd := hcast i
    obtain ⟨hreshape, hrepeats, -⟩ := hb.exact i rfl (by omega) (by omega)
    rw [hreshape, hrepeats, List.map_map, List.map_map, numpyIndex_eq, ← hb.tileIndex_eq i flat]
    rfl
  · intro i hreturn hne
    have hsnd := hcast i
    rw [hbatch hreturn hne i, ← hsnd, Int.toNat_natCast]
    split_ifs with hpos
    · obtain ⟨hreshape, hrepeats, htotal, hdims, hone⟩ := hb.exact i rfl (by omega) (by omega)
      rw [hreshape, hrepeats, computeBatchIndices_eq hdims hone htotal (by omega)]
      refine List.map_congr_left fun flat _ => ?_
      rw [hb.tileIndex_eq, numpyIndex_eq]
    · have hzero : ((axesOf x i).map Prod.snd).prod = 0 := by omega
      rw [hzero]
      rfl
  · intro i axis haxis hone hstretched
    rcases hgrad i with hones | ⟨hequal, -⟩
    · rw [hones]
      exact mem_onesOf.mpr ⟨axis, List.mem_range.mpr haxis, hone, rfl⟩
    · exact absurd ((broadcastSize_of_equal hequal axis i).trans hone) hstretched
  · intro i entry hentry
    rcases hgrad i with hones | ⟨-, hnil⟩
    · rw [hones] at hentry
      obtain ⟨axis, haxis, hone, rfl⟩ := mem_onesOf.mp hentry
      exact ⟨axis, List.mem_range.mp haxis, rfl, hone⟩
    · simp [hnil] at hentry

theorem addBatchIndices_joins (hb : Joins x groups b) (returnFlattened : Bool) :
    Joins x groups (b.addBatchIndices returnFlattened) ∧
      (b.addBatchIndices returnFlattened).gradReduceIdx = b.gradReduceIdx := by
  rw [BCastList.addBatchIndices]
  split_ifs
  · exact ⟨⟨hb.kept, hb.alike, hb.reshape, hb.bcast, hb.result⟩, rfl⟩
  · exact ⟨hb, rfl⟩

/-- For all compatible shapes with sizes below `2 ^ 31` whose elements can be counted in 64 bits,
collapsed broadcasting is broadcasting. -/
theorem collapsed_broadcast {n : ℕ} (x : Fin (n + 1) → Vec) (fewerDims returnFlattened : Bool)
    (hdims : ∀ i, ∀ dim ∈ x i, 0 ≤ dim ∧ dim < 2 ^ 31) (hcompatible : Compatible x)
    (helements : ∀ i, (x i).prod < 2 ^ 63) (houtput : (numpyShape x).prod < 2 ^ 63) :
    TilesAsNumpy x returnFlattened (bcastList x fewerDims returnFlattened) := by
  have hnarrow : Narrow x := by
    intro axis i
    rcases sizesAt_mem x axis i with hone | hmem
    · omega
    · exact hdims i _ hmem
  have hnonneg : 0 ≤ (numpyShape x).prod :=
    List.prod_nonneg (numpyShape_nonneg fun i dim hdim => (hdims i dim hdim).1)
  by_cases hfast : (∀ i, x i = x 0) ∧ fewerDims = true
  · obtain ⟨hequal, rfl⟩ := hfast
    rw [bcastList_of_equal hequal]
    exact (identicalShapes_joins hequal hnarrow).tilesAsNumpy hnarrow helements houtput
      (fun _ ⟨k, hk⟩ => absurd (hequal k) hk) fun _ => .inr ⟨hequal, rfl⟩
  · have haccepts : ∀ axis < broadcastRank x, ¬ Rejects (sizesAt x axis) := fun axis haxis =>
      (rejects_iff_of_narrow (hnarrow.int32_eq axis)).mpr (hcompatible axis haxis)
    rw [bcastList_eq hfast]
    have hshape : ShapeLoop x [] { broadcastingRequired := !allEqual x } :=
      ⟨rfl, rfl, rfl, rfl, rfl⟩
    rcases visitAxes_shape fewerDims hshape (List.range (broadcastRank x)) with
      ⟨-, s, hrun, hs⟩ | ⟨⟨axis, haxis, hrejects⟩, -⟩
    · have hstart : CollapseLoop x fewerDims [] [] { broadcastingRequired := !allEqual x } :=
        ⟨rfl, by simp, fun _ => rfl, fun _ => rfl, fun _ => rfl, fun _ => rfl, by simp⟩
      obtain ⟨groups, hcollapse⟩ := visitAxes_collapse hnarrow hstart _ hrun
      obtain ⟨⟨groups', hjoins⟩, hgrad⟩ := reversed_joins hcollapse
      obtain ⟨hjoins', hgrad'⟩ := addBatchIndices_joins hjoins returnFlattened
      rw [hrun]
      refine hjoins'.tilesAsNumpy hnarrow helements houtput ?_ fun i => .inl ?_
      · intro hreturn hne i
        have hequal : allEqual x = false := by
          rw [← Bool.not_eq_true, allEqual_iff, not_forall]
          exact hne
        have hbatch : s.reversed.outputBatchSize = (numpyShape x).prod := by
          rw [Loop.reversed_outputBatchSize, hs.outputBatchSize,
            map_agreedSize hnarrow.int32_eq haccepts, int64_of_lt hnonneg houtput]
        have hrequired : s.reversed.broadcastingRequired = true := by
          rw [Loop.reversed_broadcastingRequired, hs.broadcastingRequired, hequal]
          rfl
        simp only [BCastList.addBatchIndices, hreturn, hrequired, hbatch, true_and]
        split_ifs
        · rfl
        · rw [Loop.reversed_batchIndices, hs.batchIndices]
      · rw [hgrad', hgrad]
    · exact absurd hrejects (haccepts axis (List.mem_range.mp haxis))

theorem collapsed_broadcast_two :
    TilesAsNumpy ![[2, 3, 1, 4], [3, 1, 1]] true
      (bcastList ![[2, 3, 1, 4], [3, 1, 1]] true true) :=
  collapsed_broadcast ![[2, 3, 1, 4], [3, 1, 1]] true true (by decide)
    (by unfold Compatible; decide) (by decide) (by decide)

/-- The joined axes of a shape with `2 ^ 90` elements have a product that is no longer exact. -/
theorem joined_product_wraps :
    ¬ ∀ (n : ℕ) (x : Fin (n + 1) → Vec) (fewerDims returnFlattened : Bool),
      (∀ i, ∀ dim ∈ x i, 0 ≤ dim ∧ dim < 2 ^ 31) → Compatible x →
      TilesAsNumpy x returnFlattened (bcastList x fewerDims returnFlattened) := by
  intro h
  have hcompatible : Compatible ![[2 ^ 30, 2 ^ 30, 2 ^ 30], [1]] := by
    unfold Compatible
    decide
  have htiles := h 1 ![[2 ^ 30, 2 ^ 30, 2 ^ 30], [1]] true false (by decide) hcompatible
  exact absurd (htiles.elements 0) (by decide)

end Claim

end ContainerScheduler.Analysis
