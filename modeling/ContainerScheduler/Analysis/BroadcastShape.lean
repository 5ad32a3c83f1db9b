/-
# Which shapes broadcast, and to what

The rule that `BCastList` follows is that of numpy: after the shapes are left-padded with ones, the
sizes other than one along an axis are equal, and the result has this size there. The code keeps the
common size in an `int`, so a size from `2 ^ 31` on is compared and returned by its low 32 bits.
-/

import ContainerScheduler.Broadcast.BCastList
import Mathlib.Algebra.Order.BigOperators.GroupWithZero.List
import Mathlib.Data.Fin.VecNotation
import Mathlib.Data.List.GetD
import Mathlib.Order.Lattice.Nat

namespace ContainerScheduler.Analysis

open Broadcast

/-! ## Broadcasting after numpy -/

section

variable {n : ℕ} (x : Fin (n + 1) → Vec)

/-- The largest number of axes. -/
def broadcastRank : ℕ := Finset.univ.sup fun i => (x i).length

/-- The shape of an input, left-padded with ones. -/
def alignedShape (i : Fin (n + 1)) : Vec :=
  List.replicate (broadcastRank x - (x i).length) 1 ++ x i

/-- The sizes of the inputs along an axis. -/
def sizesAt (axis : ℕ) (i : Fin (n + 1)) : ℤ := (alignedShape x i).getD axis 1

/-- Along each axis, all sizes other than one are equal. -/
def Compatible : Prop :=
  ∀ axis < broadcastRank x, ∀ i k,
    sizesAt x axis i ≠ 1 → sizesAt x axis k ≠ 1 → sizesAt x axis i = sizesAt x axis k

/-- The first size other than one, or one. -/
def broadcastSize {N : ℕ} (sizes : Fin N → ℤ) : ℤ :=
  ((List.ofFn sizes).find? (· ≠ 1)).getD 1

def numpyShape : Vec :=
  (List.range (broadcastRank x)).map fun axis => broadcastSize (sizesAt x axis)

end

/-- The object says of these shapes what numpy does. -/
structure BroadcastsAsNumpy {n : ℕ} (x : Fin (n + 1) → Vec) (b : BCastList (n + 1)) : Prop where
  valid_iff : b.valid = true ↔ Compatible x
  output : b.valid = true → b.output = numpyShape x
  outputBatchSize : b.valid = true → b.outputBatchSize = (numpyShape x).prod

section Sizes

variable {N : ℕ} {sizes : Fin N → ℤ} {agreed : Agreement}

theorem broadcastSize_mem (sizes : Fin N → ℤ) :
    broadcastSize sizes = 1 ∨ ∃ k, broadcastSize sizes = sizes k := by
  rw [broadcastSize]
  cases hfind : (List.ofFn sizes).find? (· ≠ 1) with
  | none => exact .inl rfl
  | some size =>
      obtain ⟨k, rfl⟩ := (List.mem_ofFn' _ _).mp (List.mem_of_find?_eq_some hfind)
      exact .inr ⟨k, rfl⟩

theorem broadcastSize_of_ones (hones : ∀ i, sizes i = 1) : broadcastSize sizes = 1 := by
  have hnone : (List.ofFn sizes).find? (· ≠ 1) = none := by
    rw [List.find?_eq_none, List.forall_mem_ofFn_iff]
    simp [hones]
  rw [broadcastSize, hnone]
  rfl

theorem broadcastSize_of_ne {i : Fin N} (hi : sizes i ≠ 1)
    (hagree : ∀ k, sizes k ≠ 1 → sizes k = sizes i) : broadcastSize sizes = sizes i := by
  cases hfind : (List.ofFn sizes).find? (· ≠ 1) with
  | none =>
      rw [List.find?_eq_none, List.forall_mem_ofFn_iff] at hfind
      exact absurd (by simpa using hfind i) hi
  | some size =>
      obtain ⟨k, rfl⟩ := (List.mem_ofFn' _ _).mp (List.mem_of_find?_eq_some hfind)
      rw [broadcastSize, hfind, Option.getD_some]
      exact hagree k (by simpa using List.find?_some hfind)

/-- The size the loop finds is that of numpy, if the first size other than one fits into 32 bits. -/
theorem size_of_agrees (hagrees : Agrees sizes agreed)
    (hnarrow : ∀ i, int32 (sizes i) = sizes i) :
    agreed.size = broadcastSize sizes ∧ ∀ i, sizes i = 1 ∨ sizes i = agreed.size := by
  cases hset : agreed.outputDimSet with
  | false =>
      have hsize : agreed.size = 1 := by simp [Agreement.size, hset]
      have hones := hagrees.ones hset
      exact ⟨by rw [hsize, broadcastSize_of_ones hones], fun i => .inl (hones i)⟩
  | true =>
      obtain ⟨i, hi, hdim, hrest⟩ := hagrees.first hset
      have hsize : agreed.size = sizes i := by simp [Agreement.size, hset, hdim, hnarrow]
      have hagree : ∀ k, sizes k ≠ 1 → sizes k = sizes i := by
        intro k hk
        rcases lt_trichotomy k i with hlt | rfl | hgt
        · exact absurd (hi.1 k hlt) hk
        · rfl
        · rw [hrest k hgt hk, hnarrow]
      refine ⟨by rw [hsize, broadcastSize_of_ne hi.2 hagree], fun k => ?_⟩
      by_cases hk : sizes k = 1
      · exact .inl hk
      · exact .inr (by rw [hsize, hagree k hk])

theorem size_ne_of_wide (hagrees : Agrees sizes agreed) {i : Fin N}
    (hcompatible : ∀ i k, sizes i ≠ 1 → sizes k ≠ 1 → sizes i = sizes k)
    (hone : sizes i ≠ 1) (hwide : int32 (sizes i) ≠ sizes i) :
    agreed.size ≠ broadcastSize sizes := by
  rw [broadcastSize_of_ne hone fun k hk => hcompatible k i hk hone]
  cases hset : agreed.outputDimSet with
  | false => exact absurd (hagrees.ones hset i) hone
  | true =>
      obtain ⟨k, hk, hdim, -⟩ := hagrees.first hset
      rw [Agreement.size, if_pos hset, hdim, hcompatible k i hk.2 hone]
      exact hwide

end Sizes

/-! ## The loop over the axes -/

section Run

variable {n : ℕ} {x : Fin (n + 1) → Vec} {fewerDims : Bool} {rank : ℕ}

variable (x) in
theorem length_le_broadcastRank (i : Fin (n + 1)) : (x i).length ≤ broadcastRank x :=
  Finset.le_sup (f := fun i => (x i).length) (Finset.mem_univ i)

variable (x) in
theorem length_alignedShape (i : Fin (n + 1)) : (alignedShape x i).length = broadcastRank x := by
  have := length_le_broadcastRank x i
  simp [alignedShape]
  omega

theorem largestRank_eq : largestRank x = broadcastRank x := by
  have hfold : ∀ (inputs : List (Fin (n + 1))) (start bound : ℕ),
      inputs.foldl (fun largest i =>
        if (x i).length > largest then (x i).length else largest) start ≤ bound ↔
        start ≤ bound ∧ ∀ i ∈ inputs, (x i).length ≤ bound := by
    intro inputs
    induction inputs with
    | nil => simp
    | cons i inputs ih =>
        intro start bound
        rw [List.foldl_cons, ih, List.forall_mem_cons]
        split_ifs with hgt <;> constructor <;> rintro ⟨h, hrest⟩
        · exact ⟨by omega, h, hrest⟩
        · exact ⟨hrest.1, hrest.2⟩
        · exact ⟨h, by omega, hrest⟩
        · exact ⟨h, hrest.2⟩
  refine eq_of_forall_ge_iff fun bound => ?_
  rw [largestRank, hfold, broadcastRank, Finset.sup_le_iff]
  simp

theorem allEqual_iff : allEqual x = true ↔ ∀ i, x i = x 0 := by
  have hfold : ∀ (inputs : List (Fin (n + 1))) (start : Bool),
      inputs.foldl (fun equal i => if x i ≠ x 0 then false else equal) start = true ↔
        start = true ∧ ∀ i ∈ inputs, x i = x 0 := by
    intro inputs
    induction inputs with
    | nil => simp
    | cons i inputs ih =>
        intro start
        rw [List.foldl_cons, ih, List.forall_mem_cons]
        split_ifs with hne
        · simp [hne]
        · simp [not_not.mp hne]
  rw [allEqual, hfold]
  simp

theorem alignedCopy_getD {j : ℕ} (i : Fin (n + 1)) (hj : j < broadcastRank x) :
    (alignedCopy (broadcastRank x) (x i)).getD j 1 = sizesAt x (broadcastRank x - 1 - j) i := by
  have hcopy : alignedCopy (broadcastRank x) (x i) = (alignedShape x i).reverse := by
    simp [alignedCopy, alignedShape]
  have hlength := length_alignedShape x i
  rw [hcopy, sizesAt, List.getD_eq_getElem _ _ (by simpa [hlength] using hj),
    List.getD_eq_getElem _ _ (by omega), List.getElem_reverse]
  simp only [hlength]

variable (x fewerDims) in
/-- The loop over these axes, the last of which comes first. -/
def visitAxes (start : Loop (n + 1)) : List ℕ → Except (BCastList (n + 1)) (Loop (n + 1))
  | [] => .ok start
  | axis :: axes => (visitAxes start axes).bind fun s => s.visitDim fewerDims axis (sizesAt x axis)

theorem foldlM_visitDim (start : Loop (n + 1)) {m : ℕ} (hm : m ≤ broadcastRank x) :
    (List.range m).foldlM
        (fun (s : Loop (n + 1)) j => s.visitDim fewerDims (broadcastRank x - 1 - j)
          fun i => (alignedCopy (broadcastRank x) (x i)).getD j 1) start =
      visitAxes x fewerDims start (List.range' (broadcastRank x - m) m) := by
  induction m with
  | zero => rfl
  | succ m ih =>
      have hrange : List.range' (broadcastRank x - (m + 1)) (m + 1) =
          (broadcastRank x - 1 - m) :: List.range' (broadcastRank x - m) m := by
        rw [List.range'_succ]
        congr 1
        · omega
        · congr 1
          omega
      have hsizes : (fun i => (alignedCopy (broadcastRank x) (x i)).getD m 1) =
          sizesAt x (broadcastRank x - 1 - m) :=
        funext fun i => alignedCopy_getD i (by omega)
      rw [List.range_succ, List.foldlM_append, ih (by omega), hrange, visitAxes, ← hsizes]
      exact congrArg (Except.bind _) (funext fun s => bind_pure _)

/-- Outside the fast path, the object is what the loop over all axes leaves. -/
theorem bcastList_eq {returnFlattened : Bool} (hslow : ¬((∀ i, x i = x 0) ∧ fewerDims = true)) :
    bcastList x fewerDims returnFlattened =
      match visitAxes x fewerDims { broadcastingRequired := !allEqual x }
          (List.range (broadcastRank x)) with
      | .error object => object
      | .ok s => s.reversed.addBatchIndices returnFlattened := by
  have hfold := @foldlM_visitDim n x fewerDims { broadcastingRequired := !allEqual x } _ le_rfl
  rw [Nat.sub_self, ← List.range_eq_range'] at hfold
  rw [bcastList, if_neg (by rwa [allEqual_iff]), ← hfold, largestRank_eq]
  all_goals rfl

/-- The size the loop over the inputs finds. -/
def agreedSize {N : ℕ} (sizes : Fin N → ℤ) : ℤ := ((agreement sizes).map Agreement.size).getD 1

variable (x) in
/-- What the loop has computed of the result after these axes. -/
structure ShapeLoop (axes : List ℕ) (s : Loop (n + 1)) : Prop where
  valid : s.valid = true
  broadcastingRequired : s.broadcastingRequired = !allEqual x
  batchIndices : s.batchIndices = fun _ => []
  output : s.output = (axes.map fun axis => agreedSize (sizesAt x axis)).reverse
  outputBatchSize :
    s.outputBatchSize = int64 (axes.map fun axis => agreedSize (sizesAt x axis)).prod

theorem int64_mul_int64 (a b : ℤ) : int64 (int64 a * b) = int64 (a * b) := Int.bmod_mul_bmod

variable (fewerDims) in
/-- The loop accepts an axis whose sizes are not rejected. -/
theorem visitDim_shape {axes : List ℕ} {axis : ℕ} {s : Loop (n + 1)} (hs : ShapeLoop x axes s)
    (haccepts : ¬ Rejects (sizesAt x axis)) :
    ∃ s', s.visitDim fewerDims axis (sizesAt x axis) = .ok s' ∧ ShapeLoop x (axis :: axes) s' := by
  obtain ⟨agreed, hagreed⟩ := Option.ne_none_iff_exists'.mp (mt agreement_eq_none.mp haccepts)
  have hsize : agreedSize (sizesAt x axis) = agreed.size := by simp [agreedSize, hagreed]
  refine ⟨s.acceptDim fewerDims axis (sizesAt x axis) agreed, by rw [Loop.visitDim, hagreed], ?_⟩
  constructor
  · rw [Loop.acceptDim_valid, hs.valid]
  · rw [Loop.acceptDim_broadcastingRequired, hs.broadcastingRequired]
  · rw [Loop.acceptDim_batchIndices, hs.batchIndices]
  · rw [Loop.acceptDim_output, hs.output, List.map_cons, List.reverse_cons, hsize]
  · rw [Loop.acceptDim_outputBatchSize, hs.outputBatchSize, int64_mul_int64, List.map_cons,
      List.prod_cons, hsize, mul_comm]

variable (fewerDims) in
theorem visitAxes_shape {start : Loop (n + 1)} (hstart : ShapeLoop x [] start) (axes : List ℕ) :
    ((∀ axis ∈ axes, ¬ Rejects (sizesAt x axis)) ∧
        ∃ s, visitAxes x fewerDims start axes = .ok s ∧ ShapeLoop x axes s) ∨
      (∃ axis ∈ axes, Rejects (sizesAt x axis)) ∧
        ∃ object, visitAxes x fewerDims start axes = .error object ∧ object.valid = false := by
  induction axes with
  | nil => exact .inl ⟨by simp, start, rfl, hstart⟩
  | cons axis axes ih =>
      rcases ih with ⟨haccepts, s, hrun, hs⟩ | ⟨⟨a, ha, hrejects⟩, object, hrun, hvalid⟩
      · by_cases hrejects : Rejects (sizesAt x axis)
        · refine .inr ⟨⟨axis, List.mem_cons_self, hrejects⟩, { s.toBCastList with valid := false },
            ?_, rfl⟩
          simp [visitAxes, hrun, Except.bind, Loop.visitDim, agreement_eq_none.mpr hrejects]
        · obtain ⟨s', hvisit, hs'⟩ := visitDim_shape fewerDims hs hrejects
          exact .inl ⟨List.forall_mem_cons.mpr ⟨hrejects, haccepts⟩, s',
            by simp [visitAxes, hrun, Except.bind, hvisit], hs'⟩
      · exact .inr ⟨⟨a, List.mem_cons_of_mem _ ha, hrejects⟩, object,
          by simp [visitAxes, hrun, Except.bind], hvalid⟩

/-- What the code computes outside the fast path. -/
theorem bcastList_shape {returnFlattened : Bool}
    (hslow : ¬((∀ i, x i = x 0) ∧ fewerDims = true)) :
    let b := bcastList x fewerDims returnFlattened
    let sizes := (List.range (broadcastRank x)).map fun axis => agreedSize (sizesAt x axis)
    (b.valid = true ↔ ∀ axis < broadcastRank x, ¬ Rejects (sizesAt x axis)) ∧
      (b.valid = true → b.output = sizes ∧ b.outputBatchSize = int64 sizes.prod) := by
  have hstart : ShapeLoop x [] { broadcastingRequired := !allEqual x } := ⟨rfl, rfl, rfl, rfl, rfl⟩
  have haddBatch : ∀ b : BCastList (n + 1), (b.addBatchIndices returnFlattened).valid = b.valid ∧
      (b.addBatchIndices returnFlattened).output = b.output ∧
      (b.addBatchIndices returnFlattened).outputBatchSize = b.outputBatchSize := by
    intro b
    rw [BCastList.addBatchIndices]
    split_ifs <;> exact ⟨rfl, rfl, rfl⟩
  rw [bcastList_eq hslow]
  rcases visitAxes_shape fewerDims hstart (List.range (broadcastRank x)) with
    ⟨haccepts, s, hrun, hs⟩ | ⟨⟨axis, haxis, hrejects⟩, object, hrun, hvalid⟩
  · simp only [hrun, haddBatch, Loop.reversed_valid, Loop.reversed_output,
      Loop.reversed_outputBatchSize, hs.valid, hs.output, hs.outputBatchSize,
      List.reverse_reverse]
    exact ⟨by simpa using haccepts, by simp⟩
  · simp only [hrun, hvalid]
    exact ⟨iff_of_false (by simp) fun h => h axis (List.mem_range.mp haxis) hrejects, by simp⟩

/-- What the code computes on the fast path. -/
theorem bcastList_of_equal {returnFlattened : Bool} (hequal : ∀ i, x i = x 0) :
    bcastList x true returnFlattened = identicalShapes (x 0) :=
  if_pos ⟨allEqual_iff.mpr hequal, rfl⟩

theorem foldl_int64_mul (shape : Vec) (start : ℤ) :
    shape.foldl (fun elements dim => int64 (elements * dim)) (int64 start) =
      int64 (start * shape.prod) := by
  induction shape generalizing start with
  | nil => simp
  | cons dim shape ih => rw [List.foldl_cons, int64_mul_int64, ih, List.prod_cons, mul_assoc]

/-! ## The sizes of the axes -/

variable (x) in
theorem sizesAt_mem (axis : ℕ) (i : Fin (n + 1)) :
    sizesAt x axis i = 1 ∨ sizesAt x axis i ∈ x i := by
  have hmem : ∀ dim ∈ alignedShape x i, dim = 1 ∨ dim ∈ x i := by
    intro dim hdim
    rw [alignedShape, List.mem_append, List.mem_replicate] at hdim
    exact hdim.imp_left And.right
  rw [sizesAt]
  by_cases haxis : axis < (alignedShape x i).length
  · rw [List.getD_eq_getElem _ _ haxis]
    exact hmem _ (List.getElem_mem haxis)
  · exact .inl (List.getD_eq_default _ _ (by omega))

theorem exists_sizesAt {i : Fin (n + 1)} {dim : ℤ} (hdim : dim ∈ x i) :
    ∃ axis < broadcastRank x, sizesAt x axis i = dim := by
  obtain ⟨k, hk, rfl⟩ := List.getElem_of_mem hdim
  have hrank := length_le_broadcastRank x i
  refine ⟨broadcastRank x - (x i).length + k, by omega, ?_⟩
  rw [sizesAt, List.getD_eq_getElem _ _ (by rw [length_alignedShape]; omega)]
  simp [alignedShape, List.getElem_append_right]

/-- The sizes of all axes. -/
theorem map_sizesAt (i : Fin (n + 1)) :
    (List.range (broadcastRank x)).map (fun axis => sizesAt x axis i) = alignedShape x i := by
  refine List.ext_getElem (by simp [length_alignedShape]) fun axis h₁ h₂ => ?_
  simp only [List.getElem_map, List.getElem_range, sizesAt]
  exact List.getD_eq_getElem _ _ h₂

theorem broadcastSize_of_equal (hequal : ∀ i, x i = x 0) (axis : ℕ) (i : Fin (n + 1)) :
    broadcastSize (sizesAt x axis) = sizesAt x axis i := by
  have hsizes : ∀ k, sizesAt x axis k = sizesAt x axis i := by
    intro k
    rw [sizesAt, sizesAt, alignedShape, alignedShape, hequal k, hequal i]
  by_cases hone : sizesAt x axis i = 1
  · rw [broadcastSize_of_ones fun k => (hsizes k).trans hone, hone]
  · exact broadcastSize_of_ne hone fun k _ => hsizes k

theorem numpyShape_of_equal (hequal : ∀ i, x i = x 0) : Compatible x ∧ numpyShape x = x 0 := by
  have hrank : broadcastRank x = (x 0).length :=
    le_antisymm (Finset.sup_le fun i _ => by rw [hequal i]) (length_le_broadcastRank x 0)
  constructor
  · intro axis _ i k _ _
    rw [← broadcastSize_of_equal hequal axis i, ← broadcastSize_of_equal hequal axis k]
  · rw [numpyShape, List.map_congr_left fun axis _ => broadcastSize_of_equal hequal axis 0,
      map_sizesAt, alignedShape, hrank]
    simp

/-! ## When the code says what numpy does -/

theorem agreedSize_spec {N : ℕ} {sizes : Fin N → ℤ} (haccepts : ¬ Rejects sizes) :
    ∃ agreed, Agrees sizes agreed ∧ agreedSize sizes = agreed.size := by
  rcases agreement_spec sizes with ⟨hrejects, -⟩ | ⟨agreed, hsome, hagrees⟩
  · exact absurd hrejects haccepts
  · exact ⟨agreed, hagrees, by simp [agreedSize, hsome]⟩

/-- Sizes that fit into 32 bits are accepted exactly if those other than one are equal. -/
theorem rejects_iff_of_narrow {N : ℕ} {sizes : Fin N → ℤ}
    (hnarrow : ∀ i, int32 (sizes i) = sizes i) :
    ¬ Rejects sizes ↔ ∀ i k, sizes i ≠ 1 → sizes k ≠ 1 → sizes i = sizes k := by
  constructor
  · intro haccepts i k hi hk
    obtain ⟨agreed, hagrees, -⟩ := agreedSize_spec haccepts
    have hsize := (size_of_agrees hagrees hnarrow).2
    rw [(hsize i).resolve_left hi, (hsize k).resolve_left hk]
  · rintro hcompatible ⟨i, k, hi, -, hk, hne⟩
    exact hne (by rw [hnarrow, hcompatible i k hi.2 hk])

theorem map_agreedSize (hnarrow : ∀ axis i, int32 (sizesAt x axis i) = sizesAt x axis i)
    (haccepts : ∀ axis < broadcastRank x, ¬ Rejects (sizesAt x axis)) :
    (List.range (broadcastRank x)).map (fun axis => agreedSize (sizesAt x axis)) =
      numpyShape x := by
  refine List.map_congr_left fun axis haxis => ?_
  obtain ⟨agreed, hagrees, hsize⟩ := agreedSize_spec (haccepts axis (List.mem_range.mp haxis))
  rw [hsize, (size_of_agrees hagrees (hnarrow axis)).1]

/-- For sizes below `2 ^ 31` the code finds the shape that numpy says. -/
theorem bcastList_of_narrow {returnFlattened : Bool}
    (hslow : ¬((∀ i, x i = x 0) ∧ fewerDims = true))
    (hdims : ∀ i, ∀ dim ∈ x i, 0 ≤ dim ∧ dim < 2 ^ 31) :
    let b := bcastList x fewerDims returnFlattened
    (b.valid = true ↔ Compatible x) ∧
      (b.valid = true → b.output = numpyShape x ∧
        b.outputBatchSize = int64 (numpyShape x).prod) := by
  have hnarrow : ∀ axis i, int32 (sizesAt x axis i) = sizesAt x axis i := by
    intro axis i
    rcases sizesAt_mem x axis i with hone | hmem
    · rw [hone]
      rfl
    · exact int32_of_lt (hdims i _ hmem).1 (hdims i _ hmem).2
  obtain ⟨hvalid, hshape⟩ := @bcastList_shape n x fewerDims returnFlattened hslow
  refine ⟨?_, fun h => ?_⟩
  · rw [hvalid]
    exact forall₂_congr fun axis _ => rejects_iff_of_narrow (hnarrow axis)
  · rw [map_agreedSize hnarrow (hvalid.mp h)] at hshape
    exact hshape h

end Run

theorem int64_of_lt {value : ℤ} (hnonneg : 0 ≤ value) (hlt : value < 2 ^ 63) :
    int64 value = value := Int.bmod_eq_of_le (by omega) (by omega)

/-- The result has sizes of the inputs. -/
theorem numpyShape_nonneg {n : ℕ} {x : Fin (n + 1) → Vec} (hdims : ∀ i, ∀ dim ∈ x i, 0 ≤ dim) :
    ∀ dim ∈ numpyShape x, 0 ≤ dim := by
  simp only [numpyShape, List.mem_map]
  rintro _ ⟨axis, -, rfl⟩
  rcases broadcastSize_mem (sizesAt x axis) with hone | ⟨k, hsize⟩
  · simp [hone]
  · rcases sizesAt_mem x axis k with hone | hmem
    · simp [hsize, hone]
    · exact hsize ▸ hdims k _ hmem

/-- The code says what numpy does exactly if it takes the fast path, or all sizes are below
`2 ^ 31`, or the shapes do not broadcast and the low 32 bits still show it along some axis. -/
theorem broadcasts_as_numpy_iff {n : ℕ} (x : Fin (n + 1) → Vec)
    (fewerDims returnFlattened : Bool) (hdims : ∀ i, ∀ dim ∈ x i, 0 ≤ dim ∧ dim < 2 ^ 63)
    (helements : Compatible x → (numpyShape x).prod < 2 ^ 63) :
    BroadcastsAsNumpy x (bcastList x fewerDims returnFlattened) ↔
      ((∀ i, x i = x 0) ∧ fewerDims = true) ∨
      (∀ i, ∀ dim ∈ x i, dim < 2 ^ 31) ∨
      (¬ Compatible x ∧ ∃ axis < broadcastRank x, Rejects (sizesAt x axis)) := by
  have hnonneg : 0 ≤ (numpyShape x).prod :=
    List.prod_nonneg (numpyShape_nonneg fun i dim hdim => (hdims i dim hdim).1)
  by_cases hfast : (∀ i, x i = x 0) ∧ fewerDims = true
  · obtain ⟨hequal, rfl⟩ := hfast
    obtain ⟨hcompatible, hshape⟩ := numpyShape_of_equal hequal
    have hbatch : int64 (x 0).prod = (x 0).prod :=
      int64_of_lt (hshape ▸ hnonneg) (hshape ▸ helements hcompatible)
    refine iff_of_true ?_ (.inl ⟨hequal, rfl⟩)
    rw [bcastList_of_equal hequal]
    refine ⟨iff_of_true rfl hcompatible, fun _ => hshape.symm, fun _ => ?_⟩
    have hfold := foldl_int64_mul (x 0) 1
    rw [one_mul, hbatch] at hfold
    rw [hshape]
    exact hfold
  · obtain ⟨hvalid, hshape⟩ := @bcastList_shape n x fewerDims returnFlattened hfast
    constructor
    · intro hnumpy
      by_cases hnarrow : ∀ i, ∀ dim ∈ x i, dim < 2 ^ 31
      · exact .inr (.inl hnarrow)
      · push Not at hnarrow
        obtain ⟨i, dim, hdim, hwide⟩ := hnarrow
        obtain ⟨axis, haxis, hsize⟩ := exists_sizesAt hdim
        by_cases hcompatible : Compatible x
        · -- the wide size is returned by its low 32 bits
          exfalso
          have hb := hnumpy.valid_iff.mpr hcompatible
          obtain ⟨agreed, hagrees, hagreed⟩ := agreedSize_spec (hvalid.mp hb axis haxis)
          have hne := size_ne_of_wide hagrees (i := i) (hcompatible axis haxis)
            (by rw [hsize]; omega) (by
              rw [hsize]
              have : int32 dim < 2 ^ 31 := Int.bmod_lt (by decide)
              omega)
          have houtput := hnumpy.output hb
          rw [(hshape hb).1] at houtput
          have := List.map_inj_left.mp houtput axis (List.mem_range.mpr haxis)
          rw [hagreed] at this
          exact hne this
        · refine .inr (.inr ⟨hcompatible, ?_⟩)
          have hinvalid := mt hnumpy.valid_iff.mp hcompatible
          rw [hvalid] at hinvalid
          push Not at hinvalid
          exact hinvalid
    · rintro (h | hnarrow | ⟨hcompatible, axis, haxis, hrejects⟩)
      · exact absurd h hfast
      · obtain ⟨hiff, hrest⟩ := @bcastList_of_narrow n x fewerDims returnFlattened hfast
          fun i dim hdim => ⟨(hdims i dim hdim).1, hnarrow i dim hdim⟩
        refine ⟨hiff, fun hb => (hrest hb).1, fun hb => ?_⟩
        rw [(hrest hb).2, int64_of_lt hnonneg (helements (hiff.mp hb))]
      · have hb : ¬ (bcastList x fewerDims returnFlattened).valid = true :=
          fun h => hvalid.mp h axis haxis hrejects
        exact ⟨iff_of_false hb hcompatible, fun h => absurd h hb, fun h => absurd h hb⟩

theorem broadcasts_as_numpy_iff_two :
    BroadcastsAsNumpy ![[2, 1], [3]] (bcastList ![[2, 1], [3]] true false) :=
  (broadcasts_as_numpy_iff ![[2, 1], [3]] true false (by decide) fun _ => by decide).mpr
    (.inr (.inl (by decide)))

/-- Two shapes with an equal size of `2 ^ 32` are refused, although they are compatible. -/
theorem wide_sizes_refused :
    ¬ ∀ (n : ℕ) (x : Fin (n + 1) → Vec) (fewerDims returnFlattened : Bool),
      (∀ i, ∀ dim ∈ x i, 0 ≤ dim ∧ dim < 2 ^ 63) →
      (Compatible x → (numpyShape x).prod < 2 ^ 63) →
      BroadcastsAsNumpy x (bcastList x fewerDims returnFlattened) := by
  intro h
  have hnumpy := h 1 ![[2 ^ 32, 1], [2 ^ 32, 3]] true false (by decide) fun _ => by decide
  have hcompatible : Compatible ![[2 ^ 32, 1], [2 ^ 32, 3]] := by
    unfold Compatible
    decide
  have hvalid := hnumpy.valid_iff.mpr hcompatible
  exact absurd hvalid (by decide)

end ContainerScheduler.Analysis
