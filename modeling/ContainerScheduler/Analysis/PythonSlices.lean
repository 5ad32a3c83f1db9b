/-
# Strided slices follow Python

Python's `slice.indices` says which positions of a sequence a slice selects. Each dimension of a
strided slice selects these positions, for its part of the expression.
-/

import ContainerScheduler.Analysis.DenseSlices
import ContainerScheduler.Math.Progression

namespace ContainerScheduler.Analysis

open Slicing Math

/-! ## The indices of Python -/

/-- A bound as `slice.indices` adjusts it. Negative ones count from the end. -/
def adjusted (dim step bound : ℤ) : ℤ :=
  if bound < 0 then max (bound + dim) (if 0 < step then 0 else -1)
  else min bound (if 0 < step then dim else dim - 1)

/-- The positions `range(*slice(start, stop, step).indices(dim))`. -/
def pythonSlice (start stop : Option ℤ) (step dim : ℤ) : List ℤ :=
  progression ((start.map (adjusted dim step)).getD (if 0 < step then 0 else dim - 1))
    ((stop.map (adjusted dim step)).getD (if 0 < step then dim else -1)) step

/-- The position of an index. -/
def SliceSubscript.index (subscript : SliceSubscript) (dim : ℤ) : ℤ :=
  if subscript.begin_i < 0 then dim + subscript.begin_i else subscript.begin_i

def SliceSubscript.positions (subscript : SliceSubscript) (dim : ℤ) : List ℤ :=
  if subscript.shrink then [subscript.index dim]
  else
    pythonSlice (if subscript.beginMasked then none else some subscript.begin_i)
      (if subscript.endMasked then none else some subscript.end_i) subscript.stride_i dim

/-- All positions in their order. -/
def whole (dim : ℤ) : List ℤ := (List.range dim.toNat).map fun k : ℕ => (k : ℤ)

/-- The positions that an entry selects. -/
def SliceEntry.positions (entry : SliceEntry) (dim : ℤ) : List ℤ :=
  match entry with
  | .newAxis => []
  | .full => whole dim
  | .given subscript => subscript.positions dim

/-- A subscript that is refused. -/
def SliceSubscript.Wrong (subscript : SliceSubscript) (dim : ℤ) : Prop :=
  subscript.stride_i = 0 ∨
    subscript.shrink = true ∧
      (subscript.stride_i ≤ 0 ∨ subscript.begin_i < -dim ∨ dim ≤ subscript.begin_i)

/-- The dimensions of the result, from the numbers of positions that are selected. -/
def resultShape : List SliceEntry → List ℤ → List ℤ
  | .newAxis :: entries, sizes => 1 :: resultShape entries sizes
  | .full :: entries, size :: sizes => size :: resultShape entries sizes
  | .given subscript :: entries, size :: sizes =>
      if subscript.shrink then resultShape entries sizes else size :: resultShape entries sizes
  | _, _ => []

/-! ## One dimension -/

section Dimension

variable {subscript : SliceSubscript} {dim first stop step : ℤ}

/-- The bounds that the operation computes. -/
def SliceSubscript.bounds (subscript : SliceSubscript) (dim : ℤ) : ℤ × ℤ :=
  if subscript.shrink then (subscript.index dim, subscript.index dim + 1)
  else
    let masks : Fin 2 → Bool := ![subscript.beginMasked, subscript.endMasked]
    (canonical subscript.stride_i dim masks subscript.begin_i ⟨0, Nat.zero_lt_two⟩,
      canonical subscript.stride_i dim masks subscript.end_i ⟨1, Nat.one_lt_two⟩)

theorem adjusted_le (hdim : 0 ≤ dim) (bound : ℤ) :
    adjusted dim step bound ≤ if 0 < step then dim else dim - 1 := by
  rw [adjusted]
  split_ifs <;> omega

theorem le_adjusted (hdim : 0 ≤ dim) (bound : ℤ) :
    (if 0 < step then 0 else -1) ≤ adjusted dim step bound := by
  rw [adjusted]
  split_ifs <;> omega

/-- The operation adjusts its bounds as Python does. -/
theorem canonical_zero (masks : Fin 2 → Bool) (x : ℤ) :
    canonical step dim masks x 0 =
      ((if masks 0 then none else some x).map (adjusted dim step)).getD
        (if 0 < step then 0 else dim - 1) := by
  by_cases hpos : 0 < step
  · cases hmask : masks 0 with
    | true => simp [canonical, hmask, hpos]
    | false =>
        simp only [canonical, hmask, hpos, gt_iff_lt, if_true, if_false, Bool.false_eq_true,
          Matrix.cons_val_zero, Matrix.cons_val_one, Option.map_some, Option.getD_some, adjusted]
        split_ifs <;> omega
  · cases hmask : masks 0 with
    | true => simp [canonical, hmask, hpos]
    | false =>
        simp only [canonical, hmask, hpos, gt_iff_lt, if_false, Bool.false_eq_true,
          Matrix.cons_val_zero, Matrix.cons_val_one, Option.map_some, Option.getD_some, adjusted]
        split_ifs <;> omega

theorem canonical_one (masks : Fin 2 → Bool) (x : ℤ) :
    canonical step dim masks x 1 =
      ((if masks 1 then none else some x).map (adjusted dim step)).getD
        (if 0 < step then dim else -1) := by
  by_cases hpos : 0 < step
  · cases hmask : masks 1 with
    | true => simp [canonical, hmask, hpos]
    | false =>
        simp only [canonical, hmask, hpos, gt_iff_lt, if_true, if_false, Bool.false_eq_true,
          Matrix.cons_val_zero, Matrix.cons_val_one, Option.map_some, Option.getD_some, adjusted]
        split_ifs <;> omega
  · cases hmask : masks 1 with
    | true => simp [canonical, hmask, hpos]
    | false =>
        simp only [canonical, hmask, hpos, gt_iff_lt, if_false, Bool.false_eq_true,
          Matrix.cons_val_zero, Matrix.cons_val_one, Option.map_some, Option.getD_some, adjusted]
        split_ifs <;> omega

/-- The bounds select the positions that Python selects. -/
theorem progression_bounds (hright : ¬ subscript.Wrong dim) :
    progression (subscript.bounds dim).1 (subscript.bounds dim).2 subscript.stride_i =
      subscript.positions dim := by
  rw [SliceSubscript.bounds, SliceSubscript.positions]
  by_cases hshrink : subscript.shrink = true
  · rw [if_pos hshrink, if_pos hshrink]
    have hpos : 0 < subscript.stride_i :=
      not_le.mp fun hle => hright (.inr ⟨hshrink, .inl hle⟩)
    exact progression_succ hpos
  · rw [if_neg hshrink, if_neg hshrink, pythonSlice]
    exact congrArg₂ (progression · · subscript.stride_i) (canonical_zero _ _)
      (canonical_one _ _)

/-- All positions of a slice are within bounds. -/
theorem mem_pythonSlice {start stop : Option ℤ} {number : ℤ} (hdim : 0 ≤ dim) (hstep : step ≠ 0)
    (hnumber : number ∈ pythonSlice start stop step dim) : 0 ≤ number ∧ number < dim := by
  obtain ⟨hbefore, hbehind⟩ := mem_progression hstep hnumber
  have hlower : ∀ bound : Option ℤ, ∀ default : ℤ, (if 0 < step then 0 else -1) ≤ default →
      (if 0 < step then 0 else -1) ≤ (bound.map (adjusted dim step)).getD default := by
    intro bound default hdefault
    cases bound with
    | none => exact hdefault
    | some bound => exact le_adjusted hdim bound
  have hupper : ∀ bound : Option ℤ, ∀ default : ℤ,
      default ≤ (if 0 < step then dim else dim - 1) →
        (bound.map (adjusted dim step)).getD default ≤ if 0 < step then dim else dim - 1 := by
    intro bound default hdefault
    cases bound with
    | none => exact hdefault
    | some bound => exact adjusted_le hdim bound
  rw [ComesBefore] at hbefore
  by_cases hpos : 0 < step
  · simp only [hpos, if_true] at hbefore hbehind hlower hupper
    exact ⟨(hlower start 0 le_rfl).trans hbehind, hbefore.trans_le (hupper stop dim le_rfl)⟩
  · simp only [hpos, if_false] at hbefore hbehind hlower hupper
    have hfirst := hupper start (dim - 1) le_rfl
    have hlast := hlower stop (-1) le_rfl
    omega

theorem positions_within {number : ℤ} (hdim : 0 ≤ dim) (hright : ¬ subscript.Wrong dim)
    (hnumber : number ∈ subscript.positions dim) : 0 ≤ number ∧ number < dim := by
  rw [SliceSubscript.positions] at hnumber
  by_cases hshrink : subscript.shrink = true
  · rw [if_pos hshrink] at hnumber
    obtain rfl := List.mem_singleton.mp hnumber
    have hin : ¬ (subscript.begin_i < -dim ∨ dim ≤ subscript.begin_i) :=
      fun hout => hright (.inr ⟨hshrink, .inr hout⟩)
    rw [SliceSubscript.index]
    split_ifs <;> omega
  · rw [if_neg hshrink] at hnumber
    exact mem_pythonSlice hdim (fun hzero => hright (.inl hzero)) hnumber

theorem ceil_eq {n m : ℕ} (hm : 0 < m) :
    (n + m - 1) / m = n / m + if n % m ≠ 0 then 1 else 0 := by
  have hn := Nat.div_add_mod n m
  split_ifs with hrest
  · have hsum : n + m - 1 = m * (n / m + 1) + (n % m - 1) := by
      rw [Nat.mul_add, Nat.mul_one]
      omega
    have hlt : n % m - 1 < m := by
      have := Nat.mod_lt n hm
      omega
    rw [hsum, Nat.mul_add_div hm, Nat.div_eq_of_lt hlt, Nat.add_zero]
  · have hsum : n + m - 1 = m * (n / m) + (m - 1) := by
      rw [not_not] at hrest
      omega
    rw [hsum, Nat.mul_add_div hm, Nat.div_eq_of_lt (show m - 1 < m by omega)]

/-- Rounding up. -/
theorem tdiv_add_tmod {n m : ℕ} (hm : 0 < m) :
    (n : ℤ).tdiv m + (if (n : ℤ).tmod m ≠ 0 then 1 else 0) = ((n + m - 1) / m : ℕ) := by
  rw [ceil_eq hm, ← Int.ofNat_tdiv, ← Int.ofNat_tmod]
  split_ifs with hrest hrest' hrest'
  · rfl
  · exact absurd (Int.ofNat_ne_zero.mp hrest) hrest'
  · exact absurd (Int.ofNat_ne_zero.mpr hrest') hrest
  · rfl

theorem sliceSize_eq (hstep : step ≠ 0) :
    sliceSize (stop - first) step = Progression.count first stop step := by
  have hm : 0 < step.natAbs := Int.natAbs_pos.mpr hstep
  rw [sliceSize, Progression.count, Progression.reach]
  by_cases hempty : stop - first = 0 ∨ decide (stop - first < 0) ≠ decide (step < 0)
  · have hreach : (if 0 < step then stop - first else first - stop).toNat = 0 := by
      simp only [ne_eq, decide_eq_decide] at hempty
      split_ifs <;> omega
    rw [if_pos hempty, hreach, Nat.div_eq_of_lt (by omega)]
    rfl
  · rw [if_neg hempty]
    simp only [ne_eq, decide_eq_decide, not_or, not_not] at hempty
    rcases lt_or_gt_of_ne hstep with hneg | hpos
    · have hway : stop - first = -((first - stop).toNat : ℤ) := by omega
      have habs : step = -(step.natAbs : ℤ) := by omega
      rw [if_neg (not_lt.mpr hneg.le), ← tdiv_add_tmod hm, hway, habs]
      simp
    · have hway : stop - first = ((stop - first).toNat : ℤ) := by omega
      have habs : step = (step.natAbs : ℤ) := by omega
      rw [if_pos hpos, ← tdiv_add_tmod hm, ← hway, ← habs]

end Dimension

/-! ## The loop over the dimensions -/

section Loop

variable {dense : DenseSpec} {shape : List ℤ} {d n : ℕ}

/-- The range of a dimension that the operation computes. -/
def boundsAt (dense : DenseSpec) (shape : List ℤ) (d : ℕ) : ℤ × ℤ :=
  (denseAt dense d).bounds (shape.getD d 0)

def WrongAt (dense : DenseSpec) (shape : List ℤ) (d : ℕ) : Prop :=
  (denseAt dense d).Wrong (shape.getD d 0)

/-- The dimension is taken as a whole. -/
def WholeAt (dense : DenseSpec) (shape : List ℤ) (d : ℕ) : Prop :=
  (denseAt dense d).stride_i = 1 ∧ boundsAt dense shape d = (0, shape.getD d 0)

/-- What is known of the dimensions before `n`. -/
structure SlicesTo (dense : DenseSpec) (shape : List ℤ) (n : ℕ) (s : SliceShapes) : Prop where
  begins : s.begins = (List.range n).map fun d => (boundsAt dense shape d).1
  ends : s.ends = (List.range n).map fun d => (boundsAt dense shape d).2
  strides : s.strides = (List.range n).map fun d => (denseAt dense d).stride_i
  processingShape : s.processingShape = (List.range n).map fun d =>
    sliceSize ((boundsAt dense shape d).2 - (boundsAt dense shape d).1) (denseAt dense d).stride_i
  isIdentity : s.isIdentity = true → ∀ d < n, WholeAt dense shape d
  sliceDim0 : s.sliceDim0 = true → ∀ d < n, d ≠ 0 → WholeAt dense shape d

/-- A range is refused exactly if its index is out of bounds. -/
theorem rangeOf_spec {subscript : SliceSubscript} {dim : ℤ} (i : ℕ) (hstep : subscript.stride_i ≠ 0)
    (hright : ¬ (subscript.shrink = true ∧ subscript.stride_i ≤ 0)) :
    rangeOf i subscript.begin_i subscript.end_i subscript.stride_i dim
        ![subscript.beginMasked, subscript.endMasked] subscript.shrink =
        .ok (subscript.bounds dim) ∧ ¬ subscript.Wrong dim ∨
      (∃ e, rangeOf i subscript.begin_i subscript.end_i subscript.stride_i dim
        ![subscript.beginMasked, subscript.endMasked] subscript.shrink = .error e) ∧
        subscript.Wrong dim := by
  rw [rangeOf, SliceSubscript.bounds]
  by_cases hshrink : subscript.shrink = true
  · have hwrong : subscript.Wrong dim ↔
        subscript.index dim < 0 ∨ subscript.index dim ≥ dim := by
      have hpos : ¬ subscript.stride_i ≤ 0 := fun hle => hright ⟨hshrink, hle⟩
      simp only [SliceSubscript.Wrong, hstep, hshrink, hpos, true_and, false_or]
      rw [SliceSubscript.index]
      split_ifs <;> omega
    rw [hwrong, if_pos hshrink, if_pos hshrink]
    by_cases hout : subscript.index dim < 0 ∨ subscript.index dim ≥ dim
    · exact .inr ⟨⟨_, if_pos hout⟩, hout⟩
    · exact .inl ⟨if_neg hout, hout⟩
  · rw [if_neg hshrink, if_neg hshrink]
    refine .inl ⟨rfl, ?_⟩
    rintro (hzero | ⟨hshrunk, -⟩)
    · exact hstep hzero
    · exact hshrink hshrunk

/-- One round of the loop. -/
theorem validateDim_spec {s : SliceShapes}
    (hvalid : dense.beginValid = true ∧ dense.endValid = true) (hknown : 0 ≤ shape.getD n 0)
    (hs : SlicesTo dense shape n s) :
    (∃ s', validateDim dense shape s n = .ok s' ∧ SlicesTo dense shape (n + 1) s' ∧
        ¬ WrongAt dense shape n) ∨
      (∃ e, validateDim dense shape s n = .error e) ∧ WrongAt dense shape n := by
  simp only [validateDim]
  by_cases hstep : (denseAt dense n).stride_i = 0
  · exact .inr ⟨⟨_, if_pos hstep⟩, .inl hstep⟩
  rw [if_neg (show ¬ dense.strides.getD n 0 = 0 from hstep),
    if_neg (show ¬ shape.getD n 0 = -1 by omega)]
  by_cases hshrunk : (denseAt dense n).shrink = true ∧ (denseAt dense n).stride_i ≤ 0
  · exact .inr ⟨⟨_, if_pos hshrunk⟩, .inr ⟨hshrunk.1, .inl hshrunk.2⟩⟩
  rw [if_neg (show ¬ (bit dense.shrinkAxisMask n = true ∧ dense.strides.getD n 0 ≤ 0) from hshrunk),
    if_pos hvalid]
  rcases rangeOf_spec n hstep hshrunk with ⟨hrange, hright⟩ | ⟨⟨e, hrange⟩, hwrong⟩
  · have hrange' : rangeOf n (dense.begins.getD n 0) (dense.ends.getD n 0)
        (dense.strides.getD n 0) (shape.getD n 0) ![bit dense.beginMask n, bit dense.endMask n]
        (bit dense.shrinkAxisMask n) = .ok (boundsAt dense shape n) := hrange
    simp only [hrange']
    refine .inl ⟨_, rfl, ?_, hright⟩
    have hwhole : (decide (dense.strides.getD n 0 = 1 ∧ (boundsAt dense shape n).1 = 0 ∧
        (boundsAt dense shape n).2 = shape.getD n 0)) = true ↔ WholeAt dense shape n := by
      rw [decide_eq_true_iff, WholeAt, Prod.ext_iff]
      rfl
    constructor
    · simp [List.range_succ, hs.begins]
    · simp [List.range_succ, hs.ends]
    · simp [List.range_succ, hs.strides, denseAt]
    · simp [List.range_succ, hs.processingShape, denseAt]
    · intro hidentity d hd
      rw [Bool.and_eq_true] at hidentity
      rcases Nat.lt_or_eq_of_le (Nat.le_of_lt_succ hd) with hlt | rfl
      · exact hs.isIdentity hidentity.1 d hlt
      · exact hwhole.mp hidentity.2
    · intro hslice d hd hne
      rw [Bool.and_eq_true] at hslice
      rcases Nat.lt_or_eq_of_le (Nat.le_of_lt_succ hd) with hlt | rfl
      · exact hs.sliceDim0 hslice.1 d hlt hne
      · have hlast := hslice.2
        rw [decide_eq_false hne, Bool.false_and, Bool.false_or] at hlast
        exact hwhole.mp hlast
  · have hrange' : rangeOf n (dense.begins.getD n 0) (dense.ends.getD n 0)
        (dense.strides.getD n 0) (shape.getD n 0) ![bit dense.beginMask n, bit dense.endMask n]
        (bit dense.shrinkAxisMask n) = .error e := hrange
    simp only [hrange']
    exact .inr ⟨⟨e, rfl⟩, hwrong⟩

theorem foldlM_validateDim (hvalid : dense.beginValid = true ∧ dense.endValid = true)
    (hshape : ∀ d < n, 0 ≤ shape.getD d 0) :
    (∃ s, (List.range n).foldlM (validateDim dense shape) {} = .ok s ∧ SlicesTo dense shape n s ∧
        ∀ d < n, ¬ WrongAt dense shape d) ∨
      (∃ e, (List.range n).foldlM (validateDim dense shape) {} = .error e) ∧
        ∃ d < n, WrongAt dense shape d := by
  induction n with
  | zero =>
      refine .inl ⟨{}, rfl, ⟨rfl, rfl, rfl, rfl, ?_, ?_⟩, ?_⟩
      · exact fun _ d hd => absurd hd (Nat.not_lt_zero d)
      · exact fun _ d hd => absurd hd (Nat.not_lt_zero d)
      · exact fun d hd => absurd hd (Nat.not_lt_zero d)
  | succ n ih =>
      rw [List.range_succ, List.foldlM_append]
      rcases ih fun d hd => hshape d (by omega) with
        ⟨s, hrun, hs, hright⟩ | ⟨⟨e, hrun⟩, d, hd, hwrong⟩
      · rcases validateDim_spec hvalid (hshape n (Nat.lt_succ_self n)) hs with
          ⟨s', hdim, hs', hlast⟩ | ⟨⟨e, hdim⟩, hwrong⟩
        · refine .inl ⟨s', by rw [hrun]; exact (bind_pure _).trans hdim, hs', fun d hd => ?_⟩
          rcases Nat.lt_or_eq_of_le (Nat.le_of_lt_succ hd) with hlt | rfl
          · exact hright d hlt
          · exact hlast
        · exact .inr ⟨⟨e, by rw [hrun]; exact (bind_pure _).trans hdim⟩, n, Nat.lt_succ_self n,
            hwrong⟩
      · exact .inr ⟨⟨e, by rw [hrun]; rfl⟩, d, Nat.lt_succ_of_lt hd, hwrong⟩

end Loop

/-! ## The entries of the dimensions -/

section Axes

variable {entries : List SliceEntry} {entry : SliceEntry} {subscript : SliceSubscript} {dim : ℤ}

theorem map_subscript_axes :
    (entries.filter SliceEntry.isAxis).map SliceEntry.subscript? =
      (subscripts entries).map some := by
  induction entries with
  | nil => rfl
  | cons entry entries ih =>
      cases entry with
      | newAxis => exact ih
      | full => exact congrArg (List.cons _) ih
      | given subscript => exact congrArg (List.cons _) ih

/-- The entry of a dimension is what the dense specification says of it. -/
theorem exists_axis {rank d : ℕ} {s : DenseSpec} (hs : Expands rank entries s)
    (hd : d < (subscripts entries).length) :
    ∃ entry, (entries.filter SliceEntry.isAxis)[d]? = some entry ∧
      entry.subscript? = some (denseAt s d) := by
  have hmap := congrArg (·[d]?) (@map_subscript_axes entries)
  simp only [List.getElem?_map, List.getElem?_eq_getElem hd, Option.map_some] at hmap
  obtain ⟨entry, hentry, hsubscript⟩ := Option.map_eq_some_iff.mp hmap
  exact ⟨entry, hentry, by rw [hsubscript, hs.subscript_eq d hd]⟩

/-- Under the ellipsis everything is selected, and nothing is refused. -/
theorem positions_of_subscript (hdim : 0 ≤ dim) (hentry : entry.subscript? = some subscript) :
    subscript.positions dim = entry.positions dim := by
  cases entry with
  | newAxis => cases hentry
  | full =>
      obtain rfl := Option.some.inj hentry
      have hwhole := progression_zero_one dim.toNat
      rw [Int.toNat_of_nonneg hdim] at hwhole
      exact hwhole
  | given given =>
      obtain rfl := Option.some.inj hentry
      rfl

theorem wrong_iff_of_subscript (hentry : entry.subscript? = some subscript) :
    subscript.Wrong dim ↔ ∃ given, entry = .given given ∧ given.Wrong dim := by
  cases entry with
  | newAxis => cases hentry
  | full =>
      obtain rfl := Option.some.inj hentry
      simp [SliceSubscript.Wrong]
  | given given =>
      obtain rfl := Option.some.inj hentry
      simp

/-- The final shape is gathered in the order in which the entries are written. -/
theorem foldl_gather {processingShape start : List ℤ} {d : ℕ}
    (hlength : d + (subscripts entries).length ≤ processingShape.length) :
    (gatherIndices d entries).foldl (fun finalShape index =>
        if index ≥ 0 then finalShape ++ [processingShape.getD index.toNat 0]
        else if index = kNewAxis then finalShape ++ [1]
        else finalShape) start =
      start ++ resultShape entries (processingShape.drop d) := by
  induction entries generalizing d start with
  | nil => simp [gatherIndices, resultShape]
  | cons entry entries ih =>
      have hcons : ∀ {subscript}, entry.subscript? = some subscript →
          d < processingShape.length ∧
            d + 1 + (subscripts entries).length ≤ processingShape.length := by
        intro subscript hentry
        rw [subscripts, List.filterMap_cons_some hentry, List.length_cons, ← subscripts] at hlength
        omega
      have hdrop : ∀ hd : d < processingShape.length,
          processingShape.drop d = processingShape.getD d 0 :: processingShape.drop (d + 1) := by
        intro hd
        rw [List.getD_eq_getElem _ _ hd, List.drop_eq_getElem_cons hd]
      cases entry with
      | newAxis =>
          have hrest : d + (subscripts entries).length ≤ processingShape.length := hlength
          rw [gatherIndices, List.foldl_cons, if_neg (by decide), if_pos rfl, ih hrest,
            List.append_assoc]
          rfl
      | full =>
          obtain ⟨hd, hrest⟩ := hcons rfl
          rw [gatherIndices, List.foldl_cons, if_pos (Int.natCast_nonneg d), ih hrest, hdrop hd,
            List.append_assoc]
          rfl
      | given subscript =>
          obtain ⟨hd, hrest⟩ := hcons rfl
          rw [gatherIndices, List.foldl_cons, hdrop hd, resultShape]
          cases subscript.shrink with
          | true => exact ih hrest
          | false =>
              have hgathered := @ih (start ++ [processingShape.getD d 0]) (d + 1) hrest
              rw [List.append_assoc] at hgathered
              exact hgathered

end Axes

/-! ## The whole operation -/

variable (w : WrittenSlice) (inputShape : List ℤ)

/-- The operation, whose arguments are vectors. -/
def WrittenSlice.validate : Except InvalidArgument SliceShapes :=
  validateStridedSliceOp (some (.ofVector w.begins)) (some (.ofVector w.ends))
    (.ofVector w.strides) inputShape w.beginMask w.endMask w.ellipsisMask w.newAxisMask
    w.shrinkAxisMask

/-- There are two bits in the ellipsis mask, too many subscripts, or a wrong one. -/
def RefusesSlice : Prop :=
  Several w.ellipsisMask ∨ inputShape.length < w.indexed ∨
    ∃ d < inputShape.length, ∃ subscript,
      (w.axes inputShape.length)[d]? = some (.given subscript) ∧
        subscript.Wrong (inputShape.getD d 0)

/-- The three numbers of a dimension select these positions, all of which are in bounds. -/
structure SelectsInBounds (s : SliceShapes) (d : ℕ) (dim : ℤ) (positions : List ℤ) : Prop where
  selected : ∃ first stop step, s.begins[d]? = some first ∧ s.ends[d]? = some stop ∧
    s.strides[d]? = some step ∧ progression first stop step = positions
  within : ∀ number ∈ positions, 0 ≤ number ∧ number < dim
  counted : s.processingShape[d]? = some (positions.length : ℤ)

/-- The result is that of Python. -/
structure FollowsPython (s : SliceShapes) : Prop where
  length_axes : (w.axes inputShape.length).length = inputShape.length
  length_begins : s.begins.length = inputShape.length
  length_ends : s.ends.length = inputShape.length
  length_strides : s.strides.length = inputShape.length
  length_processingShape : s.processingShape.length = inputShape.length
  selects : ∀ d entry, (w.axes inputShape.length)[d]? = some entry →
    SelectsInBounds s d (inputShape.getD d 0) (entry.positions (inputShape.getD d 0))
  finalShape : s.finalShape = resultShape (w.entries inputShape.length) s.processingShape
  isIdentity : s.isIdentity = true → ∀ d entry, (w.axes inputShape.length)[d]? = some entry →
    entry.positions (inputShape.getD d 0) = whole (inputShape.getD d 0)
  sliceDim0 : s.sliceDim0 = true → ∀ d entry, d ≠ 0 →
    (w.axes inputShape.length)[d]? = some entry →
      entry.positions (inputShape.getD d 0) = whole (inputShape.getD d 0)

section Operation

variable {w inputShape}

theorem validate_eq (hbegins : w.begins.length = w.strides.length)
    (hends : w.ends.length = w.strides.length) (hshort : w.strides.length < 31) :
    w.validate inputShape =
      if w.ellipsisMask ≠ 0 ∧ w.ellipsisMask &&& (w.ellipsisMask - 1) ≠ 0 then
        .error .multipleEllipses
      else
        (buildDenseSpec
          (w.sparse.addEllipsis (countNewAxes w.ellipsisMask w.newAxisMask w.strides.length).1)
            inputShape.length).bind fun dense =>
              ((List.range inputShape.length).foldlM (validateDim dense inputShape) {}).map fun s =>
                { s with
                  finalShape := gatherShape dense.finalShapeGatherIndices s.processingShape } := by
  have hnum : ∀ values : List ℤ, (IndexTensor.ofVector values).numElements = values.length :=
    fun values => by simp [IndexTensor.numElements, IndexTensor.ofVector]
  have hfits : ∀ values : List ℤ, values.length = w.strides.length →
      (IndexTensor.ofVector values).fits (.ofVector w.strides) = true := by
    intro values hvalues
    rw [IndexTensor.fits, decide_eq_true_iff, hnum, hnum]
    exact ⟨rfl, hvalues⟩
  have hlt : w.begins.length < 32 := by omega
  have hvector : (IndexTensor.ofVector w.strides).isVector := rfl
  rw [WrittenSlice.validate, validateStridedSliceOp]
  simp only [Option.any_some, hfits _ hbegins, hfits _ hends, hnum, hlt, decide_true,
    Bool.and_true, Bool.not_true, Bool.false_eq_true, false_or]
  rw [if_neg (not_not.mpr hvector)]
  rfl

/-- What the loop over the dimensions leaves. -/
theorem followsPython_of_slicesTo {dense : DenseSpec} {s : SliceShapes}
    (hdense : Expands inputShape.length (w.entries inputShape.length) dense)
    (hlength : (subscripts (w.entries inputShape.length)).length = inputShape.length)
    (hshape : ∀ d, 0 ≤ inputShape.getD d 0) (hs : SlicesTo dense inputShape inputShape.length s)
    (hright : ∀ d < inputShape.length, ¬ WrongAt dense inputShape d) :
    FollowsPython w inputShape
      { s with finalShape := gatherShape dense.finalShapeGatherIndices s.processingShape } := by
  have haxes : (w.axes inputShape.length).length = inputShape.length := by
    have hmap := congrArg List.length (@map_subscript_axes (w.entries inputShape.length))
    rw [List.length_map, List.length_map, hlength] at hmap
    exact hmap
  -- the entry of each dimension
  have haxis : ∀ {d entry}, (w.axes inputShape.length)[d]? = some entry →
      d < inputShape.length ∧ (denseAt dense d).positions (inputShape.getD d 0) =
        entry.positions (inputShape.getD d 0) := by
    intro d entry hentry
    have hd : d < inputShape.length := haxes ▸ (List.getElem?_eq_some_iff.mp hentry).1
    obtain ⟨entry', hentry', hsubscript⟩ := exists_axis hdense (hlength ▸ hd)
    obtain rfl : entry' = entry := Option.some.inj (hentry'.symm.trans hentry)
    exact ⟨hd, positions_of_subscript (hshape d) hsubscript⟩
  have hwhole : ∀ {d entry}, (w.axes inputShape.length)[d]? = some entry →
      WholeAt dense inputShape d →
        entry.positions (inputShape.getD d 0) = whole (inputShape.getD d 0) := by
    intro d entry hentry hall
    obtain ⟨hd, hpositions⟩ := haxis hentry
    have hbounds := progression_bounds (hright d hd)
    have hrange := progression_zero_one (inputShape.getD d 0).toNat
    rw [Int.toNat_of_nonneg (hshape d)] at hrange
    rw [← hpositions, ← hbounds, hall.1, show (denseAt dense d).bounds _ = _ from hall.2]
    exact hrange
  have hlast : ∀ {f : ℕ → ℤ} {d : ℕ}, d < inputShape.length →
      ((List.range inputShape.length).map f)[d]? = some (f d) := by
    intro f d hd
    rw [List.getElem?_map, List.getElem?_range hd, Option.map_some]
  constructor
  · exact haxes
  · simp [hs.begins]
  · simp [hs.ends]
  · simp [hs.strides]
  · simp [hs.processingShape]
  · intro d entry hentry
    obtain ⟨hd, hpositions⟩ := haxis hentry
    have hbounds := progression_bounds (hright d hd)
    have hstep : (denseAt dense d).stride_i ≠ 0 := fun hzero => hright d hd (.inl hzero)
    rw [← hpositions]
    refine ⟨⟨_, _, _, hs.begins ▸ hlast hd, hs.ends ▸ hlast hd, hs.strides ▸ hlast hd, hbounds⟩,
      fun number hnumber => positions_within (hshape d) (hright d hd) hnumber, ?_⟩
    have hcount : (s.processingShape)[d]? = some (sliceSize _ _) := hs.processingShape ▸ hlast hd
    rw [sliceSize_eq hstep, ← length_progression hstep] at hcount
    rw [← hbounds]
    exact hcount
  · have hgather := @foldl_gather (w.entries inputShape.length) s.processingShape [] 0
      (by simp [hlength, hs.processingShape])
    rw [List.nil_append, List.drop_zero] at hgather
    change gatherShape dense.finalShapeGatherIndices s.processingShape = _
    rw [hdense.gather]
    exact hgather
  · intro hidentity d entry hentry
    exact hwhole hentry (hs.isIdentity hidentity d (haxis hentry).1)
  · intro hslice d entry hne hentry
    exact hwhole hentry (hs.sliceDim0 hslice d (haxis hentry).1 hne)

theorem validate_spec (hbegins : w.begins.length = w.strides.length)
    (hends : w.ends.length = w.strides.length) (hshort : w.strides.length < 31)
    (hrank : inputShape.length < 31) (hknown : ∀ dim ∈ inputShape, 0 ≤ dim) :
    (∃ s, w.validate inputShape = .ok s ∧ FollowsPython w inputShape s ∧
        ¬ RefusesSlice w inputShape) ∨
      (∃ e, w.validate inputShape = .error e) ∧ RefusesSlice w inputShape := by
  rw [validate_eq hbegins hends hshort]
  by_cases hone : Several w.ellipsisMask
  · exact .inr ⟨⟨_, if_pos ((several_iff _).mpr hone)⟩, .inl hone⟩
  rw [if_neg (mt (several_iff _).mp hone)]
  have hshape : ∀ d, 0 ≤ inputShape.getD d 0 := by
    intro d
    rcases lt_or_ge d inputShape.length with hd | hd
    · rw [List.getD_eq_getElem _ _ hd]
      exact hknown _ (List.getElem_mem hd)
    · rw [List.getD_eq_default _ _ hd]
  obtain ⟨front, back, hr⟩ := exists_reads hshort hone
  rcases buildDenseSpec_spec hr (by omega : inputShape.length < 32) with
    ⟨dense, hbuilt, hdense, hle⟩ | ⟨⟨e, hbuilt⟩, hmany⟩
  · have hlength := hr.length_subscripts inputShape.length
    rw [Nat.add_sub_cancel' hle] at hlength
    have hwrong : ∀ d < inputShape.length, WrongAt dense inputShape d ↔
        ∃ subscript, (w.axes inputShape.length)[d]? = some (.given subscript) ∧
          subscript.Wrong (inputShape.getD d 0) := by
      intro d hd
      obtain ⟨entry, hentry, hsubscript⟩ := exists_axis hdense (hlength ▸ hd)
      have haxis : (w.axes inputShape.length)[d]? = some entry := hentry
      rw [WrongAt, wrong_iff_of_subscript hsubscript, haxis]
      simp
    rw [hbuilt]
    rcases foldlM_validateDim ⟨hdense.beginValid, hdense.endValid⟩ fun d _ => hshape d with
      ⟨s, hrun, hs, hright⟩ | ⟨⟨e, hrun⟩, d, hd, hbad⟩
    · refine .inl ⟨_, by rw [Except.bind, hrun]; rfl,
        followsPython_of_slicesTo hdense hlength hshape hs hright, ?_⟩
      rintro (hseveral | hmany | ⟨d, hd, hbad⟩)
      · exact hone hseveral
      · exact absurd hmany (not_lt.mpr hle)
      · exact hright d hd ((hwrong d hd).mpr hbad)
    · exact .inr ⟨⟨e, by rw [Except.bind, hrun]; rfl⟩, .inr (.inr ⟨d, hd, (hwrong d hd).mp hbad⟩)⟩
  · exact .inr ⟨⟨e, by rw [hbuilt]; rfl⟩, .inr (.inl hmany)⟩

end Operation

/-- The operation fails exactly if the ellipsis mask has two bits, more dimensions are indexed than
there are, or the subscript of a dimension is wrong. Otherwise it does what Python does. -/
theorem strided_slices_follow_python (hbegins : w.begins.length = w.strides.length)
    (hends : w.ends.length = w.strides.length) (hshort : w.strides.length < 31)
    (hrank : inputShape.length < 31) (hknown : ∀ dim ∈ inputShape, 0 ≤ dim) :
    ((∃ e, w.validate inputShape = .error e) ↔ RefusesSlice w inputShape) ∧
      ∀ s, w.validate inputShape = .ok s → FollowsPython w inputShape s := by
  rcases validate_spec hbegins hends hshort hrank hknown with
    ⟨s, hresult, hfollows, hright⟩ | ⟨⟨e, hresult⟩, hwrong⟩
  · refine ⟨⟨?_, fun hwrong => absurd hwrong hright⟩, ?_⟩
    · rintro ⟨e, herror⟩
      cases hresult.symm.trans herror
    · intro s' hresult'
      obtain rfl := Except.ok.inj (hresult.symm.trans hresult')
      exact hfollows
  · refine ⟨⟨fun _ => hwrong, fun _ => ⟨e, hresult⟩⟩, ?_⟩
    intro s' hresult'
    cases hresult.symm.trans hresult'

/-- The slice `[3:0:-2, ..., newaxis, -1]`. -/
def downwardsAndLast : WrittenSlice where
  begins := [3, 0, 0, -1]
  ends := [0, 0, 0, 0]
  strides := [-2, 1, 1, 1]
  beginMask := 0
  endMask := 0
  ellipsisMask := 0b0010
  newAxisMask := 0b0100
  shrinkAxisMask := 0b1000

theorem downwardsAndLast_follows_python :
    ((∃ e, downwardsAndLast.validate [5, 4, 3] = .error e) ↔
        RefusesSlice downwardsAndLast [5, 4, 3]) ∧
      ∀ s, downwardsAndLast.validate [5, 4, 3] = .ok s →
        FollowsPython downwardsAndLast [5, 4, 3] s :=
  strided_slices_follow_python _ _ rfl rfl (by decide) (by decide) (by decide)

/-- The stride of a new axis is not looked at, and a bit of the ellipsis mask counts also when there
is no item at its place. -/
theorem unused_strides_and_bits :
    let newAxis : WrittenSlice := ⟨[0], [0], [0], 0, 0, 0, 1, 0⟩
    let oneEllipsis : WrittenSlice := ⟨[0], [0], [1], 0, 0, 0b11, 0, 0⟩
    (0 ∈ newAxis.strides ∧ ∃ s, newAxis.validate [2] = .ok s) ∧
      oneEllipsis.items.countP SliceItem.isEllipsis = 1 ∧ oneEllipsis.indexed = 0 ∧
        0 ∉ oneEllipsis.strides ∧ oneEllipsis.shrinkAxisMask = 0 ∧
          ∃ e, oneEllipsis.validate [2] = .error e :=
  ⟨⟨by decide, _, rfl⟩, by decide, by decide, by decide, rfl, _, rfl⟩

end ContainerScheduler.Analysis
