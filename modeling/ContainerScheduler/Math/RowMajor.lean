/-
# Row-major positions

The elements of an array of shape `dims` stand in a row, the last axis varying fastest.
`coordinates` and `flatIndex` lead from a position to its coordinates and back. Two ways to fill a
large array from a small one are compared: stretching the axes of size one, and tiling. Axes that
are stretched alike may be joined to one axis first.
-/

import Mathlib.Algebra.BigOperators.Group.List.Basic

namespace ContainerScheduler.Math.RowMajor

/-- The coordinates of a position. -/
def coordinates : List ℕ → ℕ → List ℕ
  | [], _ => []
  | dim :: dims, flat => flat / dims.prod % dim :: coordinates dims flat

/-- The position of some coordinates. -/
def flatIndex : List ℕ → List ℕ → ℕ
  | _ :: dims, c :: cs => c * dims.prod + flatIndex dims cs
  | _, _ => 0

/-- The position in an array of shape `sizes` that is seen at a position of an array of shape
`output`: an axis of size one has the same element at every coordinate. -/
def stretchIndex (sizes output : List ℕ) (flat : ℕ) : ℕ :=
  flatIndex sizes
    (List.zipWith (fun size c => if size = 1 then 0 else c) sizes (coordinates output flat))

/-- The position in an array of shape `sizes` that is seen when the array is repeated `times` along
each axis. -/
def tileIndex (sizes times : List ℕ) (flat : ℕ) : ℕ :=
  flatIndex sizes
    (List.zipWith (fun size c => c % size) sizes
      (coordinates (List.zipWith (· * ·) sizes times) flat))

variable {d o r t flat : ℕ} {sizes output times : List ℕ}

@[simp]
theorem stretchIndex_nil : stretchIndex [] output flat = 0 := by
  simp [stretchIndex, flatIndex]

@[simp]
theorem tileIndex_nil : tileIndex [] times flat = 0 := by
  simp [tileIndex, flatIndex]

@[simp]
theorem tileIndex_cons :
    tileIndex (r :: sizes) (t :: times) flat =
      flat / (List.zipWith (· * ·) sizes times).prod % (r * t) % r * sizes.prod +
        tileIndex sizes times flat := rfl

/-- What is seen repeats behind the end of the array. -/
theorem tileIndex_add_mul (k : ℕ) :
    tileIndex sizes times (flat + k * (List.zipWith (· * ·) sizes times).prod) =
      tileIndex sizes times flat := by
  induction sizes generalizing times k with
  | nil => simp
  | cons r sizes ih =>
      cases times with
      | nil => simp [tileIndex, coordinates, flatIndex]
      | cons t times =>
          have hprod : k * (List.zipWith (· * ·) (r :: sizes) (t :: times)).prod =
              k * (r * t) * (List.zipWith (· * ·) sizes times).prod := by
            simp only [List.zipWith_cons_cons, List.prod_cons, Nat.mul_assoc]
          rw [hprod, tileIndex_cons, tileIndex_cons, ih]
          congr 2
          rcases Nat.eq_zero_or_pos (List.zipWith (· * ·) sizes times).prod with hzero | hpos
          · rw [hzero, Nat.mul_zero, Nat.add_zero]
          · rw [Nat.add_mul_div_right _ _ hpos, Nat.add_mul_mod_self_right]

theorem tileIndex_lt (hpos : ∀ r ∈ sizes, 0 < r) : tileIndex sizes times flat < sizes.prod := by
  induction sizes generalizing times with
  | nil => simp
  | cons r sizes ih =>
      obtain ⟨hr, hsizes⟩ := List.forall_mem_cons.mp hpos
      cases times with
      | nil =>
          have := List.prod_pos_iff_forall_pos_nat.mpr hpos
          simpa [tileIndex, coordinates, flatIndex] using this
      | cons t times =>
          have hrest := @ih times hsizes
          have hhead : flat / (List.zipWith (· * ·) sizes times).prod % (r * t) % r + 1 ≤ r :=
            Nat.mod_lt _ hr
          rw [tileIndex_cons, List.prod_cons]
          calc _ < _ % (r * t) % r * sizes.prod + sizes.prod := Nat.add_lt_add_left hrest _
            _ = (_ % (r * t) % r + 1) * sizes.prod := (Nat.succ_mul _ _).symm
            _ ≤ r * sizes.prod := Nat.mul_le_mul_right _ hhead

/-! ## Axes that are joined

An axis is given by its size and the size it is stretched to. -/

/-- What an axis is repeated. -/
def repeats (axis : ℕ × ℕ) : ℕ := if axis.1 = 1 then axis.2 else 1

/-- The axes are stretched alike: each keeps its size, or each has size one. -/
def Alike (axes : List (ℕ × ℕ)) : Prop :=
  (∀ axis ∈ axes, axis.1 = axis.2) ∨ ∀ axis ∈ axes, axis.1 = 1

/-- The position that is seen when each axis is stretched. -/
def axesIndex (axes : List (ℕ × ℕ)) (flat : ℕ) : ℕ :=
  stretchIndex (axes.map Prod.fst) (axes.map Prod.snd) flat

variable {axis : ℕ × ℕ} {axes axes' : List (ℕ × ℕ)} {groups : List (List (ℕ × ℕ))}

@[simp]
theorem axesIndex_nil : axesIndex [] flat = 0 := stretchIndex_nil

@[simp]
theorem axesIndex_cons :
    axesIndex (axis :: axes) flat =
      (if axis.1 = 1 then 0 else flat / (axes.map Prod.snd).prod % axis.2) *
        (axes.map Prod.fst).prod + axesIndex axes flat := rfl

/-- The axes in front see the position without the axes behind them. -/
theorem axesIndex_append :
    axesIndex (axes ++ axes') flat =
      axesIndex axes (flat / (axes'.map Prod.snd).prod) * (axes'.map Prod.fst).prod +
        axesIndex axes' flat := by
  induction axes with
  | nil => simp
  | cons axis axes ih =>
      have hdiv : flat / ((axes.map Prod.snd).prod * (axes'.map Prod.snd).prod) =
          flat / (axes'.map Prod.snd).prod / (axes.map Prod.snd).prod := by
        rw [Nat.mul_comm, Nat.div_div_eq_div_mul]
      simp only [List.cons_append, axesIndex_cons, ih, List.map_append, List.prod_append, hdiv,
        Nat.add_mul, Nat.mul_assoc, Nat.add_assoc]

/-- Factors that are one do not count. -/
theorem prod_map_filter {α : Type*} {f : α → ℕ} {keep : α → Bool} {l : List α}
    (hdropped : ∀ a ∈ l, keep a = false → f a = 1) :
    ((l.filter keep).map f).prod = (l.map f).prod := by
  induction l with
  | nil => rfl
  | cons a l ih =>
      have hrest := ih fun b hb => hdropped b (List.mem_cons_of_mem _ hb)
      cases hkeep : keep a with
      | true => simp [hkeep, hrest]
      | false => simp [hkeep, hrest, hdropped a List.mem_cons_self hkeep]

/-- Axes of size one that are not stretched do not count. -/
theorem axesIndex_map_filter {α : Type*} {f : α → ℕ × ℕ} {keep : α → Bool} {l : List α}
    (hdropped : ∀ a ∈ l, keep a = false → f a = (1, 1)) :
    axesIndex ((l.filter keep).map f) flat = axesIndex (l.map f) flat := by
  induction l with
  | nil => rfl
  | cons a l ih =>
      have hrest := ih fun b hb => hdropped b (List.mem_cons_of_mem _ hb)
      cases hkeep : keep a with
      | false => simp [hkeep, hrest, hdropped a List.mem_cons_self hkeep]
      | true =>
          have hprod : ∀ g : ℕ × ℕ → ℕ, g (1, 1) = 1 →
              (((l.filter keep).map f).map g).prod = ((l.map f).map g).prod := by
            intro g hg
            rw [List.map_map, List.map_map, prod_map_filter]
            exact fun b hb hfalse => by
              rw [Function.comp_apply, hdropped b (List.mem_cons_of_mem _ hb) hfalse, hg]
          simp only [List.filter_cons_of_pos hkeep, List.map_cons, axesIndex_cons, hrest,
            hprod Prod.fst rfl, hprod Prod.snd rfl]

theorem axesIndex_of_kept (hkept : ∀ axis ∈ axes, axis.1 = axis.2) :
    axesIndex axes flat = flat % (axes.map Prod.snd).prod := by
  induction axes with
  | nil => simp [Nat.mod_one]
  | cons axis axes ih =>
      have haxis := hkept axis List.mem_cons_self
      have hrest := fun a ha => hkept a (List.mem_cons_of_mem _ ha)
      have hprod : (axes.map Prod.fst).prod = (axes.map Prod.snd).prod := by
        rw [List.map_congr_left hrest]
      have hone : (if axis.1 = 1 then 0 else flat / (axes.map Prod.snd).prod % axis.2) =
          flat / (axes.map Prod.snd).prod % axis.2 := by
        split_ifs with h
        · rw [← haxis, h, Nat.mod_one]
        · rfl
      rw [axesIndex_cons, ih hrest, hone, hprod, List.map_cons, List.prod_cons,
        Nat.mul_comm axis.2, Nat.mod_mul, Nat.mul_comm, Nat.add_comm]

theorem axesIndex_of_ones (hones : ∀ axis ∈ axes, axis.1 = 1) : axesIndex axes flat = 0 := by
  induction axes with
  | nil => simp
  | cons axis axes ih =>
      simp [hones axis List.mem_cons_self, ih fun a ha => hones a (List.mem_cons_of_mem _ ha)]

theorem prod_of_kept (hkept : ∀ axis ∈ axes, axis.1 = axis.2) :
    (axes.map Prod.fst).prod = (axes.map Prod.snd).prod ∧ (axes.map repeats).prod = 1 := by
  refine ⟨by rw [List.map_congr_left hkept], List.prod_eq_one ?_⟩
  simp only [List.mem_map]
  rintro _ ⟨axis, haxis, rfl⟩
  rw [repeats]
  split_ifs with h
  · rw [← hkept axis haxis, h]
  · rfl

theorem prod_of_ones (hones : ∀ axis ∈ axes, axis.1 = 1) :
    (axes.map Prod.fst).prod = 1 ∧ (axes.map repeats).prod = (axes.map Prod.snd).prod := by
  constructor
  · apply List.prod_eq_one
    simp only [List.mem_map]
    rintro _ ⟨axis, haxis, rfl⟩
    exact hones axis haxis
  · have hrepeats : ∀ axis ∈ axes, repeats axis = axis.2 :=
      fun axis haxis => if_pos (hones axis haxis)
    rw [List.map_congr_left hrepeats]

/-- Joined axes of one kind are either kept or repeated, so their sizes fit together. -/
theorem prod_mul_repeats (halike : Alike axes) :
    (axes.map Prod.fst).prod * (axes.map repeats).prod = (axes.map Prod.snd).prod := by
  rcases halike with hkept | hones
  · rw [(prod_of_kept hkept).1, (prod_of_kept hkept).2, Nat.mul_one]
  · rw [(prod_of_ones hones).1, (prod_of_ones hones).2, Nat.one_mul]

/-- Tiling the array with joined axes is stretching the array with all of them. -/
theorem tileIndex_groups (halike : ∀ axes ∈ groups, Alike axes) :
    tileIndex (groups.map fun axes => (axes.map Prod.fst).prod)
        (groups.map fun axes => (axes.map repeats).prod) flat =
      axesIndex groups.flatten flat := by
  induction groups with
  | nil => simp
  | cons axes groups ih =>
      have hrest := fun g hg => halike g (List.mem_cons_of_mem _ hg)
      have hsizes : (groups.map fun axes => (axes.map Prod.fst).prod).prod =
          (groups.flatten.map Prod.fst).prod := by
        rw [List.map_flatten, List.prod_flatten, List.map_map]
        rfl
      have hresult : (List.zipWith (· * ·) (groups.map fun axes => (axes.map Prod.fst).prod)
          (groups.map fun axes => (axes.map repeats).prod)).prod =
          (groups.flatten.map Prod.snd).prod := by
        rw [List.map_flatten, List.prod_flatten, List.map_map, List.zipWith_map_left,
          List.zipWith_map_right, List.zipWith_self]
        congr 1
        exact List.map_congr_left fun g hg => prod_mul_repeats (hrest g hg)
      simp only [List.map_cons, tileIndex_cons, List.flatten_cons, axesIndex_append, hsizes,
        hresult, ih hrest]
      congr 2
      rcases halike axes List.mem_cons_self with hkept | hones
      · obtain ⟨hfst, hone⟩ := prod_of_kept hkept
        rw [axesIndex_of_kept hkept, hone, Nat.mul_one, hfst, Nat.mod_mod]
      · rw [axesIndex_of_ones hones, (prod_of_ones hones).1, Nat.mod_one]

end ContainerScheduler.Math.RowMajor
