/-
# Shapes that are broadcast together

`BCastList` takes the shapes of some tensors and computes the shape of the broadcast result, how
each input is reshaped and tiled to get it, and the axes its gradient is summed over. Neighbouring
axes along which the inputs are stretched alike are joined when `fewerDims` is set.

A `Vec` is an `int64` vector; products wrap around as in 64 bits. The size that the inputs agree on
along an axis is an `int` of 32 bits. There is at least one input.
-/

import Mathlib.Algebra.Order.Ring.Int
import Mathlib.Data.List.FinRange
import Mathlib.Data.List.ModifyLast

namespace ContainerScheduler.Broadcast

abbrev Vec := List ℤ

def int64 (value : ℤ) : ℤ := Int.bmod value (2 ^ 64)

/-- The conversion to `int`. -/
def int32 (value : ℤ) : ℤ := Int.bmod value (2 ^ 32)

/-- `vec.back() *= factor`. -/
def multiplyBack (vec : Vec) (factor : ℤ) : Vec :=
  vec.modifyLast fun back => int64 (back * factor)

/-! ## The positions of the batches -/

structure BatchIndices where
  outIndices : List ℤ
  numOutputElements : ℤ := 1
  numInputElements : ℤ := 1

/-- The inner loop: the entries from `start` on are read off the entries from the front on, which
the loop may itself have written. -/
def copyEntries (start : ℕ) (incr : ℤ) (count : ℕ) (outIndices : List ℤ) : List ℤ :=
  (List.range count).foldl
    (fun entries k => entries.set (start + k) (int64 (entries.getD k 0 + incr))) outIndices

def BatchIndices.addDim (reshape bcast : ℤ) (s : BatchIndices) : BatchIndices :=
  let dim := max reshape bcast
  let incr := if bcast > 1 then 0 else s.numInputElements
  { outIndices := copyEntries s.numOutputElements.toNat incr
      (int64 ((dim - 1) * s.numOutputElements)).toNat s.outIndices
    numOutputElements := int64 (s.numOutputElements * dim)
    numInputElements := int64 (s.numInputElements * reshape) }

/-- The position in the input for each position in the output. -/
def computeBatchIndices (outputBatchSize : ℤ) (reshape bcast : Vec) : List ℤ :=
  let empty : BatchIndices := { outIndices := List.replicate outputBatchSize.toNat 0 }
  ((reshape.zip bcast).foldr (fun dim s => s.addDim dim.1 dim.2) empty).outIndices

/-! ## The shapes -/

structure BCastList (N : ℕ) where
  valid : Bool := true
  broadcastingRequired : Bool := true
  reshape : Fin N → Vec := fun _ => []
  bcast : Fin N → Vec := fun _ => []
  result : Vec := []
  output : Vec := []
  gradReduceIdx : Fin N → Vec := fun _ => []
  outputBatchSize : ℤ := 1
  batchIndices : Fin N → List ℤ := fun _ => []

/-- What the inputs looked at so far have in common along one axis. -/
structure Agreement where
  outputDim : ℤ := -1
  outputDimSet : Bool := false
  noneIsOne : Bool := true

def Agreement.visit (s : Agreement) (size : ℤ) : Option Agreement :=
  if size = 1 then
    some { s with noneIsOne := false }
  else if s.outputDimSet = false ∨ size = s.outputDim then
    some { s with outputDim := int32 size, outputDimSet := true }
  else none

def agreement {N : ℕ} (sizes : Fin N → ℤ) : Option Agreement :=
  (List.ofFn sizes).foldlM Agreement.visit {}

/-- The size of the result along the axis. -/
def Agreement.size (s : Agreement) : ℤ := if s.outputDimSet then s.outputDim else 1

/-- The object under construction, whose vectors begin with the innermost axis. -/
structure Loop (N : ℕ) extends BCastList N where
  prevIsOne : Fin N → Bool := fun _ => false
  setOne : Bool := false

variable {N n : ℕ}

namespace Loop

variable (fewerDims : Bool) (axis : ℕ) (sizes : Fin N → ℤ) (agreed : Agreement) (s : Loop N)

def pushOutput : Loop N :=
  { s with
    output := s.output ++ [agreed.size]
    outputBatchSize := int64 (s.outputBatchSize * agreed.size) }

/-- All sizes are one. The previous pattern stays. -/
def skipDim : Loop N :=
  let s := if fewerDims then s else
    { s with
      bcast := fun i => s.bcast i ++ [1]
      reshape := fun i => s.reshape i ++ [1]
      result := s.result ++ [1] }
  { s with gradReduceIdx := fun i => s.gradReduceIdx i ++ [(axis : ℤ)] }

/-- The axes along which the gradient of an input is summed, after an axis of these sizes. -/
def reduceIdx (i : Fin N) : Vec :=
  if sizes i = 1 ∧ agreed.noneIsOne = false then s.gradReduceIdx i ++ [(axis : ℤ)]
  else s.gradReduceIdx i

/-- A run of the same broadcasting case as last time. -/
def mergeDim : Loop N :=
  { s with
    result := multiplyBack s.result agreed.outputDim
    reshape := fun i => multiplyBack (s.reshape i) (sizes i)
    bcast := fun i => multiplyBack (s.bcast i) (if sizes i = 1 then agreed.outputDim else 1)
    gradReduceIdx := s.reduceIdx axis sizes agreed }

def addDim : Loop N :=
  { s with
    result := s.result ++ [agreed.outputDim]
    reshape := fun i => s.reshape i ++ [sizes i]
    bcast := fun i => s.bcast i ++ [if sizes i = 1 then agreed.outputDim else 1]
    gradReduceIdx := s.reduceIdx axis sizes agreed }

/-- The rest of a round, when the inputs agree. -/
def acceptDim : Loop N :=
  let s := s.pushOutput agreed
  let currentIsOne : Fin N → Bool := fun i => sizes i = 1
  if agreed.outputDimSet = false then s.skipDim fewerDims axis
  else
    let s := if fewerDims ∧ (∀ i, currentIsOne i = s.prevIsOne i) ∧ s.setOne then
      s.mergeDim axis sizes agreed else s.addDim axis sizes agreed
    { s with setOne := true, prevIsOne := currentIsOne }

/-- One round of the loop over the axes. The error is the object at the early return. -/
def visitDim : Except (BCastList N) (Loop N) :=
  match agreement sizes with
  | none => .error { s.toBCastList with valid := false }
  | some agreed => .ok (s.acceptDim fewerDims axis sizes agreed)

/-- A result of no axes gets one, and all vectors are turned round. -/
def reversed : BCastList N :=
  let s := if s.result = [] then
    { s with
      result := [1]
      reshape := fun i => s.reshape i ++ [1]
      bcast := fun i => s.bcast i ++ [1] } else s
  { s.toBCastList with
    reshape := fun i => (s.reshape i).reverse
    bcast := fun i => (s.bcast i).reverse
    gradReduceIdx := fun i => (s.gradReduceIdx i).reverse
    result := s.result.reverse
    output := s.output.reverse }

variable {fewerDims axis sizes agreed s}

@[simp]
theorem acceptDim_valid : (s.acceptDim fewerDims axis sizes agreed).valid = s.valid := by
  simp only [acceptDim, skipDim]
  split_ifs <;> rfl

@[simp]
theorem acceptDim_broadcastingRequired :
    (s.acceptDim fewerDims axis sizes agreed).broadcastingRequired = s.broadcastingRequired := by
  simp only [acceptDim, skipDim]
  split_ifs <;> rfl

@[simp]
theorem acceptDim_batchIndices :
    (s.acceptDim fewerDims axis sizes agreed).batchIndices = s.batchIndices := by
  simp only [acceptDim, skipDim]
  split_ifs <;> rfl

@[simp]
theorem acceptDim_output : (s.acceptDim fewerDims axis sizes agreed).output =
    s.output ++ [agreed.size] := by
  simp only [acceptDim, skipDim]
  split_ifs <;> rfl

@[simp]
theorem acceptDim_outputBatchSize : (s.acceptDim fewerDims axis sizes agreed).outputBatchSize =
    int64 (s.outputBatchSize * agreed.size) := by
  simp only [acceptDim, skipDim]
  split_ifs <;> rfl

@[simp]
theorem reversed_valid : s.reversed.valid = s.valid := by
  simp only [reversed]
  split_ifs <;> rfl

@[simp]
theorem reversed_broadcastingRequired :
    s.reversed.broadcastingRequired = s.broadcastingRequired := by
  simp only [reversed]
  split_ifs <;> rfl

@[simp]
theorem reversed_batchIndices : s.reversed.batchIndices = s.batchIndices := by
  simp only [reversed]
  split_ifs <;> rfl

@[simp]
theorem reversed_output : s.reversed.output = s.output.reverse := by
  simp only [reversed]
  split_ifs <;> rfl

@[simp]
theorem reversed_outputBatchSize : s.reversed.outputBatchSize = s.outputBatchSize := by
  simp only [reversed]
  split_ifs <;> rfl

end Loop

def BCastList.addBatchIndices (returnFlattenedBatchIndices : Bool) (b : BCastList N) :
    BCastList N :=
  if returnFlattenedBatchIndices ∧ b.broadcastingRequired ∧ b.outputBatchSize > 0 then
    { b with batchIndices := fun i =>
        computeBatchIndices b.outputBatchSize (b.reshape i) (b.bcast i) }
  else b

/-- Fast path for common case of identical shapes. -/
def identicalShapes (shape : Vec) : BCastList N :=
  let elements := shape.foldl (fun elements dim => int64 (elements * dim)) 1
  { broadcastingRequired := false
    output := shape
    result := [elements]
    outputBatchSize := elements
    reshape := fun _ => [elements]
    bcast := fun _ => [1] }

section

variable (x : Fin (n + 1) → Vec)

def allEqual : Bool :=
  (List.finRange (n + 1)).foldl (fun equal i => if x i ≠ x 0 then false else equal) true

def largestRank : ℕ :=
  (List.finRange (n + 1)).foldl
    (fun largest i => if (x i).length > largest then (x i).length else largest) 0

/-- A shape turned round and extended by ones. -/
def alignedCopy (rank : ℕ) (shape : Vec) : Vec :=
  shape.reverse ++ List.replicate (rank - shape.length) 1

def bcastList (fewerDims returnFlattenedBatchIndices : Bool) : BCastList (n + 1) :=
  let rank := largestRank x
  if allEqual x ∧ fewerDims then
    identicalShapes (x 0)
  else
    let copy := fun i => alignedCopy rank (x i)
    let loop := (List.range rank).foldlM
      (fun s j => s.visitDim fewerDims (rank - 1 - j) fun i => (copy i).getD j 1)
      ({ broadcastingRequired := !allEqual x } : Loop (n + 1))
    match loop with
    | .error object => object
    | .ok s => s.reversed.addBatchIndices returnFlattenedBatchIndices

end

/-! ## The agreement of the sizes along an axis -/

section

variable {sizes : Fin N → ℤ} {agreed : Agreement}

/-- The input is the first whose size is not one. -/
def FirstSize (sizes : Fin N → ℤ) (i : Fin N) : Prop := (∀ l < i, sizes l = 1) ∧ sizes i ≠ 1

/-- After the first size other than one comes another that is not the first one's low 32 bits. -/
def Rejects (sizes : Fin N → ℤ) : Prop :=
  ∃ i k, FirstSize sizes i ∧ i < k ∧ sizes k ≠ 1 ∧ sizes k ≠ int32 (sizes i)

/-- What the loop over the inputs finds when it looks at all of them. -/
structure Agrees (sizes : Fin N → ℤ) (agreed : Agreement) : Prop where
  noneIsOne : agreed.noneIsOne = true ↔ ∀ i, sizes i ≠ 1
  ones : agreed.outputDimSet = false → ∀ i, sizes i = 1
  first : agreed.outputDimSet = true → ∃ i, FirstSize sizes i ∧
    agreed.outputDim = int32 (sizes i) ∧ ∀ k, i < k → sizes k ≠ 1 → sizes k = int32 (sizes i)

@[simp]
theorem int32_int32 (value : ℤ) : int32 (int32 value) = int32 value := Int.bmod_bmod

theorem int32_of_lt {value : ℤ} (hnonneg : 0 ≤ value) (hlt : value < 2 ^ 31) :
    int32 value = value := Int.bmod_eq_of_le (by omega) (by omega)

theorem firstSize_succ {sizes : Fin (N + 1) → ℤ} {i : Fin N} (hone : sizes 0 = 1) :
    FirstSize sizes i.succ ↔ FirstSize (fun k => sizes k.succ) i := by
  simp [FirstSize, Fin.forall_fin_succ, hone, Fin.succ_pos]

/-- Once a size is set, the other ones must be equal to it. -/
theorem foldlM_visit_of_set {values : List ℤ} {s : Agreement} (hset : s.outputDimSet = true)
    (hint : int32 s.outputDim = s.outputDim) :
    ((∃ size ∈ values, size ≠ 1 ∧ size ≠ s.outputDim) ∧
        values.foldlM Agreement.visit s = none) ∨
      ∃ b, (b = true ↔ s.noneIsOne = true ∧ ∀ size ∈ values, size ≠ 1) ∧
        (∀ size ∈ values, size ≠ 1 → size = s.outputDim) ∧
        values.foldlM Agreement.visit s = some { s with noneIsOne := b } := by
  induction values generalizing s with
  | nil => exact .inr ⟨s.noneIsOne, by simp, by simp, rfl⟩
  | cons size values ih =>
      by_cases hone : size = 1
      · have hvisit : s.visit size = some { s with noneIsOne := false } := if_pos hone
        rw [List.foldlM_cons, hvisit]
        rcases @ih { s with noneIsOne := false } hset hint with ⟨⟨d, hd, hrest⟩, hnone⟩ |
          ⟨b, hb, hall, hsome⟩
        · exact .inl ⟨⟨d, List.mem_cons_of_mem _ hd, hrest⟩, hnone⟩
        · refine .inr ⟨b, ?_, ?_, hsome⟩
          · simp [hb, hone]
          · simpa [hone] using hall
      · by_cases heq : size = s.outputDim
        · have hvisit : s.visit size = some s := by
            rw [Agreement.visit, if_neg hone, if_pos (.inr heq), heq, hint, ← hset]
          rw [List.foldlM_cons, hvisit]
          rcases ih hset hint with ⟨⟨d, hd, hrest⟩, hnone⟩ | ⟨b, hb, hall, hsome⟩
          · exact .inl ⟨⟨d, List.mem_cons_of_mem _ hd, hrest⟩, hnone⟩
          · refine .inr ⟨b, ?_, ?_, hsome⟩
            · simp [hb, hone]
            · simpa [heq] using hall
        · have hvisit : s.visit size = none := by
            rw [Agreement.visit, if_neg hone, if_neg (by simp [hset, heq])]
          refine .inl ⟨⟨size, List.mem_cons_self, hone, heq⟩, ?_⟩
          rw [List.foldlM_cons, hvisit]
          rfl

/-- The loop over the inputs, before it has met a size other than one. -/
theorem foldlM_visit_of_unset {sizes : Fin N → ℤ} {s : Agreement}
    (hunset : s.outputDimSet = false) :
    (Rejects sizes ∧ (List.ofFn sizes).foldlM Agreement.visit s = none) ∨
      ∃ agreed, (List.ofFn sizes).foldlM Agreement.visit s = some agreed ∧
        (agreed.noneIsOne = true ↔ s.noneIsOne = true ∧ ∀ i, sizes i ≠ 1) ∧
        (agreed.outputDimSet = false → ∀ i, sizes i = 1) ∧
        (agreed.outputDimSet = true → ∃ i, FirstSize sizes i ∧
          agreed.outputDim = int32 (sizes i) ∧
          ∀ k, i < k → sizes k ≠ 1 → sizes k = int32 (sizes i)) := by
  induction N generalizing s with
  | zero => exact .inr ⟨s, by simp, by simp, by simp, by simp [hunset]⟩
  | succ N ih =>
      rw [List.ofFn_succ, List.foldlM_cons]
      by_cases hone : sizes 0 = 1
      · have hvisit : s.visit (sizes 0) = some { s with noneIsOne := false } := if_pos hone
        rw [hvisit]
        rcases @ih (fun i => sizes i.succ) { s with noneIsOne := false } hunset with
          ⟨⟨i, k, hi, hik, hk⟩, hnone⟩ | ⟨agreed, hsome, hb, hones, hfirst⟩
        · exact .inl ⟨⟨i.succ, k.succ, (firstSize_succ hone).mpr hi,
            Fin.succ_lt_succ_iff.mpr hik, hk⟩, hnone⟩
        · refine .inr ⟨agreed, hsome, ?_, fun h => ?_, fun h => ?_⟩
          · simp [hb, Fin.forall_fin_succ, hone]
          · exact Fin.forall_fin_succ.mpr ⟨hone, hones h⟩
          · obtain ⟨i, hi, hdim, hrest⟩ := hfirst h
            refine ⟨i.succ, (firstSize_succ hone).mpr hi, hdim, ?_⟩
            exact Fin.forall_fin_succ.mpr
              ⟨by simp, fun k hk => hrest k (Fin.succ_lt_succ_iff.mp hk)⟩
      · have hvisit : s.visit (sizes 0) =
            some { s with outputDim := int32 (sizes 0), outputDimSet := true } := by
          rw [Agreement.visit, if_neg hone, if_pos (.inl hunset)]
        have hzero : FirstSize sizes 0 := ⟨by simp, hone⟩
        rw [hvisit]
        rcases @foldlM_visit_of_set (List.ofFn fun i => sizes i.succ)
            { s with outputDim := int32 (sizes 0), outputDimSet := true } rfl (int32_int32 _) with
          ⟨⟨d, hd, hdone, hne⟩, hnone⟩ | ⟨b, hb, hall, hsome⟩
        · obtain ⟨k, rfl⟩ := (List.mem_ofFn' _ _).mp hd
          exact .inl ⟨⟨0, k.succ, hzero, Fin.succ_pos k, hdone, hne⟩, hnone⟩
        · rw [List.forall_mem_ofFn_iff] at hb hall
          refine .inr ⟨_, hsome, ?_, by simp, fun _ => ⟨0, hzero, rfl, ?_⟩⟩
          · simp [hb, Fin.forall_fin_succ, hone]
          · exact Fin.forall_fin_succ.mpr ⟨by simp, fun k _ => hall k⟩

/-- The loop over the inputs fails exactly when it rejects a size. -/
theorem agreement_spec (sizes : Fin N → ℤ) :
    (Rejects sizes ∧ agreement sizes = none) ∨
      ∃ agreed, agreement sizes = some agreed ∧ Agrees sizes agreed := by
  rcases @foldlM_visit_of_unset N sizes {} rfl with hrejects | ⟨agreed, hsome, hb, hones, hfirst⟩
  · exact .inl hrejects
  · exact .inr ⟨agreed, hsome, by simpa using hb, hones, hfirst⟩

theorem Agrees.not_rejects (hagrees : Agrees sizes agreed) : ¬ Rejects sizes := by
  rintro ⟨i, k, hi, hik, hk, hne⟩
  cases hset : agreed.outputDimSet with
  | false => exact hk (hagrees.ones hset k)
  | true =>
      obtain ⟨i', hi', -, hrest⟩ := hagrees.first hset
      have hsame : i' = i := by
        rcases lt_trichotomy i' i with hlt | heq | hgt
        · exact absurd (hi.1 i' hlt) hi'.2
        · exact heq
        · exact absurd (hi'.1 i hgt) hi.2
      subst hsame
      exact hne (hrest k hik hk)

theorem agreement_eq_none : agreement sizes = none ↔ Rejects sizes := by
  rcases agreement_spec sizes with ⟨hrejects, hnone⟩ | ⟨agreed, hsome, hagrees⟩
  · exact iff_of_true hnone hrejects
  · exact iff_of_false (by simp [hsome]) hagrees.not_rejects

end

end ContainerScheduler.Broadcast
