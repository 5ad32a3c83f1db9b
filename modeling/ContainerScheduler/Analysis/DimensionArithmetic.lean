/-
# Arithmetic of dimensions

An unknown dimension stands for every size. An operation is exact if it gives the exact result of
known sizes, refuses what is no size, and of unknown sizes says only what holds for all of them.
-/

import ContainerScheduler.Shapes.ShapeInference

namespace ContainerScheduler.Analysis

open Shapes
open Shapes.ShapeInference

def IsSize (size : ℤ) : Prop := 0 ≤ size ∧ size < 2 ^ 63

def StandsForSize (dim : Dimension) (size : ℤ) : Prop :=
  IsSize size ∧ (dim.value = kUnknownDim ∨ dim.value = size)

/-- The result of an operation on sizes that gives a number, or none. -/
structure ExactArithmetic (exact : ℤ → ℤ → Option ℤ) (first second : Dimension)
    (result : Except DimensionError Dimension) : Prop where
  refused : first.value ≠ kUnknownDim → second.value ≠ kUnknownDim →
    (∀ size, exact first.value second.value = some size → ¬ IsSize size) →
      ∃ error, result = .error error
  known : first.value ≠ kUnknownDim → second.value ≠ kUnknownDim →
    ∀ size, exact first.value second.value = some size → IsSize size →
      ∃ dim, result = .ok dim ∧ dim.value = size
  unknown : first.value = kUnknownDim ∨ second.value = kUnknownDim →
    ∃ dim, result = .ok dim ∧ (dim.value = kUnknownDim ∨
      ∀ a b, StandsForSize first a → StandsForSize second b → exact a b = some dim.value)

def exactQuotient (evenlyDivisible : Bool) (dividend divisor : ℤ) : Option ℤ :=
  if divisor = 0 ∨ evenlyDivisible ∧ dividend % divisor ≠ 0 then none
  else some (dividend / divisor)

theorem StandsForSize.eq_value {dim : Dimension} {size : ℤ} (hstands : StandsForSize dim size)
    (hknown : dim.value ≠ kUnknownDim) : size = dim.value :=
  (hstands.2.resolve_left hknown).symm

theorem isSize_value {dim : Dimension} (hknown : dim.value ≠ kUnknownDim) : IsSize dim.value :=
  dim.known hknown

namespace ExactArithmetic

variable {exact : ℤ → ℤ → Option ℤ} {first second dim : Dimension}

theorem of_ok
    (hknown : first.value ≠ kUnknownDim → second.value ≠ kUnknownDim →
      dim.value ≠ kUnknownDim ∧ exact first.value second.value = some dim.value)
    (hunknown : first.value = kUnknownDim ∨ second.value = kUnknownDim →
      dim.value = kUnknownDim ∨
        ∀ a b, StandsForSize first a → StandsForSize second b → exact a b = some dim.value) :
    ExactArithmetic exact first second (.ok dim) := by
  refine ⟨fun hfirst hsecond hnone => ?_, fun hfirst hsecond size hsize _ => ?_, fun hsome =>
    ⟨dim, rfl, hunknown hsome⟩⟩
  · obtain ⟨hdim, heq⟩ := hknown hfirst hsecond
    exact absurd (isSize_value hdim) (hnone _ heq)
  · obtain ⟨-, heq⟩ := hknown hfirst hsecond
    exact ⟨dim, rfl, Option.some.inj (heq.symm.trans hsize)⟩

theorem of_error {error : DimensionError} (hfirst : first.value ≠ kUnknownDim)
    (hsecond : second.value ≠ kUnknownDim)
    (hwrong : ∀ size, exact first.value second.value = some size → ¬ IsSize size) :
    ExactArithmetic exact first second (.error error) :=
  ⟨fun _ _ _ => ⟨error, rfl⟩, fun _ _ size hsize hright => absurd hright (hwrong size hsize),
    fun hsome => hsome.elim (absurd · hfirst) (absurd · hsecond)⟩

theorem of_unknown (hsome : first.value = kUnknownDim ∨ second.value = kUnknownDim) :
    ExactArithmetic exact first second (.ok unknownDim) :=
  of_ok (fun hfirst hsecond => hsome.elim (absurd · hfirst) (absurd · hsecond))
    fun _ => .inl rfl

/-- Of sizes that are known. -/
theorem of_known (hfirst : first.value ≠ kUnknownDim) (hsecond : second.value ≠ kUnknownDim)
    (hdim : dim.value ≠ kUnknownDim) (heq : exact first.value second.value = some dim.value) :
    ExactArithmetic exact first second (.ok dim) :=
  of_ok (fun _ _ => ⟨hdim, heq⟩) fun hsome => hsome.elim (absurd · hfirst) (absurd · hsecond)

section Short

variable (hfirst : first.value ≠ kUnknownDim) (hsecond : second.value ≠ kUnknownDim)

include hfirst

/-- The first dimension leaves every second one as it is. -/
theorem neutral_left (heq : ∀ b, exact first.value b = some b) :
    ExactArithmetic exact first second (.ok second) := by
  refine of_ok (fun _ hsecond => ⟨hsecond, heq _⟩) fun _ => or_iff_not_imp_left.mpr ?_
  intro hsecond a b ha hb
  rw [ha.eq_value hfirst, hb.eq_value hsecond]
  exact heq _

/-- The result is the first dimension, whatever the second one is. -/
theorem absorbing_left (heq : ∀ b, IsSize b → exact first.value b = some first.value) :
    ExactArithmetic exact first second (.ok first) := by
  refine of_ok (fun _ hsecond => ⟨hfirst, heq _ (isSize_value hsecond)⟩) fun _ => .inr ?_
  intro a b ha hb
  rw [ha.eq_value hfirst]
  exact heq b hb.1

omit hfirst
include hsecond

theorem neutral_right (heq : ∀ a, exact a second.value = some a) :
    ExactArithmetic exact first second (.ok first) := by
  refine of_ok (fun hfirst _ => ⟨hfirst, heq _⟩) fun _ => or_iff_not_imp_left.mpr ?_
  intro hfirst a b ha hb
  rw [ha.eq_value hfirst, hb.eq_value hsecond]
  exact heq _

theorem absorbing_right (heq : ∀ a, IsSize a → exact a second.value = some second.value) :
    ExactArithmetic exact first second (.ok second) := by
  refine of_ok (fun hfirst _ => ⟨hsecond, heq _ (isSize_value hfirst)⟩) fun _ => .inr ?_
  intro a b ha hb
  rw [hb.eq_value hsecond]
  exact heq a ha.1

end Short

end ExactArithmetic

section Operations

variable {first : Dimension} {second : DimensionOrConstant}

theorem ne_unknown {value number : ℤ} (heq : value = number) (hnumber : 0 ≤ number) :
    value ≠ kUnknownDim := by
  rw [kUnknownDim]
  omega

theorem asInt64_of_isSize {number : ℤ} (hsize : IsSize number) : asInt64 number = number := by
  obtain ⟨hlow, hhigh⟩ := hsize
  exact Int.bmod_eq_of_le (by omega) (by omega)

theorem asInt64_neg_iff (number : ℤ) : asInt64 number < 0 ↔ 2 ^ 63 ≤ number % 2 ^ 64 := by
  have hdef : asInt64 number =
      if number % 2 ^ 64 < 2 ^ 63 then number % 2 ^ 64 else number % 2 ^ 64 - 2 ^ 64 :=
    Int.bmod_def number (2 ^ 64)
  have hlow := Int.emod_nonneg number (show (2 : ℤ) ^ 64 ≠ 0 by decide)
  have hhigh := Int.emod_lt_of_pos number (show (0 : ℤ) < 2 ^ 64 by decide)
  rw [hdef]
  split_ifs <;> omega

theorem add_exact (first : Dimension) (second : DimensionOrConstant) :
    ExactArithmetic (fun a b => some (a + b)) first second.makeDim (add first second) := by
  rw [add]
  split_ifs with hzero hzero' hunknown
  · refine .neutral_left (ne_unknown hzero le_rfl) fun b => ?_
    rw [hzero, zero_add]
  · refine .neutral_right (ne_unknown hzero' le_rfl) fun a => ?_
    rw [show second.makeDim.value = 0 from hzero', add_zero]
  · exact .of_unknown hunknown
  · obtain ⟨hfirst, hsecond⟩ := not_or.mp hunknown
    obtain ⟨hlow, hhigh⟩ := isSize_value hfirst
    obtain ⟨hlow', hhigh'⟩ : IsSize second.value := isSize_value hsecond
    have hneg := asInt64_neg_iff (first.value + second.value)
    dsimp only
    split_ifs with hsum
    · refine .of_error hfirst hsecond fun size hsize hright => ?_
      obtain rfl : first.value + second.value = size := Option.some.inj hsize
      rw [asInt64_of_isSize hright] at hsum
      exact absurd hright.1 (not_le.mpr hsum)
    · have hright : IsSize (first.value + second.value) := ⟨by omega, by omega⟩
      refine .of_known hfirst hsecond ?_ ?_
      · exact ne_unknown rfl (not_lt.mp hsum)
      · exact congrArg some (asInt64_of_isSize hright).symm

theorem subtract_exact (first : Dimension) (second : DimensionOrConstant) :
    ExactArithmetic (fun a b => some (a - b)) first second.makeDim (subtract first second) := by
  rw [subtract]
  split_ifs with hzero hunknown hless
  · refine .neutral_right (ne_unknown hzero le_rfl) fun a => ?_
    rw [show second.makeDim.value = 0 from hzero, sub_zero]
  · exact .of_unknown hunknown
  · obtain ⟨hfirst, hsecond⟩ := not_or.mp hunknown
    refine .of_error hfirst hsecond fun size hsize hright => ?_
    obtain rfl : first.value - second.value = size := Option.some.inj hsize
    exact absurd hright.1 (not_le.mpr (sub_neg.mpr hless))
  · obtain ⟨hfirst, hsecond⟩ := not_or.mp hunknown
    exact .of_known hfirst hsecond (ne_unknown rfl (sub_nonneg.mpr (not_lt.mp hless))) rfl

theorem divide_exact (first : Dimension) {second : DimensionOrConstant} (evenlyDivisible : Bool)
    (hsecond : ∀ val, second = .constant val → val.value ≠ kUnknownDim) :
    ExactArithmetic (exactQuotient evenlyDivisible) first second.makeDim
      (divide first second evenlyDivisible) := by
  rw [divide]
  split_ifs with hone hunknown hpositive heven
  · refine .neutral_right (ne_unknown hone zero_le_one) fun a => ?_
    rw [show second.makeDim.value = 1 from hone, exactQuotient, Int.emod_one, Int.ediv_one, if_neg]
    simp
  · exact .of_unknown (hunknown.imp_right And.right)
  all_goals
    obtain ⟨hfirst, hset⟩ := not_or.mp hunknown
    have hknown : second.value ≠ kUnknownDim := by
      cases second with
      | handle dim => exact fun heq => hset ⟨rfl, heq⟩
      | constant val => exact hsecond val rfl
    have hlow := (isSize_value hfirst).1
    have hlow' : 0 ≤ second.value := (isSize_value hknown).1
  · refine .of_error hfirst hknown fun size hsize _ => ?_
    rw [exactQuotient, if_pos (.inl (le_antisymm hpositive hlow'))] at hsize
    cases hsize
  · refine .of_error hfirst hknown fun size hsize _ => ?_
    rw [Int.tmod_eq_emod_of_nonneg hlow] at heven
    rw [exactQuotient, if_pos (.inr heven)] at hsize
    cases hsize
  · rw [Int.tmod_eq_emod_of_nonneg hlow] at heven
    have hright : exactQuotient evenlyDivisible first.value second.value =
        some (first.value.tdiv second.value) := by
      rw [exactQuotient, if_neg (not_or.mpr ⟨fun heq => hpositive heq.le, heven⟩),
        Int.tdiv_eq_ediv_of_nonneg hlow]
    refine .of_known hfirst hknown ?_ hright
    exact ne_unknown rfl (tdiv_valid (isSize_value hfirst) (not_le.mp hpositive)).1

theorem min_exact (first : Dimension) (second : DimensionOrConstant) :
    ExactArithmetic (fun a b => some (Min.min a b)) first second.makeDim
      (ShapeInference.min first second) := by
  rw [ShapeInference.min]
  split_ifs with hzero hzero' hunknown hle
  · refine .absorbing_left (ne_unknown hzero le_rfl) fun b hb => ?_
    rw [hzero, min_eq_left hb.1]
  · refine .absorbing_right (ne_unknown hzero' le_rfl) fun a ha => ?_
    rw [show second.makeDim.value = 0 from hzero', min_eq_right ha.1]
  · exact .of_unknown hunknown
  · obtain ⟨hfirst, hsecond⟩ := not_or.mp hunknown
    exact .of_known hfirst hsecond hfirst (congrArg some (min_eq_left hle))
  · obtain ⟨hfirst, hsecond⟩ := not_or.mp hunknown
    exact .of_known hfirst hsecond hsecond (congrArg some (min_eq_right (not_le.mp hle).le))

theorem max_exact (first : Dimension) (second : DimensionOrConstant) :
    ExactArithmetic (fun a b => some (Max.max a b)) first second.makeDim
      (ShapeInference.max first second) := by
  rw [ShapeInference.max]
  split_ifs with hunknown hge
  · exact .of_unknown hunknown
  · obtain ⟨hfirst, hsecond⟩ := not_or.mp hunknown
    exact .of_known hfirst hsecond hfirst (congrArg some (max_eq_left hge))
  · obtain ⟨hfirst, hsecond⟩ := not_or.mp hunknown
    exact .of_known hfirst hsecond hsecond (congrArg some (max_eq_right (not_le.mp hge).le))

/-- The product is no size, but its lower 64 bits are. -/
def WrapsToSize (first second : ℤ) : Prop :=
  first ≠ kUnknownDim ∧ second ≠ kUnknownDim ∧ 2 ^ 63 ≤ first * second ∧
    first * second % 2 ^ 64 < 2 ^ 63

instance (first second : ℤ) : Decidable (WrapsToSize first second) :=
  inferInstanceAs (Decidable (_ ∧ _))

theorem multiply_exact_iff (first : Dimension) (second : DimensionOrConstant) :
    ExactArithmetic (fun a b => some (a * b)) first second.makeDim (multiply first second) ↔
      ¬ WrapsToSize first.value second.value := by
  have hsmall : first.value = 0 ∨ second.value = 0 ∨ first.value = 1 ∨ second.value = 1 →
      ¬ WrapsToSize first.value second.value := by
    rintro hone ⟨hfirst, hsecond, hbig, -⟩
    have hhigh := (isSize_value hfirst).2
    have hhigh' : second.value < 2 ^ 63 := (isSize_value hsecond).2
    rcases hone with heq | heq | heq | heq
    · rw [heq, zero_mul] at hbig
      exact absurd hbig (by decide)
    · rw [heq, mul_zero] at hbig
      exact absurd hbig (by decide)
    · rw [heq, one_mul] at hbig
      exact absurd hhigh' (not_lt.mpr hbig)
    · rw [heq, mul_one] at hbig
      exact absurd hhigh (not_lt.mpr hbig)
  rw [multiply]
  split_ifs with hzero hzero' hone hone' hunknown
  · refine iff_of_true (.absorbing_left (ne_unknown hzero le_rfl) fun b _ => ?_)
      (hsmall (.inl hzero))
    rw [hzero, zero_mul]
  · refine iff_of_true (.absorbing_right (ne_unknown hzero' le_rfl) fun a _ => ?_)
      (hsmall (.inr (.inl hzero')))
    rw [show second.makeDim.value = 0 from hzero', mul_zero]
  · refine iff_of_true (.neutral_left (ne_unknown hone zero_le_one) fun b => ?_)
      (hsmall (.inr (.inr (.inl hone))))
    rw [hone, one_mul]
  · refine iff_of_true (.neutral_right (ne_unknown hone' zero_le_one) fun a => ?_)
      (hsmall (.inr (.inr (.inr hone'))))
    rw [show second.makeDim.value = 1 from hone', mul_one]
  · exact iff_of_true (.of_unknown hunknown) fun hwraps =>
      hunknown.elim hwraps.1 hwraps.2.1
  · obtain ⟨hfirst, hsecond⟩ := not_or.mp hunknown
    have hnonneg : 0 ≤ first.value * second.value :=
      mul_nonneg (isSize_value hfirst).1 (isSize_value hsecond).1
    have hneg := asInt64_neg_iff (first.value * second.value)
    dsimp only
    split_ifs with hproduct
    · refine iff_of_true (.of_error hfirst hsecond fun size hsize hright => ?_) ?_
      · obtain rfl : first.value * second.value = size := Option.some.inj hsize
        rw [asInt64_of_isSize hright] at hproduct
        exact absurd hright.1 (not_le.mpr hproduct)
      · exact fun hwraps => absurd (hneg.mp hproduct) (not_le.mpr hwraps.2.2.2)
    · constructor
      · rintro hexact ⟨-, -, hbig, -⟩
        obtain ⟨error, herror⟩ := hexact.refused hfirst hsecond fun size hsize hright => by
          obtain rfl : first.value * second.value = size := Option.some.inj hsize
          exact absurd hright.2 (not_lt.mpr hbig)
        cases herror
      · intro hwraps
        have hright : IsSize (first.value * second.value) := by
          refine ⟨hnonneg, not_le.mp fun hbig => hwraps ⟨hfirst, hsecond, hbig, ?_⟩⟩
          exact not_le.mp (mt hneg.mpr hproduct)
        refine .of_known hfirst hsecond ?_ ?_
        · exact ne_unknown rfl (not_lt.mp hproduct)
        · exact congrArg some (asInt64_of_isSize hright).symm

/-- All operations on a dimension and a dimension or constant. -/
structure ExactOperations (first : Dimension) (second : DimensionOrConstant) : Prop where
  add : ExactArithmetic (fun a b => some (a + b)) first second.makeDim (add first second)
  subtract : ExactArithmetic (fun a b => some (a - b)) first second.makeDim (subtract first second)
  multiply : ExactArithmetic (fun a b => some (a * b)) first second.makeDim (multiply first second)
  divide : ∀ evenlyDivisible, ExactArithmetic (exactQuotient evenlyDivisible) first second.makeDim
    (divide first second evenlyDivisible)
  min : ExactArithmetic (fun a b => some (Min.min a b)) first second.makeDim
    (ShapeInference.min first second)
  max : ExactArithmetic (fun a b => some (Max.max a b)) first second.makeDim
    (ShapeInference.max first second)

/-- **Arithmetic of dimensions** is exact, unless a product wraps to a size. -/
theorem operations_exact_iff
    (hsecond : ∀ val, second = .constant val → val.value ≠ kUnknownDim) :
    ExactOperations first second ↔ ¬ WrapsToSize first.value second.value := by
  refine ⟨fun hexact => (multiply_exact_iff first second).mp hexact.multiply, fun hwraps => ?_⟩
  exact ⟨add_exact first second, subtract_exact first second,
    (multiply_exact_iff first second).mpr hwraps,
    fun evenlyDivisible => divide_exact first evenlyDivisible hsecond,
    min_exact first second, max_exact first second⟩

def dimensionOf (value : ℕ) (hvalue : value < 2 ^ 63) : Dimension :=
  ⟨value, .inr ⟨Int.natCast_nonneg value, by omega⟩⟩

theorem operations_exact_three_five :
    ExactOperations (dimensionOf 3 (by decide)) (.constant (dimensionOf 5 (by decide))) := by
  refine (operations_exact_iff fun val hval => ?_).mpr (by decide)
  cases hval
  decide

/-- The product `2 ^ 64` becomes 0. -/
theorem product_wraps_to_zero : ∃ size : Dimension, size.value = 2 ^ 32 ∧
    ¬ ExactOperations size (.handle size) := by
  refine ⟨dimensionOf (2 ^ 32) (by decide), rfl, fun hexact => ?_⟩
  exact (multiply_exact_iff _ _).mp hexact.multiply (by decide)

end Operations

end ContainerScheduler.Analysis
